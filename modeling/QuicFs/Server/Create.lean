import QuicFs.Server.Walks

/-!
# Create at the limit of the handle table

`handle_create` opens the file, with `O_CREAT` and `O_TRUNC` as asked, and sets its mode before it
asks the table for a handle. Nothing else after the open makes it fail: a Create that is refused has
done nothing, unless the table refuses the handle when the file has been created or emptied
(`create_atomic_iff`).
-/

namespace QuicFs.Server

open Lib

/-- The only change to the handle tables is a handle of the session, for the object `i`, under an
id that was not live. -/
structure OneNewHandle (h h' : Host) (session : Nat) (id : ServerHandle) (i : Ino) : Prop where
  fresh : (h.tables session).inner.lookup id = none
  refers : ((h'.tables session).inner.lookup id).map (·.file.ino) = some i
  others : ∀ k, k ≠ id → (h'.tables session).inner.lookup k = (h.tables session).inner.lookup k
  sessions : ∀ s, s ≠ session → h'.tables s = h.tables s

/-- What a Create answered, and left behind, goes together: nothing is changed by one that is
refused, and one that is granted has made one handle, for the object now at the path. -/
def CreateAtomic (kernel : Kernel) (ex : Export) (session n : Nat) (path : List Char)
    (h h' : Host) : Prop :=
  ∃ r, h'.replies = h.replies ++ [(n, r)] ∧
    (r.status ≠ .ok → h'.fs = h.fs ∧ h'.tables = h.tables) ∧
    (r.status = .ok → ∃ p i, normalise path = .ok p ∧ kernel.place ex h'.fs false p = .obj i ∧
      OneNewHandle h h' session r.handle i)

section
variable {kernel : Kernel} {ex : Export} {n : Nat} {fs fs' : Fs} {flags : OpenFlags} {mode : Nat}
  {path : RootPath} {i : Ino}

theorem openPlace_same (hc : flags.creat = false) (ht : flags.trunc = false) {pl : Place}
    (h : fs.openPlace flags mode pl = .ok (i, fs')) : fs' = fs := by
  cases pl with
  | err e => cases h
  | free d name => simp [Fs.openPlace, Fs.openAt, hc] at h
  | obj j =>
    simp only [Fs.openPlace, Fs.openAt, hc, ht, Bool.false_and, Bool.false_eq_true, if_false] at h
    split at h
    · cases h
    · split at h
      · split at h <;> cases h
        rfl
      · split at h <;> cases h
        rfl
      · split at h <;> cases h
        rfl

theorem place_opened (hs : Standing kernel ex) {follow : Bool}
    (h : fs.openPlace flags mode (kernel.place ex fs follow path) = .ok (i, fs')) :
    kernel.place ex fs' follow path = .obj i := by
  cases hp : kernel.place ex fs follow path with
  | err e => rw [hp] at h; cases h
  | free d name =>
    rw [hp] at h
    simp only [Fs.openPlace, Fs.openAt] at h
    split at h
    · cases h
      exact place_created hs hp
    · cases h
  | obj j =>
    rw [hp] at h
    simp only [Fs.openPlace, Fs.openAt] at h
    split at h
    · cases h
    · split at h
      · cases h
      · next node hn =>
        split at h
        · split at h <;> cases h
          exact hp
        · split at h <;> cases h
          exact hp
        · next data hk =>
          split at h
          · cases h
          · split at h <;> cases h
            · refine place_extends hs (Fs.extends_set hn (fun es he => ?_) ?_) hp
              · rw [hk] at he
                cases he
              · rw [hk]
                rfl
            · exact hp

end

/-- The table does not refuse a handle once the filesystem is not as it was, and the id it gives is
not a live one. -/
def Lossless (fs₀ : Fs) (a : Sys) (_ : Choice) (h : Host) : Prop :=
  ∀ session handle, a = .tryInsert session handle →
    match (h.tables session).tryInsert handle with
    | none => h.fs = fs₀
    | some (id, _) => (h.tables session).inner.lookup id = none

section
variable {kernel : Kernel} {ex : Export} {n : Nat} {h h' : Host} {fs₀ : Fs} {session : Nat}

theorem exec_tryInsert_full {handle : OpenHandle} (he : (h.tables session).tryInsert handle = none)
    (c : Choice) : Sys.exec kernel ex n (.tryInsert session handle) c h = some (none, h) := by
  simp only [Sys.exec, he]
  rfl

theorem exec_tryInsert_room {handle : OpenHandle} {id : ServerHandle} {t : HandleTable}
    (he : (h.tables session).tryInsert handle = some (id, t)) (c : Choice) :
    Sys.exec kernel ex n (.tryInsert session handle) c h =
      some (some id, { h with tables := Function.update h.tables session t }) := by
  simp only [Sys.exec, he]
  rfl

theorem lossless_of_ne {a : Sys} (ha : ∀ session handle, a ≠ .tryInsert session handle) (c : Choice)
    (h : Host) : Lossless fs₀ a c h := fun session handle e => absurd e (ha session handle)

theorem reply_lossless (r : Response) (c : Choice) (h : Host) : Lossless fs₀ (.reply r) c h :=
  lossless_of_ne (fun _ _ e => by cases e) c h

theorem lossless_tryInsert {handle : OpenHandle} {c : Choice} :
    Lossless fs₀ (.tryInsert session handle) c h ↔ match (h.tables session).tryInsert handle with
      | none => h.fs = fs₀
      | some (id, _) => (h.tables session).inner.lookup id = none := by
  refine ⟨fun hl => hl session handle rfl, fun hl session' handle' e => ?_⟩
  cases e
  exact hl

/-- An open that takes no handle meets the condition. -/
theorem openConfined_lossless (path : RootPath) (flags : OpenFlags) (mode : Nat) :
    (openConfined path flags mode).toCalls.Ends (Sys.exec kernel ex n) (Lossless fs₀) h
    fun r h' ok => ok ∧
      ((∃ i fs, r = .ok i ∧ h' = { h with fs } ∧
        h.fs.openPlace flags mode (kernel.place ex h.fs (!flags.noFollow) path) = .ok (i, fs)) ∨
      ∃ e, r = .error e ∧ h' = h) := by
  have hK : ∀ a c, a = .openat2 path flags mode ∨ a = .openPlain path flags mode →
      (Lossless fs₀ a c h ↔ (False → a.fails kernel ex c = false)) := by
    rintro a c (rfl | rfl)
    · exact iff_of_true (lossless_of_ne (fun _ _ e => by cases e) c h) False.elim
    · exact iff_of_true (lossless_of_ne (fun _ _ e => by cases e) c h) False.elim
  refine (openConfined_ends hK).mono ?_
  rintro r h₁ ok (⟨i, fs, rfl, rfl, hopen, hok⟩ | ⟨e, rfl, rfl, hok, -⟩)
  · exact ⟨hok, .inl ⟨i, fs, rfl, rfl, hopen⟩⟩
  · exact ⟨hok id, .inr ⟨e, rfl, rfl⟩⟩

theorem fsyncDirConfined_ends (dir : RootPath) :
    (fsyncDirConfined dir).toCalls.Ends (Sys.exec kernel ex n) (Lossless fs₀) h fun _ h' ok => h' =
    h ∧ ok := by
  refine Prog.Ends.bind ((openConfined_lossless _ _ _).mono ?_)
  rintro r h₁ ok ⟨hok, ⟨i, fs, rfl, rfl, hopen⟩ | ⟨e, rfl, rfl⟩⟩
  · obtain rfl := openPlace_same rfl rfl hopen
    exact fun c r h₂ he =>
      ⟨exec_reads (by trivial) he, hok, lossless_of_ne (fun _ _ e => by cases e) c _, trivial⟩
  · exact ⟨rfl, hok, trivial⟩

theorem syncIf_ends (sync : Bool) (status : Status) (path : RootPath) :
    (syncIf sync status path).Ends (Sys.exec kernel ex n) (Lossless fs₀) h fun _ h' ok => h' =
    h ∧ ok := by
  unfold syncIf syncParentDir
  split
  · split
    · exact ⟨rfl, trivial⟩
    · exact Prog.Ends.bind ((fsyncDirConfined_ends _).mono fun _ _ _ hh => ⟨hh.1, hh.2, trivial⟩)
  · exact ⟨rfl, trivial⟩

theorem createAtomic_refused {path : List Char} {r : Response}
    (hrep : h'.replies = h.replies ++ [(n, r)]) (hr : r.status ≠ .ok) :
    CreateAtomic kernel ex session n path h h' ↔ h'.fs = h.fs ∧ h'.tables = h.tables := by
  constructor
  · rintro ⟨r', hrep', hrefused, -⟩
    obtain rfl : r = r' := by simpa using hrep.symm.trans hrep'
    exact hrefused hr
  · exact fun hsame => ⟨r, hrep, fun _ => hsame, fun hok => absurd hok hr⟩

theorem createAtomic_granted {path : List Char} {r : Response} {p : RootPath} {i : Ino}
    {id : ServerHandle} (hrep : h'.replies = h.replies ++ [(n, r)])
    (hr : r.status = .ok ∧ r.handle = id) (hp : normalise path = .ok p)
    (hplace : kernel.place ex h'.fs false p = .obj i)
    (hnew : ((h'.tables session).inner.lookup id).map (·.file.ino) = some i)
    (hothers : ∀ k, k ≠ id → (h'.tables session).inner.lookup k = (h.tables session).inner.lookup k)
    (hsessions : ∀ s, s ≠ session → h'.tables s = h.tables s) :
    CreateAtomic kernel ex session n path h h' ↔ (h.tables session).inner.lookup id = none := by
  obtain ⟨hr, rfl⟩ := hr
  constructor
  · rintro ⟨r', hrep', -, hgranted⟩
    obtain rfl : r = r' := by simpa using hrep.symm.trans hrep'
    obtain ⟨_, _, -, -, hone⟩ := hgranted hr
    exact hone.fresh
  · intro hfresh
    exact ⟨r, hrep, fun hne => absurd hr hne,
      fun _ => ⟨p, i, hp, hplace, hfresh, hnew, hothers, hsessions⟩⟩

theorem tryInsert_eq_some {t : HandleTable} {handle : OpenHandle} {new : ServerHandle × HandleTable}
    (hins : t.tryInsert handle = some new) :
    new = (t.counter,
      { t with counter := t.counter + 1, inner := t.inner.insert t.counter handle }) := by
  unfold HandleTable.tryInsert at hins
  split at hins
  · cases hins
  · exact (Option.some.inj hins).symm

/-- **A Create is atomic exactly in the runs that meet the condition.** -/
theorem handleCreate_ends (hs : Standing kernel ex) (sync : Bool) (seq : UInt64) (path : List Char)
    (flags mode : UInt32) :
    (handleCreate ex sync session seq path flags mode).Ends (Sys.exec kernel ex n) (Lossless h.fs) h
      fun _ h' ok => CreateAtomic kernel ex session n path h h' ↔ ok := by
  have hlooks : ∀ a c, a.Looks → Lossless h.fs a c h := by
    refine fun a c ha => lossless_of_ne ?_ c h
    rintro _ _ rfl
    exact ha
  refine Prog.Ends.bind ((resolve_ends hlooks path).mono ?_)
  rintro (e | p) h₁ ok ⟨rfl, hok, hp⟩
  · refine reply_ends fun c => iff_of_true ?_ ⟨hok, reply_lossless _ c _, trivial⟩
    exact (createAtomic_refused rfl (by simp)).mpr ⟨rfl, rfl⟩
  refine Prog.Ends.bind ((openConfined_lossless _ _ _).mono ?_)
  rintro r h₂ ok₁ ⟨hok₁, ⟨fd, fs₁, rfl, rfl, hopen⟩ | ⟨e, rfl, rfl⟩⟩
  · have hplace := place_opened hs hopen
    intro c₁ r₁ h₃ he₁
    have hok₂ := @lossless_of_ne h₁.fs (.fchmod fd (permBits mode)) (fun _ _ e => by cases e) c₁
      { h₁ with fs := fs₁ }
    -- whatever becomes of the chmod, the object stays where it is
    obtain ⟨fs₂, rfl, hplace⟩ : ∃ fs₂, h₃ = { h₁ with fs := fs₂ } ∧
        kernel.place ex fs₂ false p = .obj fd := by
      rcases withFault_unit_eq_some he₁ with ⟨-, fs₂, hx, -, rfl⟩ | ⟨-, rfl, -⟩
      · refine ⟨fs₂, rfl, place_extends hs (Fs.modify_extends ?_ hx) hplace⟩
        exact fun _ => rfl
      · exact ⟨fs₁, rfl, hplace⟩
    intro c₂ st h₄ he₂
    have hok₃ := @lossless_of_ne h₁.fs (.fstat fd) (fun _ _ e => by cases e) c₂
      { h₁ with fs := fs₂ }
    obtain rfl := exec_reads (by trivial) he₂
    intro c₃ id h₅ he₃
    have hK : Lossless h₁.fs (.tryInsert session ⟨p, flags, ⟨fd, .rdwr⟩, fd⟩) c₃
        { h₁ with fs := fs₂ } ↔ _ :=
      lossless_tryInsert
    cases hins : (h₁.tables session).tryInsert ⟨p, flags, ⟨fd, .rdwr⟩, fd⟩ with
    | none =>
      cases (@exec_tryInsert_full kernel ex n { h₁ with fs := fs₂ } session _ hins c₃).symm.trans
        he₃
      refine reply_ends fun c => ?_
      simp only [hok, hok₁, hok₂, hok₃, hK, hins, reply_lossless, true_and, and_true]
      exact (createAtomic_refused rfl (by simp)).trans (and_iff_left rfl)
    | some new =>
      cases (@exec_tryInsert_room kernel ex n { h₁ with fs := fs₂ } session _ new.1 new.2 hins
        c₃).symm.trans he₃
      refine Prog.Ends.bind ((syncIf_ends sync .ok p).mono ?_)
      rintro - h₆ ok₄ ⟨rfl, hok₄⟩
      refine reply_ends fun c => ?_
      simp only [hok, hok₁, hok₂, hok₃, hok₄, hK, hins, reply_lossless, true_and, and_true]
      obtain rfl := tryInsert_eq_some hins
      refine createAtomic_granted (p := p) (i := fd) rfl ⟨rfl, rfl⟩ (hp p rfl) hplace ?_
        (fun k hk => ?_) fun s hs => ?_
      · simp
      · simp [AList.lookup_insert_ne hk]
      · simp [hs]
  · refine reply_ends fun c => iff_of_true ?_ ⟨hok, ⟨hok₁, reply_lossless _ c _, trivial⟩⟩
    exact (createAtomic_refused rfl (Status.ofIo_ne_ok _)).mpr ⟨rfl, rfl⟩

/-- **A Create is atomic exactly if the table does not refuse the handle once the file is created or
emptied**, and its counter has not come round to a live id. -/
theorem create_atomic_iff (hs : Standing kernel ex) {sync : Bool} {seq : UInt64} {path : List Char}
    {flags mode : UInt32} {cs cs' : Nat → Choice}
    (hrun : (handleCreate ex sync session seq path flags mode).run (Sys.exec kernel ex n) cs h =
      some ((), h', cs')) :
    CreateAtomic kernel ex session n path h h' ↔
      (handleCreate ex sync session seq path flags mode).Along (Sys.exec kernel ex n)
      (Lossless h.fs) cs h :=
  (handleCreate_ends hs sync seq path flags mode).run hrun

end

/-! ## At the limit -/

/-- An export `/srv` (1) with a file `/srv/f` (2). -/
def plainNodes : List Node :=
  [⟨.dir [(['s', 'r', 'v'], 1)], 0o755, 0, 0⟩, ⟨.dir [(['f'], 2)], 0o755, 0, 0⟩,
    ⟨.file [7], 0o644, 0, 0⟩]

def tableHost (t : HandleTable) : Host := { hostOf plainNodes with tables := fun _ => t }

theorem plain_f : ['f'] ≠ [] ∧ ['f'] ≠ ['.'] ∧ ['f'] ≠ ['.', '.'] := by decide

/-- A Create of `/f` with `O_TRUNC`. -/
def emptyF (session : Nat) : Calls Unit := handleCreate srv false session 0 ['/', 'f'] 0x200 0o644

def handleF : OpenHandle := ⟨[⟨['f'], plain_f⟩], 0x200, ⟨2, .rdwr⟩, 2⟩

/-- The host when the table is asked: the file is empty. -/
def emptied (t : HandleTable) : Host :=
  { tableHost t with
    fs := ((tableHost t).fs.set 2 (some ⟨.file [], 0o644, 0, 0⟩)).set 2
      (some ⟨.file [], 0o644, 0, 0⟩) }

def grantF (session : Nat) : Calls Unit :=
  .act (.tryInsert session handleF) fun (id : Option ServerHandle) =>
    match id with
    | none => reply { op := .create, seq := 0, status := .noSpace }
    | some handle =>
      (syncIf false .ok [⟨['f'], plain_f⟩]).bind fun _ => reply
        { op := .create, seq := 0, status := .ok, handle,
          stat := some (2, ⟨.file [], 0o644, 0, 0⟩) }

theorem run_emptyF (session : Nat) (t : HandleTable) :
    (emptyF session).run (Sys.exec linux srv 0) (fun _ => {}) (tableHost t) =
      (grantF session).run (Sys.exec linux srv 0) (fun _ => {}) (emptied t) := by
  have hresolve : (resolve srv ['/', 'f']).run (Sys.exec linux srv 0) (fun _ => {}) (tableHost t) =
      some (.ok [⟨['f'], plain_f⟩], tableHost t, fun _ => {}) := rfl
  have hopen : (openConfined [⟨['f'], plain_f⟩] (createFlags 0x200) (permBits 0o644)).toCalls.run
      (Sys.exec linux srv 0) (fun _ => {}) (tableHost t) =
      some (.ok 2, { tableHost t with fs := (tableHost t).fs.set 2 (some ⟨.file [], 0o644, 0, 0⟩) },
        fun _ => {}) := rfl
  unfold emptyF handleCreate withResolved
  rw [Prog.run_bind hresolve]
  dsimp only
  rw [Prog.run_bind hopen]
  rfl

theorem standing_srv : Standing linux srv := ⟨rfl, rfl⟩

section
variable {session : Nat} {t : HandleTable}

theorem run_grantF_full (h : t.maxHandles.toNat ≤ t.inner.entries.length) :
    (grantF session).run (Sys.exec linux srv 0) (fun _ => {}) (emptied t) =
      some ((), { emptied t with
        replies := [(0, { op := .create, seq := 0, status := .noSpace })] }, fun _ => {}) :=
  have hins : ((emptied t).tables session).tryInsert handleF = none := if_pos h
  (Prog.run_act (exec_tryInsert_full hins _)).trans rfl

/-- The host after the answer of a table with room. -/
def granted (session : Nat) (t : HandleTable) : Host :=
  { emptied t with
    tables := Function.update (fun _ => t) session
      { t with counter := t.counter + 1, inner := t.inner.insert t.counter handleF }
    replies := [(0, { op := .create, seq := 0, status := .ok, handle := t.counter,
                      stat := some (2, ⟨.file [], 0o644, 0, 0⟩) })] }

theorem run_grantF_room (h : t.inner.entries.length < t.maxHandles.toNat) :
    (grantF session).run (Sys.exec linux srv 0) (fun _ => {}) (emptied t) =
      some ((), granted session t, fun _ => {}) :=
  have hins : ((emptied t).tables session).tryInsert handleF = some (t.counter, _) :=
    if_neg (Nat.not_le.mpr h)
  (Prog.run_act (exec_tryInsert_room hins _)).trans rfl

end

theorem create_atomic_iff_room : ∃ t : HandleTable,
    CreateAtomic linux srv 0 0 ['/', 'f'] (tableHost t) (granted 0 t) ∧
      (emptyF 0).Along (Sys.exec linux srv 0) (Lossless (tableHost t).fs) (fun _ => {})
      (tableHost t) := by
  refine ⟨.withLimit 7 100, ?_⟩
  have hatomic : CreateAtomic linux srv 0 0 ['/', 'f'] (tableHost (.withLimit 7 100))
      (granted 0 (.withLimit 7 100)) := by
    refine ⟨_, rfl, fun hne => absurd rfl hne,
      fun _ => ⟨[⟨['f'], plain_f⟩], 2, rfl, rfl, rfl, rfl, ?_, ?_⟩⟩
    · exact fun k hk => AList.lookup_insert_ne hk
    · intro s hs
      simp [granted, tableHost, hs]
  have hrun := (run_emptyF 0 (.withLimit 7 100)).trans (run_grantF_room (by decide))
  exact ⟨hatomic, (create_atomic_iff standing_srv hrun).mp hatomic⟩

/-- A session that holds the one handle it may hold. -/
def fullTable : HandleTable := ⟨0x700000002, 1, AList.insert 0x700000001 handleF ∅⟩

/-- The Create of `/f` is refused, and the file is empty. -/
theorem refused_create_empties :
    ∃ h' : Host, (emptyF 0).run (Sys.exec linux srv 0) (fun _ => {}) (tableHost fullTable) =
        some ((), h', fun _ => {}) ∧
      h'.replies = [(0, { op := .create, seq := 0, status := .noSpace })] ∧
      (tableHost fullTable).fs.content 2 = some [7] ∧ h'.fs.content 2 = some [] :=
  ⟨_, (run_emptyF 0 fullTable).trans (run_grantF_full (by decide)), rfl, rfl, rfl⟩

end QuicFs.Server
