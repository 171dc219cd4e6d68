import QuicFs.System.Namespace

/-!
# The RPCs of the namespace callbacks

Each RPC of a callback, its calls not failing of themselves and its answer not lost, changes
the server's tree as its handler does (`rpcStat_mkDir` and the others). What a callback can
do follows (`mkdir_cases` and the others).
-/

namespace QuicFs.System

open Lib Client Server Function

/-! ## RPCs -/

/-- No call of the server fails of itself and no answer is lost. -/
def Outside.Sound (o : Outside) : Prop :=
  ∀ k, o.fate k ≠ .unanswered ∧ ∀ j, (o.choices k j).fault = none

section
variable {L : StatStore} {S : Setup} {o : Outside} {s : Names L}

theorem serveAlone_eq {session : Nat} {q : Request} {h h' : Host} {r : Response}
    (ha : Answered S.kernel S.ex 0 (handle S.ex S.dur 0 session q) h r h') {cs : Nat → Choice}
    (hcs : ∀ j, (cs j).fault = none) : serveAlone S session q cs h = some (r, h') := by
  obtain ⟨cs', -, hrun⟩ := ha.1 cs hcs
  rw [serveAlone, hrun, Option.bind_some]
  simp only [ha.2, Option.map_some]

theorem rpc_eq (ho : o.Sound) {k : Nat} {q : UInt64 → Request} {h' : Host} {r : Response}
    (ha : Answered S.kernel S.ex 0 (handle S.ex S.dur 0 o.session (q o.seq)) s.host r h') :
    s.rpc S o k q = some (.error .other, s) ∧ o.fate k = .unsent ∨
      s.rpc S o k q = some (checkStatus r, { s with host := h' }) := by
  unfold Names.rpc
  rw [serveAlone_eq ha (ho k).2]
  cases hf : o.fate k with
  | unsent => exact .inl ⟨by simp, rfl⟩
  | answered => exact .inr (by simp)
  | unanswered => exact absurd hf (ho k).1

/-- The outcome of an RPC that answers attributes, the server's tree in the state it leaves
included: it failed and the tree is as before, or it was done. -/
def StatOutcome (S : Setup) (s : Names L) (call : Option (Except RpcError (Ino × Node) × Names L))
    (Done : Ino × Node → Fs → Prop) : Prop :=
  ∃ r h', call = some (r, { s with host := h' }) ∧ h'.fs.Tree S.ex.root ∧
    ((∃ e, r = .error e) ∧ h'.fs.view S.ex.root = s.host.fs.view S.ex.root ∨
      ∃ st, r = .ok st ∧ Done st h'.fs)

theorem checkStatus_of_ok {r : Response} (h : r.status = .ok) : checkStatus r = .ok r := by
  rw [checkStatus, if_pos h]

theorem checkStatus_of_ne {r : Response} (h : r.status ≠ .ok) :
    checkStatus r = .error (.server r.status) := by
  rw [checkStatus, if_neg h]

section
variable (hs : Standing S.kernel S.ex) (ht : s.host.fs.Tree S.ex.root) (ho : o.Sound)
include hs ht ho

theorem rpcStat_mkDir {path : Path} (hp : S.ex.Short (components path)) (mode : UInt32) :
    StatOutcome S s (s.rpcStat S o (.mkDir · path mode)) fun st fs =>
      s.host.fs.view S.ex.root (components path) = none ∧ st.2.kind.sort = .dir ∧
        fs.view S.ex.root =
          update (s.host.fs.view S.ex.root) (components path) (some (st.1, .dir)) := by
  obtain ⟨r, h', ha, ht', hcase⟩ :=
    answered_handleMkdir (n := 0) hs ht S.dur.syncMetadata o.seq hp mode
  rcases rpc_eq (k := 0) ho (q := (.mkDir · path mode)) ha with ⟨he, -⟩ | he
  · exact ⟨_, s.host, by rw [Names.rpcStat, he]; rfl, ht, .inl ⟨⟨_, rfl⟩, rfl⟩⟩
  · rcases hcase with ⟨hne, hfs⟩ | ⟨hok, hnone, i, node, hstat, hk, hview⟩
    · refine ⟨_, h',
        by rw [Names.rpcStat, he, checkStatus_of_ne hne]; rfl, ht', .inl ⟨⟨_, rfl⟩, ?_⟩⟩
      rw [hfs]
    · refine ⟨.ok (i, node), h', ?_, ht', .inr ⟨_, rfl, hnone, hk, hview⟩⟩
      rw [Names.rpcStat, he, checkStatus_of_ok hok]
      simp only [Option.map_some, hstat]

theorem rpcStat_link {path link : Path} (hp : S.ex.Short (components path))
    (hl : S.ex.Short (components link)) :
    StatOutcome S s (s.rpcStat S o (.link · path link)) fun st fs =>
      s.host.fs.view S.ex.root (components link) = none ∧ st.2.kind.sort = .file ∧
        s.host.fs.view S.ex.root (components path) = some (st.1, .file) ∧ fs.view S.ex.root =
          update (s.host.fs.view S.ex.root) (components link) (some (st.1, .file)) := by
  obtain ⟨r, h', ha, ht', hcase⟩ :=
    answered_handleLink (n := 0) hs ht S.dur.syncMetadata o.seq hp hl
  rcases rpc_eq (k := 0) ho (q := (.link · path link)) ha with ⟨he, -⟩ | he
  · exact ⟨_, s.host, by rw [Names.rpcStat, he]; rfl, ht, .inl ⟨⟨_, rfl⟩, rfl⟩⟩
  · rcases hcase with ⟨hne, hfs⟩ | ⟨hok, hnone, i, node, hstat, hk, hi, hview⟩
    · refine ⟨_, h',
        by rw [Names.rpcStat, he, checkStatus_of_ne hne]; rfl, ht', .inl ⟨⟨_, rfl⟩, ?_⟩⟩
      rw [hfs]
    · refine ⟨.ok (i, node), h', ?_, ht', .inr ⟨_, rfl, hnone, hk, hi, hview⟩⟩
      rw [Names.rpcStat, he, checkStatus_of_ok hok]
      simp only [Option.map_some, hstat]

/-- A Create that fails may still have made the file. -/
theorem rpcStat_create {path : Path} (hp : S.ex.Short (components path)) (flags mode : UInt32) :
    ∃ r h', s.rpcStat S o (.create · path flags mode) = some (r, { s with host := h' }) ∧
      h'.fs.Tree S.ex.root ∧
      (h'.fs.view S.ex.root = s.host.fs.view S.ex.root ∨
        s.host.fs.view S.ex.root (components path) = none ∧ ∃ i, h'.fs.view S.ex.root =
          update (s.host.fs.view S.ex.root) (components path) (some (i, .file))) ∧
      ∀ st, r = .ok st → st.2.kind.sort = .file ∧
        h'.fs.view S.ex.root (components path) = some (st.1, .file) := by
  obtain ⟨r, h', ha, ht', hview, hst⟩ :=
    answered_handleCreate (n := 0) hs ht S.dur.syncMetadata o.session o.seq hp flags mode
  rcases rpc_eq (k := 0) ho (q := (.create · path flags mode)) ha with ⟨he, -⟩ | he
  · exact ⟨_, s.host, by rw [Names.rpcStat, he]; rfl, ht, .inl rfl, fun st h => by cases h⟩
  · by_cases hok : r.status = .ok
    · obtain ⟨i, node, hstat, hk, hi⟩ := hst hok
      refine ⟨.ok (i, node), h', ?_, ht', hview, fun st e => ?_⟩
      · rw [Names.rpcStat, he, checkStatus_of_ok hok]
        simp only [Option.map_some, hstat]
      · cases e
        exact ⟨hk, hi⟩
    · exact ⟨_, h', by rw [Names.rpcStat, he, checkStatus_of_ne hok]; rfl, ht', hview,
        fun st h => by cases h⟩

theorem rpcStat_getAttr {path : Path} (hp : S.ex.Short (components path)) :
    ∃ r h', s.rpcStat S o (.getAttr · path) = some (r, { s with host := h' }) ∧
      h'.fs = s.host.fs ∧
      (∀ st, r = .ok st →
        s.host.fs.view S.ex.root (components path) = some (st.1, st.2.kind.sort)) ∧
      (r = .error (.server .notFound) → s.host.fs.view S.ex.root (components path) = none) ∧
      (o.fate 0 = .answered → (∃ cs, normalise path = .ok cs) →
        s.host.fs.NoFileAbove S.ex.root (components path) →
        (∃ st, r = .ok st) ∨ r = .error (.server .notFound)) := by
  obtain ⟨r, h', ha, hfs, hok, hnot, hplain⟩ := answered_handleGetattr (n := 0) hs ht o.seq hp
  rcases rpc_eq (k := 0) ho (q := (.getAttr · path)) ha with ⟨he, hf⟩ | he
  · refine ⟨_, s.host, by rw [Names.rpcStat, he]; rfl, rfl, fun st h => (by cases h),
      fun h => (by cases h), fun h => ?_⟩
    rw [hf] at h
    cases h
  · by_cases hst : r.status = .ok
    · obtain ⟨i, node, hstat, hv⟩ := hok hst
      refine ⟨.ok (i, node), h', ?_, hfs, fun st e => ?_, fun e => (by cases e),
        fun _ _ _ => .inl ⟨_, rfl⟩⟩
      · rw [Names.rpcStat, he, checkStatus_of_ok hst]
        simp only [Option.map_some, hstat]
      · cases e
        exact hv
    · refine ⟨.error (.server r.status), h', ?_, hfs, fun st h => (by cases h), fun e => ?_,
        fun _ hn ha => ?_⟩
      · rw [Names.rpcStat, he, checkStatus_of_ne hst]
        rfl
      · exact hnot (by injection e with e; injection e)
      · exact .inr (by rw [(hplain hn ha).resolve_left hst])

/-- `unlink` and `rmdir`. -/
theorem rpc_remove {q : UInt64 → Path → Request} (hq : ∀ seq path, ∃ op isDir,
    handle S.ex S.dur 0 o.session (q seq path) =
      handleRemove S.ex S.dur.syncMetadata op isDir seq path)
    {path : Path} (hp : S.ex.Short (components path)) :
    ∃ r h', s.rpc S o 0 (q · path) = some (r, { s with host := h' }) ∧
      h'.fs.Tree S.ex.root ∧
      ((∃ e, r = .error e) ∧ h'.fs.view S.ex.root = s.host.fs.view S.ex.root ∨
        (∃ a, r = .ok a) ∧ h'.fs.view S.ex.root =
          update (s.host.fs.view S.ex.root) (components path) none ∧
          ∀ c q, s.host.fs.view S.ex.root (components path ++ c :: q) = none) := by
  obtain ⟨op, isDir, hop⟩ := hq o.seq path
  obtain ⟨r, h', ha, ht', hcase⟩ :=
    answered_handleRemove (n := 0) hs ht S.dur.syncMetadata op isDir o.seq hp
  rw [← hop] at ha
  rcases rpc_eq (k := 0) ho (q := (q · path)) ha with ⟨he, -⟩ | he
  · exact ⟨_, s.host, he, ht, .inl ⟨⟨_, rfl⟩, rfl⟩⟩
  · rcases hcase with ⟨hne, hfs⟩ | ⟨hok, hview, hbelow⟩
    · exact ⟨_, h', by rw [he, checkStatus_of_ne hne], ht', .inl ⟨⟨_, rfl⟩, by rw [hfs]⟩⟩
    · exact ⟨_, h', by rw [he, checkStatus_of_ok hok], ht', .inr ⟨⟨_, rfl⟩, hview, hbelow⟩⟩

theorem rpc_rename {old new : Path} (hold : S.ex.Short (components old))
    (hnew : S.ex.Short (components new)) :
    ∃ r h', s.rpc S o 0 (.rename · old new) = some (r, { s with host := h' }) ∧
      h'.fs.Tree S.ex.root ∧
      ((∃ e, r = .error e) ∧ h'.fs.view S.ex.root = s.host.fs.view S.ex.root ∨
        (∃ a, r = .ok a) ∧ ∃ x, s.host.fs.view S.ex.root (components old) = some x ∧
          (h'.fs.view S.ex.root = s.host.fs.view S.ex.root ∧
              s.host.fs.view S.ex.root (components new) = some x ∨
            h'.fs.view S.ex.root =
              Fs.moved (s.host.fs.view S.ex.root) (components old) (components new) ∧
            ∀ c q, s.host.fs.view S.ex.root (components new ++ c :: q) = none)) := by
  obtain ⟨r, h', ha, ht', hcase⟩ :=
    answered_handleRename (n := 0) hs ht S.dur.syncMetadata o.seq hold hnew
  rcases rpc_eq (k := 0) ho (q := (.rename · old new)) ha with ⟨he, -⟩ | he
  · exact ⟨_, s.host, he, ht, .inl ⟨⟨_, rfl⟩, rfl⟩⟩
  · rcases hcase with ⟨hne, hfs⟩ | ⟨hok, x, hx, hcase⟩
    · exact ⟨_, h', by rw [he, checkStatus_of_ne hne], ht', .inl ⟨⟨_, rfl⟩, by rw [hfs]⟩⟩
    · refine ⟨_, h', by rw [he, checkStatus_of_ok hok], ht', .inr ⟨⟨_, rfl⟩, x, hx, ?_⟩⟩
      exact hcase.imp (fun h => ⟨by rw [h.1], h.2⟩) id

omit ht in
/-- The entries of a listing are there, and the listing changes nothing. -/
theorem readdirPages_spec {path : Path} (hp : S.ex.Short (components path)) :
    ∀ {pages : Nat} {cursor : UInt64} {s s' : Names L}
    {r : Except RpcError (List DirEntry)}, s.host.fs.Tree S.ex.root →
    s.readdirPages S o path pages cursor = some (r, s') →
      (∃ h', s' = { s with host := h' } ∧ h'.fs = s.host.fs) ∧
      ∀ es, r = .ok es → ∀ e ∈ es, ValidName e.name ∧
        s.host.fs.view S.ex.root (components path ++ [e.name]) ≠ none := by
  intro pages
  induction pages with
  | zero => intro cursor s s' r _ h; cases h
  | succ k ih =>
    intro cursor s s' r ht h
    rw [Names.readdirPages] at h
    obtain ⟨a, h₁, ha, hfs, hent⟩ := answered_handleReaddir (n := 0) hs ht o.seq hp cursor
    rcases rpc_eq (k := k) ho (q := (.readDir · path cursor)) ha with ⟨he, -⟩ | he
    · rw [he] at h
      cases h
      exact ⟨⟨s.host, rfl, rfl⟩, fun es e => by cases e⟩
    · rw [he] at h
      by_cases hok : a.status = .ok
      · rw [checkStatus_of_ok hok] at h
        simp only [Option.bind_some] at h
        split at h
        · cases h
          refine ⟨⟨h₁, rfl, hfs⟩, fun es e => ?_⟩
          cases e
          exact hent hok
        · obtain ⟨⟨r', s₁⟩, hrest, hr⟩ := Option.map_eq_some_iff.mp h
          cases hr
          have ht₁ : ({ s with host := h₁ } : Names L).host.fs.Tree S.ex.root := hfs ▸ ht
          obtain ⟨⟨h₂, rfl, hfs₂⟩, hent₂⟩ := ih ht₁ hrest
          refine ⟨⟨h₂, rfl, hfs₂.trans hfs⟩, fun es e x hx => ?_⟩
          cases r' with
          | error e' => cases e
          | ok rest =>
            cases e
            rcases List.mem_append.mp hx with hx | hx
            · exact hent hok x hx
            · have := hent₂ rest rfl x hx
              rwa [show ({ s with host := h₁ } : Names L).host.fs = s.host.fs from hfs] at this
      · rw [checkStatus_of_ne hok] at h
        cases h
        exact ⟨⟨h₁, rfl, hfs⟩, fun es e => by cases e⟩

end

/-- What allocating a number for each entry keeps, the listing keeps. -/
theorem addEntries_keeps {I : InodeTable → Prop} {path : Path} : ∀ {room : Nat}
    {es : List (DirEntry × Nat)} {t : InodeTable},
    (∀ e ∈ es, ∀ t, I t → I (t.getOrAlloc (entryPath path e.1.name)).2) → I t →
    I (Names.addEntries path room es t).2 := by
  intro room es
  induction es generalizing room with
  | nil => intro t _ ht; cases room <;> exact ht
  | cons e es ih =>
    intro t hI ht
    have h₁ := hI e (List.mem_cons_self ..) t ht
    cases room with
    | zero => exact h₁
    | succ room => exact ih (fun e' he' => hI e' (List.mem_cons_of_mem _ he')) h₁

end

/-! ## What a callback can do -/

section
variable {L : StatStore} {s : Names L}

theorem withPath_cases {ino : FuseIno} {k : Path → Option (NameReply × Names L)}
    {x : NameReply × Names L} (h : s.withPath ino k = some x) :
    x.2 = s ∨ ∃ path, s.inodes.pathOf ino = some path ∧ k path = some x := by
  unfold Names.withPath at h
  split at h
  · exact .inl (by cases h; rfl)
  · next path hp => exact .inr ⟨path, hp, h⟩

end

/-- The paths of the callback are within every limit. -/
def Names.Fitting {L : StatStore} (S : Setup) (s : Names L) (op : NameOp) : Prop :=
  ∀ path ∈ op.paths s.inodes, S.ex.Short (components path)

instance {L : StatStore} (S : Setup) (s : Names L) (op : NameOp) : Decidable (s.Fitting S op) :=
  inferInstanceAs (Decidable (∀ path ∈ op.paths s.inodes, _))

/-- A rename that finds its two directories: it is to the same path, or the paths are `P`. -/
def Names.OnRename {L : StatStore} (s : Names L) (op : NameOp) (P : Path → Path → Prop) : Prop :=
  ∀ parent name newParent newName, op = .rename parent name newParent newName →
    ∀ po pn, s.inodes.pathOf parent = some po → s.inodes.pathOf newParent = some pn →
      childPath po name.1 = childPath pn newName.1 ∨
      P (childPath po name.1) (childPath pn newName.1)

/-- A listing of a directory that is not `/` in another spelling. -/
def Names.OnReaddir {L : StatStore} (s : Names L) (op : NameOp) : Prop :=
  ∀ ino offset, op = .readdir ino offset → ∀ p, s.inodes.pathOf ino = some p →
    components p = [] → p = ['/']

section
variable {L : StatStore} {S : Setup} {o : Outside} {s : Names L} {x : NameReply × Names L}
variable (hs : Standing S.kernel S.ex) (ht : s.host.fs.Tree S.ex.root) (ho : o.Sound)
include hs ht ho

/-- `get_stat` is answered from the cache, or by the server and the answer is cached. -/
theorem getStat_cases (hL : L.Laws) {path : Path} (hp : S.ex.Short (components path)) :
    ∃ c h' s₁, s.cache.Forgets c ∧ h'.fs = s.host.fs ∧
    s₁ = { s with cache := c, host := h' } ∧
    ((∃ st, s.cache.known path = some (some st) ∧ s.getStat S o path = some (.ok st, s₁)) ∨
      (s.cache.known path = some none ∧ s.getStat S o path = some (.error .enoent, s₁)) ∨
      (∃ st, s.host.fs.view S.ex.root (components path) = some (st.1, st.2.kind.sort) ∧
        s.getStat S o path = some (.ok st, cacheStat o path st s₁)) ∨
      (s.host.fs.view S.ex.root (components path) = none ∧
        s.getStat S o path = some (.error .enoent, cacheNegative o path s₁)) ∨
      (¬(o.fate 0 = .answered ∧ (∃ cs, normalise path = .ok cs) ∧
          s.host.fs.NoFileAbove S.ex.root (components path)) ∧
        s.getStat S o path = some (.error .eio, s₁))) := by
  obtain ⟨c₀, hc₀, hrec⟩ : ∃ c₀, s.cache.Forgets c₀ ∧
      checkReconnect o s = { s with cache := c₀ } := by
    unfold checkReconnect
    split
    · exact ⟨_, MetaCache.forgets_clear hL _, rfl⟩
    · exact ⟨_, fun _ _ h => h, rfl⟩
  have hget := hc₀.trans (MetaCache.forgets_get hL c₀ path o.now)
  have hknown : ∀ x, (c₀.get path o.now).1 = some x → s.cache.known path = some x :=
    fun x hx => hc₀ path x (MetaCache.known_of_get hL hx)
  unfold Names.getStat
  rw [hrec]
  dsimp only
  generalize c₀.get path o.now = got at hget hknown ⊢
  obtain ⟨hit, c⟩ := got
  rcases hit with _ | _ | st
  · obtain ⟨r, h', hr, hfs, hok, hnot, hplain⟩ :=
      rpcStat_getAttr (s := { s with cache := c }) hs ht ho hp
    refine ⟨c, h', _, hget, hfs, rfl, .inr (.inr ?_)⟩
    simp only [hr, Option.map_some]
    cases r with
    | ok st => exact .inl ⟨st, hok st rfl, rfl⟩
    | error e =>
      by_cases he : e = .server .notFound
      · exact .inr (.inl ⟨hnot (by rw [he]), by simp [he]⟩)
      · refine .inr (.inr ⟨fun ⟨hf, hn, ha⟩ => ?_, by simp [he]⟩)
        rcases hplain hf hn ha with ⟨st, e'⟩ | e'
        · cases e'
        · exact he (by injection e')
  · exact ⟨c, s.host, _, hget, rfl, rfl, .inr (.inl ⟨hknown _ rfl, rfl⟩)⟩
  · exact ⟨c, s.host, _, hget, rfl, rfl, .inl ⟨st, hknown _ rfl, rfl⟩⟩

theorem mkdir_cases {parent : FuseIno} {name : FuseName} {mode : UInt32}
    (hfit : s.Fitting S (.mkdir parent name mode)) (hx : s.mkdir S o parent name mode = some x) :
    x.2 = s ∨ ∃ par h', s.inodes.pathOf parent = some par ∧ h'.fs.Tree S.ex.root ∧
      (x.2 = { invalidateCache par s with host := h' } ∧
          h'.fs.view S.ex.root = s.host.fs.view S.ex.root ∨
        ∃ st, x.2 = ((cacheStat o (childPath par name.1) st
            { invalidateCache par s with host := h' }).makeFileAttr (childPath par name.1) st).2 ∧
          s.host.fs.view S.ex.root (components (childPath par name.1)) = none ∧
          st.2.kind.sort = .dir ∧ h'.fs.view S.ex.root = update (s.host.fs.view S.ex.root)
            (components (childPath par name.1)) (some (st.1, .dir))) := by
  rcases withPath_cases hx with e | ⟨par, hpar, hx⟩
  · exact .inl e
  obtain ⟨r, h', hr, ht', hcase⟩ :=
    rpcStat_mkDir (s := invalidateCache par s) hs ht ho
      (hfit (childPath par name.1) (by simp [NameOp.paths, hpar])) mode
  dsimp only at hx
  rw [hr, Option.map_some] at hx
  cases hx
  refine .inr ⟨par, h', hpar, ht', ?_⟩
  rcases hcase with ⟨⟨e, rfl⟩, hview⟩ | ⟨st, rfl, hdone⟩
  · exact .inl ⟨rfl, hview⟩
  · exact .inr ⟨st, rfl, hdone⟩

theorem remove_cases {q : UInt64 → Path → Request} (hq : ∀ seq path, ∃ op isDir,
    handle S.ex S.dur 0 o.session (q seq path) =
      handleRemove S.ex S.dur.syncMetadata op isDir seq path)
    {parent : FuseIno} {name : FuseName} (hfit : s.Fitting S (.unlink parent name))
    (hx : s.remove S o q parent name = some x) :
    x.2 = s ∨ ∃ par h' s₁, s.inodes.pathOf parent = some par ∧ h'.fs.Tree S.ex.root ∧
      s₁ = { invalidateCache (childPath par name.1) s with host := h' } ∧
      (x.2 = s₁ ∧ h'.fs.view S.ex.root = s.host.fs.view S.ex.root ∨
        x.2 = { s₁ with inodes := s.inodes.removePath (childPath par name.1) } ∧
          h'.fs.view S.ex.root =
            update (s.host.fs.view S.ex.root) (components (childPath par name.1)) none ∧
          ∀ c q, s.host.fs.view S.ex.root (components (childPath par name.1) ++ c :: q) =
            none) := by
  rcases withPath_cases hx with e | ⟨par, hpar, hx⟩
  · exact .inl e
  obtain ⟨r, h', hr, ht', hcase⟩ :=
    rpc_remove (s := invalidateCache (childPath par name.1) s) hs ht ho hq
      (hfit (childPath par name.1) (by simp [NameOp.paths, hpar]))
  dsimp only at hx
  rw [hr, Option.map_some] at hx
  cases hx
  refine .inr ⟨par, h', _, hpar, ht', rfl, ?_⟩
  rcases hcase with ⟨⟨e, rfl⟩, hview⟩ | ⟨⟨a, rfl⟩, hdone⟩
  · exact .inl ⟨rfl, hview⟩
  · exact .inr ⟨rfl, hdone⟩

theorem rename_cases {parent newParent : FuseIno} {name newName : FuseName}
    (hfit : s.Fitting S (.rename parent name newParent newName))
    (hx : s.rename S o parent name newParent newName = some x) :
    x.2 = s ∨ ∃ po pn old new h', s.inodes.pathOf parent = some po ∧
      s.inodes.pathOf newParent = some pn ∧ old = childPath po name.1 ∧
      new = childPath pn newName.1 ∧
      h'.fs.Tree S.ex.root ∧
      (x.2 = { s with host := h' } ∧ h'.fs.view S.ex.root = s.host.fs.view S.ex.root ∨
        ∃ s₁, s₁ = (parentPath new).elim
          (invalidateCache new (invalidateCache old { s with host := h' }))
            (fun p => invalidateCache p
              (invalidateCache new (invalidateCache old { s with host := h' }))) ∧
          x.2 = { s₁ with inodes := s₁.inodes.renameIno old new } ∧
          ∃ y, s.host.fs.view S.ex.root (components old) = some y ∧
            (h'.fs.view S.ex.root = s.host.fs.view S.ex.root ∧
                s.host.fs.view S.ex.root (components new) = some y ∨
              h'.fs.view S.ex.root =
                Fs.moved (s.host.fs.view S.ex.root) (components old) (components new) ∧
              ∀ c q, s.host.fs.view S.ex.root (components new ++ c :: q) = none)) := by
  rcases withPath_cases hx with e | ⟨po, hpo, hx⟩
  · exact .inl e
  rcases withPath_cases hx with e | ⟨pn, hpn, hx⟩
  · exact .inl e
  obtain ⟨r, h', hr, ht', hcase⟩ := rpc_rename hs ht ho
    (hfit (childPath po name.1) (by simp [NameOp.paths, hpo]))
      (hfit (childPath pn newName.1) (by simp [NameOp.paths, hpn]))
  dsimp only at hx
  rw [hr, Option.map_some] at hx
  cases hx
  refine .inr ⟨po, pn, _, _, h', hpo, hpn, rfl, rfl, ht', ?_⟩
  rcases hcase with ⟨⟨e, rfl⟩, hview⟩ | ⟨⟨a, rfl⟩, hdone⟩
  · exact .inl ⟨rfl, hview⟩
  · exact .inr ⟨_, rfl, rfl, hdone⟩

theorem link_cases {ino newParent : FuseIno} {newName : FuseName}
    (hfit : s.Fitting S (.link ino newParent newName))
    (hx : s.link S o ino newParent newName = some x) :
    x.2 = s ∨ ∃ src pn new h', s.inodes.pathOf ino = some src ∧
      s.inodes.pathOf newParent = some pn ∧
      new = childPath pn newName.1 ∧ h'.fs.Tree S.ex.root ∧
      (x.2 = { s with host := h' } ∧ h'.fs.view S.ex.root = s.host.fs.view S.ex.root ∨
        ∃ st, x.2 = ((cacheStat o new st (invalidateCache new (cacheStat o src st
            (invalidateCache src { s with host := h' })))).makeFileAttr new st).2 ∧
          s.host.fs.view S.ex.root (components new) = none ∧ st.2.kind.sort = .file ∧
          s.host.fs.view S.ex.root (components src) = some (st.1, .file) ∧ h'.fs.view S.ex.root =
            update (s.host.fs.view S.ex.root) (components new) (some (st.1, .file))) := by
  rcases withPath_cases hx with e | ⟨src, hsrc, hx⟩
  · exact .inl e
  rcases withPath_cases hx with e | ⟨pn, hpn, hx⟩
  · exact .inl e
  obtain ⟨r, h', hr, ht', hcase⟩ := rpcStat_link hs ht ho
    (hfit src (by simp [NameOp.paths, hsrc]))
      (hfit (childPath pn newName.1) (by simp [NameOp.paths, hpn]))
  dsimp only at hx
  rw [hr, Option.map_some] at hx
  cases hx
  refine .inr ⟨src, pn, _, h', hsrc, hpn, rfl, ht', ?_⟩
  rcases hcase with ⟨⟨e, rfl⟩, hview⟩ | ⟨st, rfl, hdone⟩
  · exact .inl ⟨rfl, hview⟩
  · exact .inr ⟨st, rfl, hdone⟩

theorem create_cases {parent : FuseIno} {name : FuseName} {mode flags : UInt32}
    (hfit : s.Fitting S (.create parent name mode flags))
    (hx : s.create S o parent name mode flags = some x) :
    x.2 = s ∨ ∃ par path h' s₁, s.inodes.pathOf parent = some par ∧ path = childPath par name.1 ∧
      h'.fs.Tree S.ex.root ∧ s₁ = { invalidateCache path (invalidateCache par s) with host := h' } ∧
      (h'.fs.view S.ex.root = s.host.fs.view S.ex.root ∨
        s.host.fs.view S.ex.root (components path) = none ∧ ∃ i, h'.fs.view S.ex.root =
          update (s.host.fs.view S.ex.root) (components path) (some (i, .file))) ∧
      (x.2 = s₁ ∨ ∃ st, x.2 = ((cacheStat o path st s₁).makeFileAttr path st).2 ∧
        st.2.kind.sort = .file ∧ h'.fs.view S.ex.root (components path) = some (st.1, .file)) := by
  rcases withPath_cases hx with e | ⟨par, hpar, hx⟩
  · exact .inl e
  obtain ⟨r, h', hr, ht', hview, hst⟩ :=
    rpcStat_create (s := invalidateCache (childPath par name.1) (invalidateCache par s)) hs ht ho
      (hfit (childPath par name.1) (by simp [NameOp.paths, hpar])) flags mode
  dsimp only at hx
  rw [hr, Option.map_some] at hx
  cases hx
  refine .inr ⟨par, _, h', _, hpar, rfl, ht', rfl, hview, ?_⟩
  cases r with
  | ok st => exact .inr ⟨st, rfl, hst st rfl⟩
  | error e => exact .inl rfl

end

/-! ## A run on a small mount -/

theorem sound_default : ({} : Outside).Sound := fun _ => ⟨fun h => (by cases h), fun _ => rfl⟩

theorem standing_smallSetup : Standing smallSetup.kernel smallSetup.ex := ⟨rfl, rfl⟩

theorem holds_smallMount {d i : Ino} {n : Name} (h : smallMount.host.fs.Holds d n i) :
    d = 0 ∧ n = ['s', 'r', 'v'] ∧ i = 1 := by
  obtain ⟨es, he, hm⟩ := h
  match d with
  | 0 =>
    cases he
    simpa using hm
  | 1 =>
    cases he
    cases hm
  | _ + 2 => cases he

theorem descend_smallMount {p : List Name} {i : Ino} (h : smallMount.host.fs.descend 1 p = some i) :
    p = [] ∧ i = 1 := by
  cases p with
  | nil => exact ⟨rfl, (Option.some.inj h).symm⟩
  | cons c cs => cases h

theorem tree_smallMount : smallMount.host.fs.Tree smallSetup.ex.root where
  dir := rfl
  live h := by
    obtain ⟨-, -, rfl⟩ := holds_smallMount h
    exact fun e => by cases e
  parent _ h h' := by
    obtain ⟨rfl, rfl, -⟩ := holds_smallMount h
    obtain ⟨rfl, rfl, -⟩ := holds_smallMount h'
    exact ⟨rfl, rfl⟩
  top h := by
    obtain ⟨-, -, e⟩ := holds_smallMount h
    cases e
  loop h := (descend_smallMount h).1
  plain h := by
    rw [(descend_smallMount h).2]
    exact fun e => by cases e
  names h h' := by
    rw [(descend_smallMount h).2] at h'
    cases (holds_smallMount h').1

end QuicFs.System
