import QuicFs.Client.Phases

/-!
# The pins that are kept and enforced

The pins on record are those of the file or, between the two calls of a save, those the save
is about to write. As long as every save replaces what was loaded, they only grow, and every
fingerprint a manager expects is among them (`Kept`). One process by itself keeps to that, if
its writes do not fail. Two do not: each writes back what it has loaded, without what the
other has saved in between (`both_pinned_one_lost`).
-/

namespace QuicFs.Client.Trust

open Lib Function

section
variable {X : Digests} {s s' : State} {l : Nat × Nat → Phase} {t : Nat × Nat}

/-! ## What is on record -/

def Within (k k' : KnownHosts) : Prop := ∀ host fp, k.get host = some fp → k'.get host = some fp

theorem within_empty (k : KnownHosts) : Within .empty k := fun _ _ h => by cases h

def Phase.Saving : Phase → Prop
  | saving .. => True
  | _ => False

instance (φ : Phase) : Decidable φ.Saving :=
  match φ with
  | .saving .. => isTrue trivial
  | .idle | .ready _ | .made .. | .seen .. | .known .. | .looked .. | .dialing ..
  | .shaken .. | .captured .. | .saved .. | .proven .. | .failing .. | .held _ | .redial ..
  | .link .. => isFalse id

/-- The pins on record: those of the file, or those that a save is about to write. -/
inductive Current (s : State) (l : Nat × Nat → Phase) : KnownHosts → Prop where
  | settled : (∀ t, ¬(l t).Saving) → s.writing = [] → Current s l (.ofFile s.file)
  | writing {t : Nat × Nat} {m : Nat} {cfg : MountConfig} {k : KnownHosts} {conn : Connection}
    {fp : Text} :
      l t = .saving m cfg k conn fp → (∀ u, u ≠ t → ¬(l u).Saving) → s.file = some [] →
      s.writing = [t.1] → Current s l (k.insert cfg.hostKey fp)

structure KeptIn (pins : KnownHosts) (s : State) (l : Nat × Nat → Phase) (cur : KnownHosts) :
    Prop where
  current : Current s l cur
  pins : Within pins cur
  loads : ∀ m, Within (.ofFile (s.mgrs m).loaded) cur
  expected : ∀ m fp, (s.mgrs m).expectedFp = some fp → cur.get (s.mgrs m).cfg.hostKey = some fp
  saved : ∀ t m cfg conn fp, l t = .saved m cfg conn fp → cur.get cfg.hostKey = some fp

/-- The pins are still on record, unless the write of a save has failed. -/
def Kept (pins : KnownHosts) (s : State) (l : Nat × Nat → Phase) : Prop :=
  (∃ m, (s.mgrs m).torn = true) ∨ ∃ cur, KeptIn pins s l cur

theorem Current.quiet {cur : KnownHosts} (h : Current s l cur) (hfile : s'.file = s.file)
    (hwriting : s'.writing = s.writing) {φ : Phase} (ht : ¬(l t).Saving) (hφ : ¬φ.Saving) :
    Current s' (update l t φ) cur := by
  have hother : ∀ u, ¬(l u).Saving → ¬(update l t φ u).Saving := fun u hu => by
    by_cases e : u = t
    · subst e
      rwa [update_self]
    · rwa [update_of_ne e]
  cases h with
  | settled hall hw =>
    rw [← hfile]
    exact .settled (fun u => hother u (hall u)) (hwriting.trans hw)
  | @writing u m cfg k conn fp hu hrest hf hw =>
    have hne : u ≠ t := by
      rintro rfl
      rw [hu] at ht
      exact ht trivial
    exact .writing (by rw [update_of_ne hne, hu]) (fun v hv => hother v (hrest v hv))
      (hfile.trans hf) (hwriting.trans hw)

/-- A step that writes no file, loads nothing and sets no fingerprint. -/
theorem KeptIn.quiet {pins cur : KnownHosts} (h : KeptIn pins s l cur) (hfile : s'.file = s.file)
    (hwriting : s'.writing = s.writing) {φ : Phase} (ht : ¬(l t).Saving) (hφ : ¬φ.Saving)
    (hsaved : ∀ m cfg conn fp, φ = .saved m cfg conn fp → cur.get cfg.hostKey = some fp)
    (hloads : ∀ m, Within (.ofFile (s'.mgrs m).loaded) cur)
    (hexpected : ∀ m fp, (s'.mgrs m).expectedFp = some fp →
      cur.get (s'.mgrs m).cfg.hostKey = some fp) :
    KeptIn pins s' (update l t φ) cur := by
  refine ⟨h.current.quiet hfile hwriting ht hφ, h.pins, hloads, hexpected,
    fun u m cfg conn fp hu => ?_⟩
  by_cases e : u = t
  · subst e
    rw [update_self] at hu
    exact hsaved m cfg conn fp hu
  · rw [update_of_ne e] at hu
    exact h.saved u m cfg conn fp hu

theorem KeptIn.within_file {pins cur : KnownHosts} (h : KeptIn pins s l cur) :
    Within (.ofFile s.file) cur := by
  cases h.current with
  | settled => exact fun _ _ h => h
  | writing _ _ hf => exact hf ▸ within_empty _

/-- The part of a manager that a record depends on. -/
def Inner.record (i : Inner) : MountConfig × Option Text × Option Text :=
  (i.cfg, i.loaded, i.expectedFp)

def Phase.Calm : Phase → Prop
  | saving .. | saved .. => False
  | _ => True

theorem Phase.Calm.not_saving {φ : Phase} (h : φ.Calm) : ¬φ.Saving := by
  cases φ <;> first | exact id | exact fun _ => h

theorem Phase.Calm.ne_saved {φ : Phase} (h : φ.Calm) (m : Nat) (cfg : MountConfig)
    (conn : Connection) (fp : Text) : φ ≠ .saved m cfg conn fp := by
  rintro rfl
  exact h

theorem KeptIn.frame {pins cur : KnownHosts} (h : KeptIn pins s l cur) (hfile : s'.file = s.file)
    (hwriting : s'.writing = s.writing) (hmgrs : ∀ m, (s'.mgrs m).record = (s.mgrs m).record)
    {φ : Phase} (ht : ¬(l t).Saving) (hφ : φ.Calm) : KeptIn pins s' (update l t φ) cur := by
  refine h.quiet hfile hwriting ht hφ.not_saving
    (fun m cfg conn fp e => absurd e (hφ.ne_saved m cfg conn fp))
    (fun m => ?_) fun m fp hfp => ?_
  · rw [show (s'.mgrs m).loaded = (s.mgrs m).loaded from congrArg (·.2.1) (hmgrs m)]
    exact h.loads m
  · rw [show (s'.mgrs m).expectedFp = (s.mgrs m).expectedFp from congrArg (·.2.2) (hmgrs m)] at hfp
    rw [show (s'.mgrs m).cfg = (s.mgrs m).cfg from congrArg (·.1) (hmgrs m)]
    exact h.expected m fp hfp

theorem KeptIn.set {pins cur : KnownHosts} (h : KeptIn pins s l cur) {m : Nat}
    {f : Inner → Inner} {φ : Phase} (ht : ¬(l t).Saving) (hφ : φ.Calm)
    (hload : Within (.ofFile (f (s.mgrs m)).loaded) cur)
    (hexp : ∀ fp, (f (s.mgrs m)).expectedFp = some fp →
    cur.get (f (s.mgrs m)).cfg.hostKey = some fp) :
    KeptIn pins (s.modify m f) (update l t φ) cur := by
  refine h.quiet (by rfl) (by rfl) ht hφ.not_saving
    (fun m cfg conn fp e => absurd e (hφ.ne_saved m cfg conn fp))
    (fun m' => ?_) fun m' fp hfp => ?_
  · by_cases e : m' = m
    · subst e
      simpa only [State.modify, update_self] using hload
    · simp only [State.modify, update_of_ne e]
      exact h.loads m'
  · by_cases e : m' = m
    · subst e
      simp only [State.modify, update_self] at hfp ⊢
      exact hexp fp hfp
    · simp only [State.modify, update_of_ne e] at hfp ⊢
      exact h.expected m' fp hfp

theorem KeptIn.create {pins cur : KnownHosts} (h : KeptIn pins s l cur) (ht : ¬(l t).Saving)
    {cfg : MountConfig} {owner : Nat} : KeptIn pins
      { s with count := s.count + 1, mgrs := update s.mgrs s.count { cfg, owner } }
      (update l t (.made s.count cfg)) cur := by
  refine h.quiet (by rfl) (by rfl) ht (by exact id) (by rintro _ _ _ _ ⟨⟩) (fun m => ?_)
    fun m fp hfp => ?_
  · by_cases e : m = s.count
    · subst e
      simp only [update_self]
      exact within_empty cur
    · simp only [update_of_ne e]
      exact h.loads m
  · by_cases e : m = s.count
    · subst e
      simp only [update_self] at hfp
      cases hfp
    · simp only [update_of_ne e] at hfp ⊢
      exact h.expected m fp hfp

/-- A save truncates the file: what it is about to write is on record from now on. -/
theorem KeptIn.truncate {pins cur : KnownHosts} (h : KeptIn pins s l cur) {m : Nat}
    {cfg : MountConfig} {k : KnownHosts} {conn : Connection} {fp : Text} {yes : Bool}
    (ht : l t = .captured m cfg k conn fp yes) (hk : k = .ofFile (s.mgrs m).loaded)
    (hnew : k.get cfg.hostKey = none) (hfile : s.file = (s.mgrs m).loaded)
    (hwriting : s.writing = []) :
    KeptIn pins { s with file := some [], writing := t.1 :: s.writing }
      (update l t (.saving m cfg k conn fp)) (k.insert cfg.hostKey fp) := by
  have hall : (∀ u, ¬(l u).Saving) ∧ cur = k := by
    cases h.current with
    | settled hall => exact ⟨hall, by rw [hk, hfile]⟩
    | writing _ _ _ hw => cases hwriting.symm.trans hw
  obtain ⟨hall, rfl⟩ := hall
  have hgrow : Within cur (cur.insert cfg.hostKey fp) :=
    fun _ _ h => KnownHosts.get_insert_of_get hnew h
  refine ⟨.writing (update_self ..) (fun u hu => ?_) rfl (by rw [hwriting]),
    fun host fp' hp => hgrow _ _ (h.pins host fp' hp),
    fun m' host fp' hp => hgrow _ _ (h.loads m' host fp' hp),
    fun m' fp' hp => hgrow _ _ (h.expected m' fp' hp), fun u m' cfg' conn' fp' hu => ?_⟩
  · rw [update_of_ne hu]
    exact hall u
  · by_cases e : u = t
    · subst e
      rw [update_self] at hu
      cases hu
    · rw [update_of_ne e] at hu
      exact hgrow _ _ (h.saved u m' cfg' conn' fp' hu)

/-- **What a save has written is what was on record.** -/
theorem KeptIn.write {pins cur : KnownHosts} (h : KeptIn pins s l cur) {m : Nat} {cfg : MountConfig}
    {k : KnownHosts} {conn : Connection} {fp : Text} (ht : l t = .saving m cfg k conn fp)
    (hk : k.Writable) (hhost : PlainHost cfg.hostKey) (hfp : Plain fp) :
    KeptIn pins { s with
        file := some (overlay (k.insert cfg.hostKey fp).render (s.file.getD [])),
        writing := s.writing.erase t.1 }
      (update l t (.saved m cfg conn fp)) cur := by
  have hcur : (∀ u, u ≠ t → ¬(l u).Saving) ∧ s.file = some [] ∧ s.writing = [t.1] ∧
      cur = k.insert cfg.hostKey fp := by
    cases h.current with
    | settled hall =>
      have := hall t
      rw [ht] at this
      exact absurd trivial this
    | @writing u _ _ _ _ _ hu hrest hf hw =>
      obtain rfl : t = u := by
        by_contra e
        have := hrest t e
        rw [ht] at this
        exact this trivial
      rw [ht] at hu
      cases hu
      exact ⟨hrest, hf, hw, rfl⟩
  obtain ⟨hrest, hf, hw, rfl⟩ := hcur
  have hcalm : ∀ u, ¬(update l t (.saved m cfg conn fp) u).Saving := fun u => by
    by_cases e : u = t
    · subst e
      rw [update_self]
      exact id
    · rw [update_of_ne e]
      exact hrest u e
  refine ⟨?_, h.pins, h.loads, h.expected, fun u m' cfg' conn' fp' hu => ?_⟩
  · have hread :
        KnownHosts.ofFile (some (overlay (k.insert cfg.hostKey fp).render (s.file.getD []))) =
        k.insert cfg.hostKey fp := by
      rw [hf]
      simp only [overlay, Option.getD_some, List.drop_nil, List.append_nil]
      exact KnownHosts.parse_render (hk.insert hhost hfp)
    have hsettled := Current.settled (s := { s with
      file := some (overlay (k.insert cfg.hostKey fp).render (s.file.getD [])),
      writing := s.writing.erase t.1 }) hcalm (by rw [hw]; exact List.erase_cons_head ..)
    rwa [hread] at hsettled
  · by_cases e : u = t
    · subst e
      rw [update_self] at hu
      cases hu
      rw [KnownHosts.get_insert, if_pos rfl]
    · rw [update_of_ne e] at hu
      exact h.saved u m' cfg' conn' fp' hu

/-! ## What a step does to the record -/

/-- The manager whose text the task has loaded and not yet written over. -/
def Phase.loaded? : Phase → Option Nat
  | known m _ _ | looked m _ _ | dialing m _ _ _ | shaken m _ _ _ | captured m _ _ _ _ _ => some m
  | _ => none

/-- What the record depends on, and whether the save has failed. -/
def Inner.marks (i : Inner) : (MountConfig × Option Text × Option Text) × Bool := (i.record, i.torn)

theorem marks_modify {m : Nat} {f : Inner → Inner} (hf : (f (s.mgrs m)).marks = (s.mgrs m).marks)
    (m' : Nat) : ((s.modify m f).mgrs m').marks = (s.mgrs m').marks := by
  by_cases e : m' = m
  · subst e
    simpa only [State.modify, update_self] using hf
  · simp only [State.modify, update_of_ne e]

/-- The steps that matter to the record, and the others. -/
inductive Move (c : Happening) (s : State) (t : Nat × Nat) (φ : Phase) : State → Phase → Prop where
  | create {cfg : MountConfig} : φ = .ready cfg →
      Move c s t φ { s with
        count := s.count + 1, mgrs := update s.mgrs s.count { cfg, owner := t.1 } }
          (.made s.count cfg)
  | absent {m : Nat} {cfg : MountConfig} : φ = .made m cfg → s.file = none ∨ c.fault = true →
      Move c s t φ s (.known m cfg .empty)
  | load {m : Nat} {cfg : MountConfig} {text : Text} : φ = .seen m cfg → s.file = some text →
      Move c s t φ (s.modify m fun i => { i with loaded := s.file }) (.known m cfg (.parse text))
  | gone {m : Nat} {cfg : MountConfig} : φ = .seen m cfg → s.file = none →
      Move c s t φ (s.modify m fun i => { i with loaded := s.file }) (.failing m cfg)
  | look {m : Nat} {cfg : MountConfig} {k : KnownHosts} : φ = .known m cfg k →
      Move c s t φ (s.modify m fun i => { i with expectedFp := k.get cfg.hostKey })
        (.looked m cfg k)
  | truncate {m : Nat} {cfg : MountConfig} {k : KnownHosts} {conn : Connection} {fp : Text}
    {yes : Bool} :
      φ = .captured m cfg k conn fp yes →
      Move c s t φ { s with file := some [], writing := t.1 :: s.writing } (.saving m cfg k conn fp)
  | write {m : Nat} {cfg : MountConfig} {k : KnownHosts} {conn : Connection} {fp : Text} :
      φ = .saving m cfg k conn fp →
      Move c s t φ { s with
        file := some (overlay (k.insert cfg.hostKey fp).render (s.file.getD [])),
        writing := s.writing.erase t.1 } (.saved m cfg conn fp)
  | tear {m : Nat} {cfg : MountConfig} {k : KnownHosts} {conn : Connection} {fp : Text}
    {text : Text} :
      φ = .saving m cfg k conn fp → c.fault = true →
      Move c s t φ { s.modify m fun i => { i with torn := true } with
        file := some text, writing := s.writing.erase t.1 } (.failing m cfg)
  | pin {m : Nat} {cfg : MountConfig} {conn : Connection} {fp : Text} : φ = .saved m cfg conn fp →
      Move c s t φ (s.modify m fun i => { i with expectedFp := some fp }) (.proven m cfg conn)
  | quiet {s' : State} {φ' : Phase} : s'.file = s.file → s'.writing = s.writing →
      (∀ m, (s'.mgrs m).marks = (s.mgrs m).marks) → φ.Calm → φ'.Calm →
      φ'.loaded? = none ∨ φ'.loaded? = φ.loaded? → Move c s t φ s' φ'

/-- The calls that the record does not depend on, whatever they come to. -/
def Act.Quiet : Act → Prop
  | .create _ | .exists | .readToString _ | .setExpected .. | .truncate _ | .writeAll .. => False
  | _ => True

theorem exec_quiet {p : Nat} {a : Act} {c : Happening} {r : a.Ret} (hq : a.Quiet)
    (he : exec X p a c s = some (r, s')) : s'.file = s.file ∧ s'.writing = s.writing ∧
      ∀ m, (s'.mgrs m).marks = (s.mgrs m).marks := by
  cases a with
  | create | «exists» | readToString | setExpected | truncate | writeAll => exact hq.elim
  | getExpected | isTerminal | close | ensureDir | handshake | holds | rpc =>
    obtain ⟨-, rfl⟩ := Prod.mk.inj (Option.some.inj he)
    exact ⟨rfl, rfl, fun _ => rfl⟩
  | takeSink | promptYesNo | install | returned =>
    obtain ⟨-, rfl⟩ := Prod.mk.inj (Option.some.inj he)
    exact ⟨rfl, rfl, marks_modify rfl⟩
  | liveConn =>
    obtain ⟨rfl, -⟩ := exec_liveConn he
    exact ⟨rfl, rfl, fun _ => rfl⟩
  | tls =>
    obtain ⟨-, rfl⟩ | ⟨-, rfl⟩ := exec_tls he
    · exact ⟨rfl, rfl, fun _ => rfl⟩
    · exact ⟨rfl, rfl, marks_modify rfl⟩

theorem Phase.after_quiet {a : Act} {φ : Phase} (ha : φ.Allows a) (hq : a.Quiet) (r : a.Ret) :
    φ.Calm ∧ (φ.after a r).Calm ∧
      ((φ.after a r).loaded? = none ∨ (φ.after a r).loaded? = φ.loaded?) := by
  cases φ with
  | ready | made | seen | known | saving | saved =>
    obtain rfl := ha
    exact hq.elim
  | looked =>
    obtain rfl := ha
    exact ⟨trivial, trivial, .inr rfl⟩
  | failing =>
    obtain rfl := ha
    exact ⟨trivial, trivial, .inl rfl⟩
  | idle =>
    obtain ⟨m, rfl⟩ := ha
    dsimp only [Phase.after]
    split <;> exact ⟨trivial, trivial, .inl rfl⟩
  | dialing =>
    obtain rfl := ha
    dsimp only [Phase.after]
    split
    · split
      · exact ⟨trivial, trivial, .inr rfl⟩
      · exact ⟨trivial, trivial, .inl rfl⟩
    · exact ⟨trivial, trivial, .inl rfl⟩
  | shaken =>
    obtain rfl := ha
    dsimp only [Phase.after]
    split
    · exact ⟨trivial, trivial, .inr rfl⟩
    · exact ⟨trivial, trivial, .inl rfl⟩
  | captured =>
    rcases ha with rfl | rfl | rfl | rfl | rfl | ⟨rfl, -⟩
    · exact ⟨trivial, trivial, .inr rfl⟩
    · exact ⟨trivial, trivial, .inr rfl⟩
    · exact ⟨trivial, trivial, .inr rfl⟩
    · exact ⟨trivial, trivial, .inr rfl⟩
    · exact ⟨trivial, trivial, .inl rfl⟩
    · exact hq.elim
  | proven => rcases ha with rfl | rfl | ⟨ok, rfl⟩ <;> exact ⟨trivial, trivial, .inl rfl⟩
  | held =>
    rcases ha with rfl | rfl
    · dsimp only [Phase.after]
      split <;> exact ⟨trivial, trivial, .inl rfl⟩
    · exact ⟨trivial, trivial, .inl rfl⟩
  | redial =>
    obtain rfl := ha
    dsimp only [Phase.after]
    split <;> exact ⟨trivial, trivial, .inl rfl⟩
  | link => rcases ha with rfl | rfl | rfl | rfl <;> exact ⟨trivial, trivial, .inl rfl⟩

theorem Move.of_quiet {a : Act} {c : Happening} {r : a.Ret} {φ : Phase} (ha : φ.Allows a)
    (hq : a.Quiet) (he : exec X t.1 a c s = some (r, s')) : Move c s t φ s' (φ.after a r) := by
  obtain ⟨hfile, hwriting, hmarks⟩ := exec_quiet hq he
  obtain ⟨hcalm, hafter, hloaded⟩ := Phase.after_quiet ha hq r
  exact .quiet hfile hwriting hmarks hcalm hafter hloaded

theorem Move.of_exec {a : Act} {c : Happening} {r : a.Ret} {φ : Phase} (ha : φ.Allows a)
    (he : exec X t.1 a c s = some (r, s')) : Move c s t φ s' (φ.after a r) := by
  cases φ with
  | idle =>
    obtain ⟨m, rfl⟩ := ha
    exact .of_quiet ⟨m, rfl⟩ trivial he
  | looked | dialing | shaken | failing | redial =>
    obtain rfl := ha
    exact .of_quiet rfl trivial he
  | proven => exact .of_quiet ha (by rcases ha with rfl | rfl | ⟨ok, rfl⟩ <;> trivial) he
  | held => exact .of_quiet ha (by rcases ha with rfl | rfl <;> trivial) he
  | link => exact .of_quiet ha (by rcases ha with rfl | rfl | rfl | rfl <;> trivial) he
  | ready cfg =>
    obtain rfl := ha
    obtain ⟨rfl, rfl⟩ := Prod.mk.inj (Option.some.inj he)
    exact .create rfl
  | made m cfg =>
    obtain rfl := ha
    obtain ⟨rfl, rfl⟩ := Prod.mk.inj (Option.some.inj he)
    dsimp only [Phase.after]
    split
    · exact .quiet rfl rfl (fun _ => rfl) trivial trivial (.inl rfl)
    · next hno =>
      refine .absent rfl ?_
      cases hf : s.file with
      | none => exact .inl rfl
      | some text =>
        right
        simpa [hf] using hno
  | seen m cfg =>
    obtain rfl := ha
    dsimp only [exec] at he
    split at he
    · obtain ⟨rfl, rfl⟩ := Prod.mk.inj (Option.some.inj he)
      exact .quiet rfl rfl (fun _ => rfl) trivial trivial (.inl rfl)
    · obtain ⟨rfl, rfl⟩ := Prod.mk.inj (Option.some.inj he)
      dsimp only [Phase.after]
      split
      · next text hf => exact .load rfl hf
      · next hf => exact .gone rfl hf
  | known m cfg k =>
    obtain rfl := ha
    obtain ⟨rfl, rfl⟩ := Prod.mk.inj (Option.some.inj he)
    exact .look rfl
  | captured m cfg k conn fp yes =>
    rcases ha with rfl | rfl | rfl | rfl | rfl | ⟨rfl, -⟩
    · exact .of_quiet (.inl rfl) trivial he
    · exact .of_quiet (.inr (.inl rfl)) trivial he
    · exact .of_quiet (.inr (.inr (.inl rfl))) trivial he
    · exact .of_quiet (.inr (.inr (.inr (.inl rfl)))) trivial he
    · exact .of_quiet (.inr (.inr (.inr (.inr (.inl rfl))))) trivial he
    · dsimp only [exec] at he
      split at he
      · obtain ⟨rfl, rfl⟩ := Prod.mk.inj (Option.some.inj he)
        exact .quiet rfl rfl (fun _ => rfl) trivial trivial (.inr rfl)
      · obtain ⟨rfl, rfl⟩ := Prod.mk.inj (Option.some.inj he)
        exact .truncate rfl
  | saving m cfg k conn fp =>
    obtain rfl := ha
    dsimp only [exec] at he
    split at he
    · next hf =>
      obtain ⟨rfl, rfl⟩ := Prod.mk.inj (Option.some.inj he)
      exact .tear rfl hf
    · obtain ⟨rfl, rfl⟩ := Prod.mk.inj (Option.some.inj he)
      exact .write rfl
  | saved m cfg conn fp =>
    obtain rfl := ha
    obtain ⟨rfl, rfl⟩ := Prod.mk.inj (Option.some.inj he)
    exact .pin rfl

theorem Move.torn {c : Happening} {φ φ' : Phase} (h : Move c s t φ s' φ') {m : Nat}
    (hm : (s.mgrs m).torn = true) (hlt : m < s.count) : (s'.mgrs m).torn = true := by
  have hmod : ∀ {m' : Nat} {f : Inner → Inner}, (∀ i, i.torn = true → (f i).torn = true) →
      ((s.modify m' f).mgrs m).torn = true := fun {m' f} hf => by
    by_cases e : m = m'
    · subst e
      simpa only [State.modify, update_self] using hf _ hm
    · simpa only [State.modify, update_of_ne e] using hm
  cases h with
  | create => simpa only [update_of_ne hlt.ne] using hm
  | absent => exact hm
  | load => exact hmod fun _ h => h
  | gone => exact hmod fun _ h => h
  | look => exact hmod fun _ h => h
  | truncate => exact hm
  | write => exact hm
  | tear => exact hmod (f := fun i => { i with torn := true }) fun _ _ => rfl
  | pin => exact hmod fun _ h => h
  | quiet _ _ hmarks => rwa [show (s'.mgrs m).torn = (s.mgrs m).torn from congrArg (·.2) (hmarks m)]

/-- **Every step keeps the record**, if a save truncates only what was loaded. -/
theorem KeptIn.move {pins cur : KnownHosts} (h : KeptIn pins s l cur) (hs : Sound X s l)
    {c : Happening} {φ φ' : Phase} (hφ : l t = φ) (hm : Move c s t φ s' φ')
    (htrunc : ∀ m cfg k conn fp yes, φ = .captured m cfg k conn fp yes → φ'.Saving →
      s.file = (s.mgrs m).loaded ∧ s.writing = []) : Kept pins s' (update l t φ') := by
  have hok := hs.phases t
  rw [hφ] at hok
  have hnot : φ.Calm → ¬(l t).Saving := fun h => hφ ▸ h.not_saving
  cases hm with
  | create e =>
    subst e
    exact .inr ⟨cur, h.create (hnot trivial)⟩
  | absent e =>
    subst e
    exact .inr ⟨cur, h.frame rfl rfl (fun _ => rfl) (hnot trivial) trivial⟩
  | load e =>
    subst e
    exact .inr ⟨cur, h.set (hnot trivial) trivial h.within_file (h.expected _)⟩
  | gone e =>
    subst e
    exact .inr ⟨cur, h.set (hnot trivial) trivial h.within_file (h.expected _)⟩
  | @look m cfg k e =>
    subst e
    obtain ⟨hfresh, hk⟩ := hok.tells_mgr rfl
    refine .inr ⟨cur, h.set (hnot trivial) trivial (h.loads m) fun fp hfp => ?_⟩
    show cur.get (s.mgrs m).cfg.hostKey = some fp
    rw [hfresh.cfg]
    exact h.loads m _ _ (hk ▸ hfp)
  | @truncate m cfg k conn fp yes e =>
    subst e
    obtain ⟨-, hk, hnew, -⟩ := hok.tells_mgr rfl
    obtain ⟨hfile, hwriting⟩ := htrunc m cfg k conn fp yes rfl trivial
    exact .inr ⟨_, h.truncate hφ hk hnew hfile hwriting⟩
  | write e =>
    subst e
    obtain ⟨hfresh, hk, -, hshows, -⟩ := hok.tells_mgr rfl
    exact .inr ⟨cur, h.write hφ (hk ▸ KnownHosts.writable_ofFile _) hfresh.host
      (plain_certFingerprint hshows)⟩
  | @tear m => exact .inl ⟨m, by simp only [State.modify, update_self]⟩
  | @pin m cfg conn fp e =>
    subst e
    obtain ⟨hfresh, -⟩ := hok.tells_mgr rfl
    refine .inr ⟨cur, h.set (by rw [hφ]; exact id) trivial (h.loads m) fun fp' hfp => ?_⟩
    show cur.get (s.mgrs m).cfg.hostKey = some fp'
    rw [hfresh.cfg, h.saved t m cfg conn fp hφ]
    exact hfp
  | quiet hfile hwriting hmarks hcalm hcalm' =>
    exact .inr ⟨cur, h.frame hfile hwriting (fun m => congrArg (·.1) (hmarks m))
      (hnot hcalm) hcalm'⟩

/-! ## Runs -/

theorem Phase.AtRest.calm {φ : Phase} (h : φ.AtRest) : φ.Calm ∧ φ.loaded? = none := by
  cases φ <;> first | exact ⟨trivial, rfl⟩ | cases h

theorem Sound.start (h : Sound X s l) (job : Job)
    (hjob : ∀ cfg, job = .connect cfg → PlainHost cfg.hostKey) : ∃ φ : Phase,
    φ.Calm ∧ φ.loaded? = none ∧ Sound X s (update l t φ) ∧
      ((clients X).prog t job).Follows protocol φ fun φ _ => φ.AtRest := by
  cases job with
  | connect cfg =>
    by_cases ht : t.2 = 0
    · refine ⟨.ready cfg, trivial, rfl,
        h.same rfl rfl ⟨fun _ e => (by cases e), fun _ _ => ⟨ht, hjob cfg rfl⟩⟩, ?_⟩
      simp only [clients, if_pos ht]
      exact follows_connect cfg
    · refine ⟨.idle, trivial, rfl, h.same rfl rfl Phase.ok_idle, ?_⟩
      simp only [clients, if_neg ht]
      trivial
  | operation m attempts =>
    exact ⟨.idle, trivial, rfl, h.same rfl rfl Phase.ok_idle, follows_operation m attempts⟩

theorem Kept.start {pins : KnownHosts} (h : Kept pins s l) (ht : (l t).AtRest) {φ : Phase}
    (hφ : φ.Calm) : Kept pins s (update l t φ) :=
  h.imp_right fun ⟨cur, h⟩ => ⟨cur, h.frame rfl rfl (fun _ => rfl) ht.calm.1.not_saving hφ⟩

theorem Kept.run {pins : KnownHosts} (h : Kept pins s l) (hs : Sound X s l) {a : Act}
    {c : Happening} {r : a.Ret} (ha : (l t).Allows a)
    (htrunc : ∀ m, a = .truncate m → s.file = (s.mgrs m).loaded ∧ s.writing = [])
    (he : exec X t.1 a c s = some (r, s')) : Kept pins s' (update l t ((l t).after a r)) := by
  have hm := Move.of_exec ha he
  rcases h with ⟨m, h⟩ | ⟨cur, h⟩
  · exact .inl ⟨m, hm.torn h (hs.bound m (.inl h))⟩
  · refine h.move hs rfl hm fun m cfg k conn fp yes hφ hsaving => htrunc m ?_
    -- only a truncation takes a task from here to a save
    rw [hφ] at ha hsaving
    rcases ha with rfl | rfl | rfl | rfl | rfl | ⟨rfl, -⟩
    · cases hsaving
    · cases hsaving
    · cases hsaving
    · cases hsaving
    · cases hsaving
    · rfl

theorem sound_start (X : Digests) (file : Option Text) : Sound X (.start file) fun _ => .idle :=
  ⟨fun _ => Phase.ok_idle, fun _ => ⟨fun _ e => (by cases e), fun e => (by cases e)⟩,
    fun _ h => h.elim (fun e => by cases e) fun e => absurd rfl e⟩

theorem kept_start (file : Option Text) : Kept (.ofFile file) (.start file) fun _ => .idle :=
  .inr ⟨_, .settled (fun _ => id) rfl, fun _ _ h => h, fun _ => within_empty _,
    fun _ _ e => (by cases e),
    fun _ _ _ _ _ e => (by cases e)⟩

end

/-! ## Several processes -/

/-- No save truncates a file that is not as it was loaded, or that another save has truncated. The
hosts are words that a line can hold. -/
def SavesWhatItLoaded : Cond Act State (Nat × Nat) Happening Job Empty where
  run s _ a _ :=
    match a with
    | .truncate m => s.file = (s.mgrs m).loaded ∧ s.writing = []
    | _ => True
  start _ _ job :=
    match job with
    | .connect cfg => PlainHost cfg.hostKey
    | .operation .. => True
  env _ _ := True

/-- **No pin is lost** between processes that save what they have loaded: when every `connect` has
returned successfully, the file has the pins it had and the pin of each. -/
theorem pins_not_lost (X : Digests) (file : Option Text) {c : Config Act Act.Ret State (Nat × Nat)}
    (h : Reach (clients X).step SavesWhatItLoaded.Meets (Config.idle (.start file)) c)
    (hall : ∀ m, m < c.state.count → (c.state.mgrs m).outcome = some true) :
    (∀ host fp, (KnownHosts.ofFile file).get host = some fp →
      (KnownHosts.ofFile c.state.file).get host = some fp) ∧
    ∀ m, m < c.state.count → ∃ fp, (c.state.mgrs m).expectedFp = some fp ∧
      (KnownHosts.ofFile c.state.file).get (c.state.mgrs m).cfg.hostKey = some fp := by
  obtain ⟨l, ⟨hs, hk⟩, -⟩ := @Machine.sound _ _ _ _ _ _ _ _ _ (clients X) SavesWhatItLoaded
    (fun _ => protocol)
    (fun s l => Sound X s l ∧ Kept (.ofFile file) s l) (fun _ φ => φ.AtRest) _ (fun _ => .idle) c
    ⟨sound_start X file, kept_start file⟩ (fun _ => trivial) (fun _ _ _ _ _ _ _ _ _ => trivial)
    (fun t a ch r s s' l hi ha hc he =>
      ⟨hi.1.run ha he, hi.2.run hi.1 ha (fun m e => by subst e; exact hc) he⟩)
    (fun t q s l hi hfin hc => by
      obtain ⟨φ, hcalm, -, hs, hfol⟩ := hi.1.start (t := t) q fun cfg e => by subst e; exact hc
      exact ⟨φ, ⟨hs, hi.2.start hfin hcalm⟩, hfol⟩)
    (fun e => e.elim) h
  rcases hk with ⟨m, hm⟩ | ⟨cur, hk⟩
  · -- the process of a save that failed does not return successfully
    have hlt := hs.bound m (.inl hm)
    cases hm.symm.trans ((hs.mgrs m).outcome (hall m hlt)).2
  · have hcur : cur = .ofFile c.state.file := by
      cases hk.current with
      | settled => rfl
      | @writing t m _ _ _ _ ht =>
        have hok := hs.phases t
        rw [ht] at hok
        cases (hok.tells_mgr rfl).1.outcome.symm.trans (hall m (hok.lt m rfl))
    subst hcur
    refine ⟨hk.pins, fun m hm => ?_⟩
    obtain ⟨⟨fp, hfp, -⟩, -⟩ := (hs.mgrs m).outcome (hall m hm)
    exact ⟨fp, hfp, hk.expected m fp hfp⟩

instance : SavesWhatItLoaded.Checkable where
  run s _ a _ :=
    match a with
    | .truncate m => inferInstanceAs (Decidable (s.file = (s.mgrs m).loaded ∧ s.writing = []))
    | .create _ | .exists | .readToString _ | .setExpected .. | .getExpected _
    | .tls .. | .takeSink _ | .isTerminal | .promptYesNo _ | .close _ | .ensureDir | .writeAll ..
    | .handshake .. | .install .. | .returned .. | .holds _ | .liveConn _
    | .rpc .. => isTrue trivial
  start _ _ job :=
    match job with
    | .connect cfg => inferInstanceAs (Decidable (PlainHost cfg.hostKey))
    | .operation .. => isTrue trivial
  env _ _ := isTrue trivial

def hostA : MountConfig := ⟨['a', ':', '1'], .acceptNew⟩

def hostB : MountConfig := ⟨['b', ':', '1'], .acceptNew⟩

/-- `n` calls of the main task of a process, every server presenting `cert`. -/
def calls (p n : Nat) (cert : Bytes) : List (Label (Nat × Nat) Happening Job Empty) :=
  List.replicate n (.run (p, 0) { cert })

/-- Two processes, one after the other. -/
theorem pins_not_lost_in_turn : ∃ c, Reach (clients plainDigests).step SavesWhatItLoaded.Meets
      (Config.idle (.start none)) c ∧ c.state.count = 2 ∧
    ∀ m, m < 2 → ∃ fp, (c.state.mgrs m).expectedFp = some fp ∧
      (KnownHosts.ofFile c.state.file).get (c.state.mgrs m).cfg.hostKey = some fp := by
  have hrun : (execBy (clients plainDigests).step SavesWhatItLoaded.Meets
      (Config.idle (.start none))
      (.start (0, 0) (.connect hostA) :: calls 0 13 [1] ++ .start (1, 0) (.connect hostB) ::
        calls 1 14 [2])).map
      (fun c => (c.state.count, (c.state.mgrs 0).outcome, (c.state.mgrs 1).outcome)) =
      some (2, some true, some true) := by decide +kernel
  obtain ⟨c, hc, hout⟩ := Option.map_eq_some_iff.mp hrun
  simp only [Prod.mk.injEq] at hout
  obtain ⟨hcount, h0, h1⟩ := hout
  have hreach := Reach.of_execBy .refl hc
  have hall : ∀ m, m < c.state.count → (c.state.mgrs m).outcome = some true := by
    intro m hm
    obtain rfl | rfl : m = 0 ∨ m = 1 := by omega
    · exact h0
    · exact h1
  exact ⟨c, hreach, hcount, fun m hm => (pins_not_lost plainDigests none hreach hall).2 m
    (hcount ▸ hm)⟩

/-- The second process saves while the first is asking; the first saves what it had loaded. Both
return successfully, and the pin of the second is gone. -/
theorem both_pinned_one_lost :
    ∃ c, Reach (clients plainDigests).step anyLabel (Config.idle (.start none)) c ∧
    c.state.count = 2 ∧ (c.state.mgrs 0).outcome = some true ∧
      (c.state.mgrs 1).outcome = some true ∧
    (c.state.mgrs 1).cfg.hostKey = hostB.hostKey ∧
    (KnownHosts.ofFile c.state.file).get hostB.hostKey = none := by
  have hrun : (execBy (clients plainDigests).step anyLabel (Config.idle (.start none))
      (.start (0, 0) (.connect hostA) :: calls 0 7 [1] ++ .start (1, 0) (.connect hostB) ::
        calls 1 13 [2] ++
        calls 0 6 [1])).map
      (fun c => (c.state.count, [(c.state.mgrs 0).outcome, (c.state.mgrs 1).outcome],
        (c.state.mgrs 1).cfg.hostKey, (KnownHosts.ofFile c.state.file).get hostB.hostKey)) =
      some (2, [some true, some true], hostB.hostKey, none) := by decide +kernel
  obtain ⟨c, hc, hout⟩ := Option.map_eq_some_iff.mp hrun
  simp only [Prod.mk.injEq, List.cons.injEq, and_true, and_assoc] at hout
  exact ⟨c, Reach.of_execBy .refl hc, hout⟩

/-! ## One process -/

/-- Only the process `0` runs, its writes do not fail, and it sees the file if it is there. The
hosts are words that a line can hold. -/
def OneProcess : Cond Act State (Nat × Nat) Happening Job Empty where
  run s t a c :=
    t.1 = 0 ∧
      match a with
      | .exists => s.file = none ∨ c.fault = false
      | .writeAll .. => c.fault = false
      | _ => True
  start _ t job :=
    t.1 = 0 ∧
      match job with
      | .connect cfg => PlainHost cfg.hostKey
      | .operation .. => True
  env _ _ := True

/-- What has been loaded is in the file until it is written. -/
structure Alone (s : State) (l : Nat × Nat → Phase) : Prop where
  idle : ∀ t : Nat × Nat, t.1 ≠ 0 → l t = .idle
  torn : ∀ m, (s.mgrs m).torn = false
  writing : s.writing = if (l (0, 0)).Saving then [0] else []
  loaded : ∀ t m, (l t).loaded? = some m → s.file = (s.mgrs m).loaded

section
variable {X : Digests} {s s' : State} {l : Nat × Nat → Phase} {t : Nat × Nat}

theorem Alone.eq_main (h : Alone s l) {m : Nat} {cfg : MountConfig} (hm : (l t).mgr? = some m)
    (hown : (s.mgrs m).Own t cfg) : t = (0, 0) := by
  refine Prod.ext ?_ hown.main
  by_contra hne
  rw [h.idle t hne] at hm
  cases hm

theorem Phase.loaded?_mgr? {φ : Phase} {m : Nat} (hm : φ.loaded? = some m) : φ.mgr? = some m := by
  cases φ <;> first | exact hm | cases hm

theorem Phase.Tells.own_of_loaded {φ : Phase} {i : Inner} {m : Nat} (h : φ.Tells X t i)
    (hm : φ.loaded? = some m) : ∃ cfg, i.Own t cfg := by
  cases φ <;> first | exact ⟨_, h.1.toOwn⟩ | cases hm

theorem Alone.main (h : Alone s l) (hs : Sound X s l) (ht : t = (0, 0)) {φ : Phase}
    (htorn : ∀ m, (s'.mgrs m).torn = false) (hwriting : s'.writing = if φ.Saving then [0] else [])
    (hloaded : ∀ m, φ.loaded? = some m → s'.file = (s'.mgrs m).loaded) :
    Alone s' (update l t φ) := by
  subst ht
  refine ⟨fun u hu => ?_, htorn, by rwa [update_self], fun u m hm => ?_⟩
  · have hne : u ≠ (0, 0) := fun e => hu (congrArg Prod.fst e)
    rw [update_of_ne hne]
    exact h.idle u hu
  · by_cases e : u = (0, 0)
    · subst e
      rw [update_self] at hm
      exact hloaded m hm
    · -- no other task has loaded anything
      rw [update_of_ne e] at hm
      have hmgr := Phase.loaded?_mgr? hm
      obtain ⟨cfg, hown⟩ := ((hs.phases u).tells_mgr hmgr).own_of_loaded hm
      exact absurd (h.eq_main hmgr hown) e

theorem torn_modify (h : ∀ m, (s.mgrs m).torn = false) {m : Nat} {f : Inner → Inner}
    (hf : (f (s.mgrs m)).torn = (s.mgrs m).torn) (m' : Nat) :
    ((s.modify m f).mgrs m').torn = false := by
  by_cases e : m' = m
  · subst e
    simpa only [State.modify, update_self, hf] using h m'
  · simpa only [State.modify, update_of_ne e] using h m'

theorem Alone.quiet (h : Alone s l) (ht : t.1 = 0) {φ : Phase} (hfile : s'.file = s.file)
    (hw : s'.writing = s.writing) (hmarks : ∀ m, (s'.mgrs m).marks = (s.mgrs m).marks)
    (hcalm : (l t).Calm) (hφ : φ.Calm) (hloaded : φ.loaded? = none ∨ φ.loaded? = (l t).loaded?) :
    Alone s' (update l t φ) := by
  have hother : ∀ m, (s'.mgrs m).loaded = (s.mgrs m).loaded :=
    fun m => congrArg (·.1.2.1) (hmarks m)
  refine ⟨fun u hu => ?_, fun m => ?_, ?_, fun u m hm => ?_⟩
  · have hne : u ≠ t := fun e => hu (e ▸ ht)
    rw [update_of_ne hne]
    exact h.idle u hu
  · rw [show (s'.mgrs m).torn = (s.mgrs m).torn from congrArg (·.2) (hmarks m)]
    exact h.torn m
  · rw [hw, h.writing]
    by_cases e : (0, 0) = t
    · rw [e, update_self, if_neg hcalm.not_saving, if_neg hφ.not_saving]
    · rw [update_of_ne e]
  · rw [hfile, hother m]
    by_cases e : u = t
    · subst e
      rw [update_self] at hm
      rcases hloaded with hno | hsame
      · cases hno.symm.trans hm
      · exact h.loaded u m (hsame.symm.trans hm)
    · rw [update_of_ne e] at hm
      exact h.loaded u m hm

/-- **A process by itself saves what it has loaded.** -/
theorem Alone.move (h : Alone s l) (hs : Sound X s l) (ht : t.1 = 0) {c : Happening} {φ φ' : Phase}
    (hφ : l t = φ) (hm : Move c s t φ s' φ')
    (hseen : ∀ m cfg, φ = .made m cfg → (∃ k, φ' = .known m cfg k) → s.file = none ∨
      c.fault = false)
    (hwrite : φ.Saving → c.fault = false) : Alone s' (update l t φ') := by
  have hok := hs.phases t
  rw [hφ] at hok
  have hmain : ∀ {m cfg}, φ.mgr? = some m → (s.mgrs m).Own t cfg → t = (0, 0) :=
    fun hm hown => h.eq_main (hφ ▸ hm) hown
  have hwriting : t = (0, 0) → s.writing = if φ.Saving then [0] else [] := by
    rintro rfl
    rw [h.writing, hφ]
  cases hm with
  | create e =>
    subst e
    have ht0 : t = (0, 0) := Prod.ext ht (hok.tells (s.mgrs 0) trivial).1
    refine h.main hs ht0 (fun m => ?_) (hwriting ht0) fun m e => by cases e
    by_cases e : m = s.count
    · subst e
      simp only [update_self]
    · simpa only [update_of_ne e] using h.torn m
  | @absent m cfg e hno =>
    subst e
    obtain ⟨hfresh, hnone⟩ := hok.tells_mgr rfl
    have ht0 := hmain rfl hfresh.toOwn
    refine h.main hs ht0 h.torn (hwriting ht0) fun m' e => ?_
    obtain rfl := Option.some.inj e
    rw [hnone]
    rcases hseen _ _ rfl ⟨_, rfl⟩ with hf | hf
    · exact hf
    · exact hno.resolve_right (by rw [hf]; exact Bool.false_ne_true)
  | @load m cfg text e hf =>
    subst e
    obtain ⟨hfresh, -⟩ := hok.tells_mgr rfl
    have ht0 := hmain rfl hfresh.toOwn
    refine h.main hs ht0 (torn_modify h.torn rfl) (hwriting ht0) fun m' e => ?_
    obtain rfl := Option.some.inj e
    simp only [State.modify, update_self]
  | @gone m cfg e hf =>
    subst e
    obtain ⟨hfresh, -⟩ := hok.tells_mgr rfl
    have ht0 := hmain rfl hfresh.toOwn
    exact h.main hs ht0 (torn_modify h.torn rfl) (hwriting ht0) fun m' e => by cases e
  | @look m cfg k e =>
    subst e
    obtain ⟨hfresh, -⟩ := hok.tells_mgr rfl
    have ht0 := hmain rfl hfresh.toOwn
    refine h.main hs ht0 (torn_modify h.torn rfl) (hwriting ht0) fun m' e => ?_
    obtain rfl := Option.some.inj e
    simp only [State.modify, update_self]
    exact h.loaded t m (by rw [hφ]; rfl)
  | @truncate m cfg k conn fp yes e =>
    subst e
    obtain ⟨hfresh, -⟩ := hok.tells_mgr rfl
    have ht0 := hmain rfl hfresh.toOwn
    refine h.main hs ht0 h.torn ?_ fun m' e => by cases e
    show t.1 :: s.writing = [0]
    rw [hwriting ht0, ht]
    rfl
  | @write m cfg k conn fp e =>
    subst e
    obtain ⟨hfresh, -⟩ := hok.tells_mgr rfl
    have ht0 := hmain rfl hfresh.toOwn
    refine h.main hs ht0 h.torn ?_ fun m' e => by cases e
    show s.writing.erase t.1 = []
    rw [hwriting ht0, ht]
    rfl
  | @tear m cfg k conn fp text e hf =>
    subst e
    cases (hwrite trivial).symm.trans hf
  | @pin m cfg conn fp e =>
    subst e
    obtain ⟨hfresh, -⟩ := hok.tells_mgr rfl
    have ht0 := hmain rfl hfresh.toOwn
    exact h.main hs ht0 (torn_modify h.torn rfl) (hwriting ht0) fun m' e => by cases e
  | quiet hfile hw hmarks hcalm hcalm' hloaded =>
    exact h.quiet ht hfile hw hmarks (hφ ▸ hcalm) hcalm' (hφ ▸ hloaded)

abbrev Situation := Config Act Act.Ret State (Nat × Nat)

/-- The pin is in the file, or in the text that a save is about to write. -/
def OnRecord (c : Situation) (host fp : Text) : Prop :=
  (∀ t m text k, c.threads t = .act (.writeAll m text) k →
    (KnownHosts.parse text).get host = some fp) ∧
  ((∀ t m text k, c.threads t ≠ .act (.writeAll m text) k) →
    (KnownHosts.ofFile c.state.file).get host = some fp)

/-- A task is about to send the application handshake or an RPC. -/
def Uses (c : Situation) (m : Nat) (conn : Connection) : Prop :=
  ∃ t, (∃ k, c.threads t = .act (.handshake m conn) k) ∨ ∃ k, c.threads t = .act (.rpc m conn) k

theorem Phase.Allows.saving {φ : Phase} {m : Nat} {text : Text} (h : φ.Allows (.writeAll m text)) :
    ∃ cfg k conn fp, φ = .saving m cfg k conn fp ∧ text = (k.insert cfg.hostKey fp).render := by
  cases φ <;> simp [Phase.Allows] at h
  obtain ⟨rfl, rfl⟩ := h
  exact ⟨_, _, _, _, rfl, rfl⟩

theorem Phase.Allows.captured {φ : Phase} {m : Nat} (h : φ.Allows (.truncate m)) :
    ∃ cfg k conn fp yes, φ = .captured m cfg k conn fp yes := by
  cases φ <;> simp [Phase.Allows] at h
  obtain ⟨rfl, -⟩ := h
  exact ⟨_, _, _, _, _, rfl⟩

theorem Phase.Allows.linked {φ : Phase} {m : Nat} {conn : Connection}
    (h : φ.Allows (.handshake m conn) ∨ φ.Allows (.rpc m conn)) :
    φ.mgr? = some m ∧ ∀ {t i}, φ.Tells X t i → i.Linked X conn := by
  cases φ <;> simp [Phase.Allows] at h
  · obtain ⟨rfl, rfl⟩ := h
    exact ⟨rfl, fun ht => ht.2.2⟩
  · obtain ⟨rfl, rfl⟩ := h
    exact ⟨rfl, fun ht => ht.2⟩

def InPhases (c : Situation) (l : Nat × Nat → Phase) : Prop :=
  ∀ t, (c.threads t).Follows protocol (l t) fun φ _ => φ.AtRest

theorem onRecord_iff {c : Situation} {cur : KnownHosts} (hcur : Current c.state l cur)
    (hs : Sound X c.state l) (hfol : InPhases c l) (host fp : Text) :
    OnRecord c host fp ↔ cur.get host = some fp := by
  have hwrites : ∀ {t m text k}, c.threads t = .act (.writeAll m text) k →
      ∃ cfg k conn fp, l t = .saving m cfg k conn fp ∧ text = (k.insert cfg.hostKey fp).render := by
    intro t m text k ht
    have hf := hfol t
    rw [ht] at hf
    exact Phase.Allows.saving hf.1
  cases hcur with
  | settled hall =>
    have hno : ∀ t m text k, c.threads t ≠ .act (.writeAll m text) k := by
      intro t m text k ht
      obtain ⟨cfg, k, conn, fp, hl, -⟩ := hwrites ht
      exact hall t (by rw [hl]; trivial)
    exact ⟨fun h => h.2 hno, fun h => ⟨fun t m text k ht => absurd ht (hno t m text k), fun _ => h⟩⟩
  | @writing t m cfg k conn fp' hl hrest =>
    have hok := hs.phases t
    rw [hl] at hok
    obtain ⟨hfresh, hk, -, hshows, -⟩ := hok.tells_mgr rfl
    have hparse : KnownHosts.parse (k.insert cfg.hostKey fp').render = k.insert cfg.hostKey fp' :=
      KnownHosts.parse_render (((hk ▸ KnownHosts.writable_ofFile _ : k.Writable)).insert hfresh.host
        (plain_certFingerprint hshows))
    have hf := hfol t
    rw [hl] at hf
    cases ht : c.threads t with
    | ret x =>
      rw [ht] at hf
      exact absurd hf id
    | act a next =>
      rw [ht] at hf
      obtain rfl : a = .writeAll m (k.insert cfg.hostKey fp').render := hf.1
      constructor
      · intro h
        have := h.1 t _ _ _ ht
        rwa [hparse] at this
      · refine fun h => ⟨fun u m' text k' hu => ?_, fun hno => absurd ht (hno t _ _ _)⟩
        obtain ⟨_, _, _, _, hlu, rfl⟩ := hwrites hu
        obtain rfl : u = t := by
          by_contra e
          exact hrest u e (by rw [hlu]; trivial)
        rw [hl] at hlu
        cases hlu
        rwa [hparse]

def InStep (X : Digests) (pins : KnownHosts) (s : State) (l : Nat × Nat → Phase) : Prop :=
  Sound X s l ∧ Kept pins s l ∧ Alone s l

theorem InStep.run {pins : KnownHosts} (h : InStep X pins s l) {a : Act} {c : Happening} {r : a.Ret}
    (ha : (l t).Allows a) (hc : OneProcess.run s t a c) (he : exec X t.1 a c s = some (r, s')) :
    InStep X pins s' (update l t ((l t).after a r)) := by
  obtain ⟨hs, hk, hal⟩ := h
  obtain ⟨ht, hc⟩ := hc
  refine ⟨hs.run ha he, hk.run hs ha (fun m e => ?_) he,
    hal.move hs ht rfl (Move.of_exec ha he) ?_ ?_⟩
  · subst e
    obtain ⟨cfg, k, conn, fp, yes, hφ⟩ := ha.captured
    have hok := hs.phases t
    rw [hφ] at hok
    have ht0 := hal.eq_main (by rw [hφ]; rfl) (hok.tells_mgr rfl).1.toOwn
    refine ⟨hal.loaded t m (by rw [hφ]; rfl), ?_⟩
    rw [hal.writing, ← ht0, hφ]
    rfl
  · rintro m cfg hφ -
    rw [hφ] at ha
    obtain rfl := ha
    exact hc
  · intro hsaving
    cases hφ : l t with
    | saving =>
      rw [hφ] at ha
      obtain rfl := ha
      exact hc
    | _ =>
      rw [hφ] at hsaving
      cases hsaving

theorem inStep_run (pins : KnownHosts) {c c' : Situation}
    (h0 : ∃ l, InStep X pins c.state l ∧ InPhases c l)
    (h : Reach (clients X).step OneProcess.Meets c c') : ∃ l, InStep X pins c'.state l ∧
    InPhases c' l :=
  Machine.sound_from (P := fun _ => protocol) (I := InStep X pins) h0
    (fun _ _ _ _ _ _ _ _ _ => trivial) (fun t a ch r s s' l hi ha hc he => hi.run ha hc he)
    (fun t q s l hi hfin hc => by
      obtain ⟨hs, hk, hal⟩ := hi
      obtain ⟨φ, hcalm, hno, hs', hfol⟩ := hs.start (t := t) q fun cfg e => by subst e; exact hc.2
      exact ⟨φ, ⟨hs', hk.start hfin hcalm,
        hal.quiet hc.1 rfl rfl (fun _ => rfl) hfin.calm.1 hcalm (.inl hno)⟩, hfol⟩)
    (fun e => e.elim) h

end

/-- **The key of a pinned host is enforced**, in every run of one process. A connection on which the
application handshake or an RPC is sent has shown the fingerprint on record for the host; it was
pinned when `connect` loaded the file, or it was accepted since, which a strict policy never does.
And what is on record stays on record. -/
theorem pins_enforced (X : Digests) (file : Option Text) {c : Situation}
    (h : Reach (clients X).step OneProcess.Meets (Config.idle (.start file)) c) :
    (∀ m conn, Uses c m conn → ∃ fp, X.certFingerprint conn.cert = some fp ∧
      OnRecord c (c.state.mgrs m).cfg.hostKey fp ∧
      ((c.state.mgrs m).found = some fp ∨ (c.state.mgrs m).found = none ∧
        (c.state.mgrs m).Accepted)) ∧
    (∀ m conn, Uses c m conn → (c.state.mgrs m).cfg.tofu = .strict →
      (c.state.mgrs m).found ≠ none) ∧
    ∀ c' host fp, Reach (clients X).step OneProcess.Meets c c' → OnRecord c host fp →
      OnRecord c' host fp := by
  have h0 : ∃ l, InStep X (.ofFile file) (Config.idle (.start file) : Situation).state l ∧
      InPhases (Config.idle (.start file)) l :=
    ⟨fun _ => .idle, ⟨sound_start X file, kept_start file, fun _ _ => rfl, fun _ => rfl, rfl,
      fun _ _ e => by cases e⟩, fun _ => trivial⟩
  obtain ⟨l, ⟨hs, hk, hal⟩, hfol⟩ := inStep_run _ h0 h
  have hnot : ∀ {s : State}, (∀ m, (s.mgrs m).torn = false) → ¬∃ m, (s.mgrs m).torn = true := by
    rintro s hall ⟨m, hm⟩
    cases (hall m).symm.trans hm
  obtain ⟨cur, hcur⟩ := hk.resolve_left (hnot hal.torn)
  have huse : ∀ m conn, Uses c m conn → ∃ fp, X.certFingerprint conn.cert = some fp ∧
      OnRecord c (c.state.mgrs m).cfg.hostKey fp ∧
      ((c.state.mgrs m).found = some fp ∨ (c.state.mgrs m).found = none ∧
        (c.state.mgrs m).Accepted) := by
    rintro m conn ⟨t, ht⟩
    have hallow : (l t).Allows (.handshake m conn) ∨ (l t).Allows (.rpc m conn) := by
      have hf := hfol t
      rcases ht with ⟨k, ht⟩ | ⟨k, ht⟩
      · rw [ht] at hf
        exact .inl hf.1
      · rw [ht] at hf
        exact .inr hf.1
    obtain ⟨hm, hlinked⟩ := Phase.Allows.linked (X := X) hallow
    obtain ⟨fp, ⟨hexp, hhow⟩, hshows⟩ := hlinked ((hs.phases t).tells_mgr hm)
    exact ⟨fp, hshows, (onRecord_iff hcur.current hs hfol _ _).mpr (hcur.expected m fp hexp), hhow⟩
  refine ⟨huse, fun m conn hu hstrict hnone => ?_, fun c' host fp hreach hrec => ?_⟩
  · obtain ⟨fp, -, -, hfound | ⟨-, hnew | ⟨hprompt, -⟩⟩⟩ := huse m conn hu
    · cases hnone.symm.trans hfound
    · cases hstrict.symm.trans hnew
    · cases hstrict.symm.trans hprompt
  · obtain ⟨l', ⟨hs', hk', hal'⟩, hfol'⟩ := inStep_run cur
      ⟨l, ⟨hs, .inr ⟨cur, hcur.current, fun _ _ h => h, hcur.loads, hcur.expected, hcur.saved⟩,
        hal⟩, hfol⟩ hreach
    obtain ⟨cur', hcur'⟩ := hk'.resolve_left (hnot hal'.torn)
    rw [onRecord_iff hcur.current hs hfol] at hrec
    rw [onRecord_iff hcur'.current hs' hfol']
    exact hcur'.pins host fp hrec

instance : OneProcess.Checkable where
  run s t a c :=
    match a with
    | .exists => inferInstanceAs (Decidable (t.1 = 0 ∧ (s.file = none ∨ c.fault = false)))
    | .writeAll .. => inferInstanceAs (Decidable (t.1 = 0 ∧ c.fault = false))
    | .create _ | .readToString _ | .setExpected .. | .getExpected _ | .tls .. | .takeSink _
    | .isTerminal | .promptYesNo _ | .close _ | .ensureDir | .truncate _
    | .handshake .. | .install .. | .returned .. | .holds _ | .liveConn _ | .rpc .. =>
      inferInstanceAs (Decidable (t.1 = 0 ∧ True))
  start _ t job :=
    match job with
    | .connect cfg => inferInstanceAs (Decidable (t.1 = 0 ∧ PlainHost cfg.hostKey))
    | .operation .. => inferInstanceAs (Decidable (t.1 = 0 ∧ True))
  env _ _ := isTrue trivial

/-- Whether a task is about to send the application handshake. -/
def atHandshake (c : Situation) (t : Nat × Nat) : Option (Nat × Connection) :=
  match c.threads t with
  | .act (.handshake m conn) _ => some (m, conn)
  | _ => none

theorem uses_of_atHandshake {c : Situation} {t : Nat × Nat} {m : Nat} {conn : Connection}
    (h : atHandshake c t = some (m, conn)) : Uses c m conn := by
  unfold atHandshake at h
  split at h
  · next k ht =>
    obtain ⟨rfl, rfl⟩ := Prod.mk.inj (Option.some.inj h)
    exact ⟨t, .inl ⟨k, ht⟩⟩
  · cases h

/-- The file with the pin of `hostB`. -/
def fileB : Option Text := some ['b', ':', '1', ' ', 'x', '\n']

/-- A first contact, before its application handshake. -/
theorem pins_enforced_new_host : ∃ c, Reach (clients plainDigests).step OneProcess.Meets
      (Config.idle (.start fileB)) c ∧ Uses c 0 ⟨[1]⟩ ∧
    ∃ fp, plainDigests.certFingerprint [1] = some fp ∧
      OnRecord c (c.state.mgrs 0).cfg.hostKey fp := by
  have hrun : (execBy (clients plainDigests).step OneProcess.Meets (Config.idle (.start fileB))
      (.start (0, 0) (.connect hostA) :: calls 0 11 [1])).map (fun c => atHandshake c (0, 0)) =
      some (some (0, ⟨[1]⟩)) := by decide +kernel
  obtain ⟨c, hc, hat⟩ := Option.map_eq_some_iff.mp hrun
  have hreach := Reach.of_execBy .refl hc
  have huse := uses_of_atHandshake hat
  obtain ⟨fp, hfp, hrec, -⟩ := (pins_enforced plainDigests fileB hreach).1 0 ⟨[1]⟩ huse
  exact ⟨c, hreach, huse, fp, hfp, hrec⟩

/-- Only the process `0` runs. -/
def OfProcess : Cond Act State (Nat × Nat) Happening Job Empty where
  run _ t _ _ := t.1 = 0
  start _ t _ := t.1 = 0
  env _ _ := True

instance : OfProcess.Checkable where
  run _ t _ _ := inferInstanceAs (Decidable (t.1 = 0))
  start _ t _ := inferInstanceAs (Decidable (t.1 = 0))
  env _ _ := isTrue trivial

/-- The disk is full: the save of a new pin leaves an empty file, and the other pin is gone. -/
theorem failed_save_removes_pin : ∃ c, Reach (clients plainDigests).step OfProcess.Meets
      (Config.idle (.start fileB)) c ∧
    (KnownHosts.ofFile fileB).get hostB.hostKey = some ['x'] ∧
    (c.state.mgrs 0).outcome = some false ∧
    (KnownHosts.ofFile c.state.file).get hostB.hostKey = none := by
  have hrun : (execBy (clients plainDigests).step OfProcess.Meets (Config.idle (.start fileB))
      (.start (0, 0) (.connect hostA) :: calls 0 9 [1] ++
        [.run (0, 0) { fault := true }, .run (0, 0) {}])).map
      (fun c => ((c.state.mgrs 0).outcome, c.state.file)) = some (some false, some []) :=
        by decide +kernel
  obtain ⟨c, hc, hout⟩ := Option.map_eq_some_iff.mp hrun
  simp only [Prod.mk.injEq] at hout
  obtain ⟨hfailed, hfile⟩ := hout
  exact ⟨c, Reach.of_execBy .refl hc, by decide +kernel, hfailed, by rw [hfile]; rfl⟩

end QuicFs.Client.Trust
