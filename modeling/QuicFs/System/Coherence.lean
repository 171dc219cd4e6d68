import QuicFs.Client.Inodes
import QuicFs.System.NameRpcs

/-!
# The metadata cache agrees with the server

`Coherent`: what the cache holds for a path is what the server has there. Each callback puts
right what it changes: it forgets the path before the RPC, or stores the answer after it. A
rename does so for the two paths it is called with and for nothing below them, so it keeps
the cache coherent if nothing below them is cached that the rename makes wrong
(`Names.CacheClear`).
-/

namespace QuicFs.System

open Lib Client Server

variable {L : StatStore} {S : Setup} {root : Path} {s : Names L} {E E' : Path → Prop} {o : Outside}

def Names.at {L : StatStore} (S : Setup) (s : Names L) (p : Path) : Option (Ino × ObjSort) :=
  s.host.fs.view S.ex.root (components p)

/-- The cache agrees with the server but for the paths of `E`. -/
structure Coherent {L : StatStore} (S : Setup) (root : Path) (E : Path → Prop) (s : Names L) :
    Prop where
  tree : s.host.fs.Tree S.ex.root
  paths : ∀ {ino p}, s.inodes.pathOf ino = some p → Canon root p
  keys : ∀ {p x}, s.cache.known p = some x → Canon root p
  found : ∀ {p st}, ¬E p → s.cache.known p = some (some st) → s.at S p = some (st.1, st.2.kind.sort)
  absent : ∀ {p}, ¬E p → s.cache.known p = some none → s.at S p = none

/-- A move leaves the cache right off the two paths. -/
def Names.CacheClearOf {L : StatStore} (S : Setup) (s : Names L) (old new : Path) : Prop :=
  (∀ p st, s.cache.known p = some (some st) → ¬(old ++ ['/']) <+: p) ∧
    ∀ p, s.cache.known p = some none → (new ++ ['/']) <+: p →
      s.at S (old ++ p.drop new.length) = none

/-- Every call ends as it should and about paths that are not too long, a rename finds no attributes
below the path it moves and no absence that it ends, and a listing spells its paths as the other
callbacks do. -/
def Names.CacheClear {L : StatStore} (S : Setup) (s : Names L) (l : Outside × NameOp) : Prop :=
  l.1.Sound ∧ s.Fitting S l.2 ∧ s.OnRename l.2 (s.CacheClearOf S) ∧ s.OnReaddir l.2

namespace Coherent

theorem forget (h : Coherent S root E s) {c : MetaCache L} (hc : s.cache.Forgets c) :
    Coherent S root E { s with cache := c } where
  tree := h.tree
  paths := h.paths
  keys hk := h.keys (hc _ _ hk)
  found hp hk := h.found hp (hc _ _ hk)
  absent hp hk := h.absent hp (hc _ _ hk)

theorem clear {p₀ : Path} (h : Coherent S root (fun p => E p ∨ p = p₀) s)
    (hp₀ : ∀ x, s.cache.known p₀ ≠ some x) : Coherent S root E s where
  tree := h.tree
  paths := h.paths
  keys := h.keys
  found hp hk := h.found (fun hE => hE.elim hp fun e => hp₀ _ (e ▸ hk)) hk
  absent hp hk := h.absent (fun hE => hE.elim hp fun e => hp₀ _ (e ▸ hk)) hk

theorem invalidate (hL : L.Laws) (h : Coherent S root E s) (p : Path) :
    Coherent S root E (invalidateCache p s) :=
  h.forget (MetaCache.forgets_invalidate hL _ p)

theorem invalidate_except (hL : L.Laws) {p₀ : Path}
    (h : Coherent S root (fun p => E p ∨ p = p₀) s) : Coherent S root E (invalidateCache p₀ s) :=
  (h.invalidate hL p₀).clear fun _ hk => (MetaCache.known_invalidate hL hk).1 rfl

theorem mono (h : Coherent S root E s) (hE : ∀ p, E p → E' p) : Coherent S root E' s where
  tree := h.tree
  paths := h.paths
  keys := h.keys
  found hp hk := h.found (fun e => hp (hE _ e)) hk
  absent hp hk := h.absent (fun e => hp (hE _ e)) hk

/-- The tree has changed at the exceptions only. -/
theorem host (h : Coherent S root E s) {h' : Host} (ht : h'.fs.Tree S.ex.root)
    (hview : ∀ p x, Canon root p → ¬E p → s.cache.known p = some x →
      h'.fs.view S.ex.root (components p) = s.at S p) :
    Coherent S root E { s with host := h' } where
  tree := ht
  paths := h.paths
  keys := h.keys
  found hp hk := (hview _ _ (h.keys hk) hp hk).trans (h.found hp hk)
  absent hp hk := (hview _ _ (h.keys hk) hp hk).trans (h.absent hp hk)

theorem same (h : Coherent S root E s) (h' : Host) (ht : h'.fs.Tree S.ex.root)
    (hview : h'.fs.view S.ex.root = s.host.fs.view S.ex.root) :
    Coherent S root E { s with host := h' } :=
  h.host ht fun p _ _ _ _ => congrFun hview (components p)

theorem update (h : Coherent S root E s) {h' : Host} {path : Path} {x : Option (Ino × ObjSort)}
    (hpath : Canon root path) (ht : h'.fs.Tree S.ex.root)
    (hview : h'.fs.view S.ex.root = Function.update (s.host.fs.view S.ex.root)
      (components path) x) :
    Coherent S root (fun p => E p ∨ p = path) { s with host := h' } := by
  refine (h.mono fun p hp => .inl hp).host ht fun p _ hp hE _ => ?_
  rw [hview, Function.update_of_ne fun e => hE (.inr (hp.ext hpath e))]
  rfl

theorem cacheStat (hL : L.Laws) {path : Path} {st : Ino × Node}
    (h : Coherent S root (fun p => E p ∨ p = path) s) (hpath : Canon root path)
    (hst : s.at S path = some (st.1, st.2.kind.sort)) :
    Coherent S root E (cacheStat o path st s) where
  tree := h.tree
  paths := h.paths
  keys hk := by
    rcases MetaCache.known_insert hL hk with ⟨rfl, -⟩ | ⟨-, hk⟩
    · exact hpath
    · exact h.keys hk
  found hp hk := by
    rcases MetaCache.known_insert hL hk with ⟨rfl, hx⟩ | ⟨hne, hk⟩
    · cases hx
      exact hst
    · exact h.found (not_or.mpr ⟨hp, hne⟩) hk
  absent hp hk := by
    rcases MetaCache.known_insert hL hk with ⟨-, hx⟩ | ⟨hne, hk⟩
    · cases hx
    · exact h.absent (not_or.mpr ⟨hp, hne⟩) hk

theorem cacheNegative (hL : L.Laws) {path : Path} (h : Coherent S root E s)
    (hpath : Canon root path) (hnone : s.at S path = none) :
    Coherent S root E (cacheNegative o path s) where
  tree := h.tree
  paths := h.paths
  keys hk := by
    rcases MetaCache.known_insertNegative hL hk with ⟨rfl, -⟩ | ⟨-, hk⟩
    · exact hpath
    · exact h.keys hk
  found hp hk := by
    rcases MetaCache.known_insertNegative hL hk with ⟨-, hx⟩ | ⟨-, hk⟩
    · cases hx
    · exact h.found hp hk
  absent hp hk := by
    rcases MetaCache.known_insertNegative hL hk with ⟨rfl, -⟩ | ⟨-, hk⟩
    · exact hnone
    · exact h.absent hp hk

theorem table (h : Coherent S root E s) {t : InodeTable}
    (ht : ∀ {ino p}, t.pathOf ino = some p → Canon root p) :
    Coherent S root E { s with inodes := t } where
  tree := h.tree
  paths := ht
  keys := h.keys
  found := h.found
  absent := h.absent

/-! ## The callbacks -/

theorem allocated (h : Coherent S root E s) {path : Path} (hpath : Canon root path)
    (st : Ino × Node) : Coherent S root E (s.makeFileAttr path st).2 :=
  h.table fun hp => (InodeTable.pathOf_getOrAlloc hp).elim h.paths fun e => e.2 ▸ hpath

end Coherent

/-- The cache agrees with the server. -/
abbrev Coherent.All (S : Setup) (root : Path) (s : Names L) : Prop :=
  Coherent S root (fun _ => False) s

section
variable (hL : L.Laws) (hs : Standing S.kernel S.ex) (ho : o.Sound)
include hL hs ho

/-- What `get_stat` answers is so, from the cache or from the server. -/
theorem Coherent.getStat (h : Coherent.All S root s) {path : Path}
    (hshort : S.ex.Short (components path)) :
    ∃ r s', s.getStat S o path = some (r, s') ∧ (Canon root path → Coherent.All S root s') ∧
      (∀ st, r = .ok st → s.at S path = some (st.1, st.2.kind.sort)) ∧
      (r = .error .enoent → s.at S path = none) ∧
      (o.fate 0 = .answered → (∃ cs, normalise path = .ok cs) →
        s.host.fs.NoFileAbove S.ex.root (components path) → (∃ st, r = .ok st) ∨
        r = .error .enoent) := by
  obtain ⟨c, h', s₁, hc, hfs, rfl, hcase⟩ := getStat_cases hs h.tree ho hL hshort
  have h₁ := (h.forget hc).same h' (hfs ▸ h.tree) (by rw [hfs])
  have hat : ∀ p, ({ s with cache := c, host := h' } : Names L).at S p = s.at S p := fun p => by
    rw [Names.at, hfs, Names.at]
  rcases hcase with ⟨st, hk, he⟩ | ⟨hk, he⟩ | ⟨st, hv, he⟩ | ⟨hv, he⟩ | ⟨hnot, he⟩
  · refine ⟨_, _, he, fun _ => h₁, fun st' e => ?_, fun e => (by cases e),
      fun _ _ _ => .inl ⟨_, rfl⟩⟩
    cases e
    exact h.found id hk
  · exact ⟨_, _, he, fun _ => h₁, fun st e => (by cases e), fun _ => h.absent id hk,
      fun _ _ _ => .inr rfl⟩
  · refine ⟨_, _, he, fun hp => (h₁.mono fun p hp => .inl hp).cacheStat hL hp ((hat path).trans hv),
      fun st' e => ?_, fun e => (by cases e), fun _ _ _ => .inl ⟨_, rfl⟩⟩
    cases e
    exact hv
  · exact ⟨_, _, he, fun hp => h₁.cacheNegative hL hp ((hat path).trans hv),
      fun st e => (by cases e),
      fun _ => hv, fun _ _ _ => .inr rfl⟩
  · exact ⟨_, _, he, fun _ => h₁, fun st e => (by cases e), fun e => (by cases e),
      fun hf hn ha => absurd ⟨hf, hn, ha⟩ hnot⟩

theorem Coherent.attrOf (h : Coherent.All S root s) {path : Path} (hpath : Canon root path)
    (hshort : S.ex.Short (components path)) {x : NameReply × Names L}
    (hx : s.attrOf S o path = some x) : Coherent.All S root x.2 := by
  obtain ⟨r, s', he, hs', -⟩ := h.getStat hL hs ho hshort
  rw [Names.attrOf, he, Option.map_some] at hx
  cases hx
  cases r with
  | ok st => exact (hs' hpath).allocated hpath st
  | error e => exact hs' hpath

theorem Coherent.mkdir (h : Coherent.All S root s) {parent : FuseIno} {name : FuseName}
    {mode : UInt32} (hfit : s.Fitting S (.mkdir parent name mode)) {x : NameReply × Names L}
    (hx : s.mkdir S o parent name mode = some x) : Coherent.All S root x.2 := by
  rcases mkdir_cases hs h.tree ho hfit hx with e | ⟨par, h', hpar, ht', hcase⟩
  · rwa [e]
  have hpath := (h.paths hpar).child name.2
  rcases hcase with ⟨e, hview⟩ | ⟨st, e, -, hk, hview⟩
  · rw [e]
    exact (h.invalidate hL par).same h' ht' hview
  · rw [e]
    refine Coherent.allocated
      (.cacheStat hL ((h.invalidate hL par).update hpath ht' hview) hpath ?_) hpath st
    rw [Names.at, hview, Function.update_self, hk]

theorem Coherent.remove (h : Coherent.All S root s) {q : UInt64 → Path → Request} (hq : ∀ seq path,
    ∃ op isDir, handle S.ex S.dur 0 o.session (q seq path) =
      handleRemove S.ex S.dur.syncMetadata op isDir seq path) {parent : FuseIno} {name : FuseName}
    (hfit : s.Fitting S (.unlink parent name)) {x : NameReply × Names L}
    (hx : s.remove S o q parent name = some x) : Coherent.All S root x.2 := by
  rcases remove_cases hs h.tree ho hq hfit hx with e | ⟨par, h', s₁, hpar, ht', rfl, hcase⟩
  · rwa [e]
  have hpath := (h.paths hpar).child name.2
  have h₁ := h.invalidate hL (childPath par name.1)
  rcases hcase with ⟨e, hview⟩ | ⟨e, hview, -⟩
  · rw [e]
    exact h₁.same h' ht' hview
  · rw [e]
    refine Coherent.table (.clear (h₁.update hpath ht' hview) fun _ hk => ?_) fun hp =>
      h.paths (InodeTable.pathOf_removePath hp)
    exact (MetaCache.known_invalidate hL hk).1 rfl

theorem Coherent.link (h : Coherent.All S root s) {ino newParent : FuseIno} {newName : FuseName}
    (hfit : s.Fitting S (.link ino newParent newName)) {x : NameReply × Names L}
    (hx : s.link S o ino newParent newName = some x) : Coherent.All S root x.2 := by
  rcases link_cases hs h.tree ho hfit hx with e | ⟨src, pn, new, h', hsrc, hpn, rfl, ht', hcase⟩
  · rwa [e]
  have hnew := (h.paths hpn).child newName.2
  rcases hcase with ⟨e, hview⟩ | ⟨st, e, hnone, hk, hst, hview⟩
  · rw [e]
    exact h.same h' ht' hview
  · have h₁ := (h.update hnew ht' hview).invalidate hL src
    have hne : components src ≠ components (childPath pn newName.1) := fun e => by
      rw [e, hnone] at hst
      cases hst
    have hat : (invalidateCache src { s with host := h' }).at S src =
      some (st.1, st.2.kind.sort) := by
      rw [Names.at, hk, ← hst]
      exact (congrFun hview _).trans (Function.update_of_ne hne ..)
    have h₂ : Coherent S root _
        (System.cacheStat o src st (invalidateCache src { s with host := h' })) :=
      (h₁.mono fun p hp => .inl hp).cacheStat hL (h.paths hsrc) hat
    rw [e]
    refine Coherent.allocated
      (.cacheStat hL ((h₂.invalidate_except hL).mono fun p hp => .inl hp) hnew ?_) hnew st
    rw [Names.at, hk]
    exact (congrFun hview _).trans (Function.update_self ..)

theorem Coherent.create (h : Coherent.All S root s) {parent : FuseIno} {name : FuseName}
    {mode flags : UInt32} (hfit : s.Fitting S (.create parent name mode flags))
    {x : NameReply × Names L} (hx : s.create S o parent name mode flags = some x) :
    Coherent.All S root x.2 := by
  rcases create_cases hs h.tree ho hfit hx with
    e | ⟨par, path, h', s₁, hpar, rfl, ht', rfl, hview, hcase⟩
  · rwa [e]
  have hpath := (h.paths hpar).child name.2
  have h₁ := (h.invalidate hL par).invalidate hL (childPath par name.1)
  have h₂ : Coherent.All S root { invalidateCache (childPath par name.1)
      (invalidateCache par s) with host := h' } := by
    rcases hview with hview | ⟨-, i, hview⟩
    · exact h₁.same h' ht' hview
    · exact .clear (h₁.update hpath ht' hview) fun _ hk => (MetaCache.known_invalidate hL hk).1 rfl
  rcases hcase with e | ⟨st, e, hk, hi⟩
  · rwa [e]
  · rw [e]
    refine Coherent.allocated (.cacheStat hL (h₂.mono fun p hp => .inl hp) hpath ?_) hpath st
    rw [Names.at, hk, ← hi]

omit hL hs ho in
/-- **A move makes nothing wrong that is cached off the two paths**, if no attributes are cached
below the old one, and nothing below the old one will be where a name is cached as absent. -/
theorem Coherent.moved (h : Coherent.All S root s) {old new : Path} (hold : Canon root old)
    (hnew : Canon root new) (hold' : Named old) (hnew' : Named new)
    (hclear : s.CacheClearOf S old new) {h' : Host} (ht' : h'.fs.Tree S.ex.root)
    (hview : h'.fs.view S.ex.root =
      Fs.moved (s.host.fs.view S.ex.root) (components old) (components new))
    (hbelow : ∀ c q, s.host.fs.view S.ex.root (components new ++ c :: q) = none) :
    Coherent S root (fun p => (False ∨ p = new) ∨ p = old) { s with host := h' } := by
  refine (h.mono fun p hp => hp.elim).host ht' fun p x hp hE hk => ?_
  obtain ⟨hpn, hpo⟩ : p ≠ new ∧ p ≠ old := ⟨fun e => hE (.inl (.inr e)), fun e => hE (.inr e)⟩
  rw [hview, Names.at, Fs.moved]
  split
  · next hpre =>
    obtain ⟨rest, hrest⟩ := hpre
    cases rest with
    | nil => exact absurd (hp.ext hnew (by rw [← hrest, List.append_nil])) hpn
    | cons c r =>
      obtain ⟨hpre, hdrop⟩ := hnew.below hp hnew' hrest.symm
      rw [← hrest, List.drop_left, hbelow c r]
      cases x with
      | some st =>
        have := h.found id hk
        rw [Names.at, ← hrest, hbelow c r] at this
        cases this
      | none => rw [← hdrop old hold']; exact hclear.2 p hk hpre
  · split
    · next hpre =>
      obtain ⟨rest, hrest⟩ := hpre
      cases rest with
      | nil => exact absurd (hp.ext hold (by rw [← hrest, List.append_nil])) hpo
      | cons c r =>
        cases x with
        | some st => exact absurd (hold.below hp hold' hrest.symm).1 (hclear.1 p st hk)
        | none => exact (h.absent id hk).symm
    · rfl

theorem Coherent.rename (h : Coherent.All S root s) {parent newParent : FuseIno}
    {name newName : FuseName} (hfit : s.Fitting S (.rename parent name newParent newName))
    (hclear : s.OnRename (.rename parent name newParent newName) (s.CacheClearOf S))
    {x : NameReply × Names L} (hx : s.rename S o parent name newParent newName = some x) :
    Coherent.All S root x.2 := by
  rcases rename_cases hs h.tree ho hfit hx with
    e | ⟨po, pn, old, new, h', hpo, hpn, hold, hnew, ht', hcase⟩
  · rwa [e]
  replace hclear := hclear _ _ _ _ rfl po pn hpo hpn
  rw [← hold, ← hnew] at hclear
  have hold' : Canon root old ∧ Named old :=
    hold ▸ ⟨(h.paths hpo).child name.2, named_childPath po name.2⟩
  have hnew' : Canon root new ∧ Named new :=
    hnew ▸ ⟨(h.paths hpn).child newName.2, named_childPath pn newName.2⟩
  rcases hcase with ⟨e, hview⟩ | ⟨s₁, rfl, e, y, -, hcase⟩
  · rw [e]
    exact h.same h' ht' hview
  have h₁ : Coherent S root (fun p => (False ∨ p = new) ∨ p = old) { s with host := h' } := by
    rcases hcase with ⟨hview, -⟩ | ⟨hview, hbelow⟩
    · exact (h.mono fun p hp => hp.elim).same h' ht' hview
    · rcases hclear with rfl | hclear
      · exact (h.mono fun p hp => hp.elim).same h' ht' (hview.trans (Fs.moved_self ..))
      · exact h.moved hold'.1 hnew'.1 hold'.2 hnew'.2 hclear ht' hview hbelow
  have h₂ : Coherent.All S root (invalidateCache new (invalidateCache old { s with host := h' })) :=
    (h₁.invalidate_except hL).invalidate_except hL
  have h₃ : Coherent.All S root ((parentPath new).elim
      (invalidateCache new (invalidateCache old { s with host := h' })) fun p =>
        invalidateCache p (invalidateCache new (invalidateCache old { s with host := h' }))) := by
    cases parentPath new with
    | none => exact h₂
    | some p => exact h₂.invalidate hL p
  rw [e]
  exact h₃.table fun hp => (InodeTable.pathOf_renameIno hp).elim h₃.paths fun e => e.2 ▸ hnew'.1

theorem Coherent.readdir {root : List Char} (h : Coherent.All S (normalizeRoot root) s)
    {ino : FuseIno} {offset : Nat} (hfit : s.Fitting S (.readdir ino offset))
    (hspell : s.OnReaddir (.readdir ino offset)) {x : NameReply × Names L}
    (hx : s.readdir S o ino offset = some x) : Coherent.All S (normalizeRoot root) x.2 := by
  rcases withPath_cases hx with e | ⟨path, hpath, hx⟩
  · rwa [e]
  obtain ⟨⟨r, s₁⟩, hpages, he⟩ := Option.map_eq_some_iff.mp hx
  cases he
  obtain ⟨⟨h', rfl, hfs⟩, hent⟩ :=
    readdirPages_spec hs ho (hfit path (by simp [NameOp.paths, hpath])) h.tree hpages
  have h₁ := h.same h' (hfs ▸ h.tree) (by rw [hfs])
  cases r with
  | error e => exact h₁
  | ok entries =>
    refine h₁.table (addEntries_keeps
      (I := fun t => ∀ {ino p}, t.pathOf ino = some p → Canon (normalizeRoot root) p) ?_ h.paths)
    intro e he t ht ino p hp
    have hmem := (List.mem_zipIdx (List.mem_of_mem_drop he)).2.2
    rcases InodeTable.pathOf_getOrAlloc hp with hp | ⟨-, rfl⟩
    · exact ht hp
    · rw [(h.paths hpath).entryPath_eq (hspell _ offset rfl path hpath)]
      exact (h.paths hpath).child (hent entries rfl e.1 (hmem ▸ List.getElem_mem _)).1

end

theorem Coherent.step {root : List Char} (hL : L.Laws) (hs : Standing S.kernel S.ex)
    (h : Coherent.All S (normalizeRoot root) s) {l : Outside × NameOp} (hc : s.CacheClear S l)
    {s' : Names L} (hstep : s.step S l = some s') : Coherent.All S (normalizeRoot root) s' := by
  obtain ⟨o, op⟩ := l
  obtain ⟨ho, hfit, hclear, hspell⟩ := hc
  obtain ⟨x, hx, rfl⟩ := Option.map_eq_some_iff.mp hstep
  suffices h' :
      Coherent.All S (normalizeRoot root) x.2 from ⟨h'.tree, h'.paths, h'.keys, h'.found, h'.absent⟩
  cases op with
  | lookup parent name =>
    rcases withPath_cases hx with e | ⟨path, hpath, hx⟩
    · rwa [e]
    · exact h.attrOf hL hs ho ((h.paths hpath).child name.2)
        (hfit _ (by simp [NameOp.paths, hpath])) hx
  | getattr ino =>
    rcases withPath_cases hx with e | ⟨path, hpath, hx⟩
    · rwa [e]
    · exact h.attrOf hL hs ho (h.paths hpath) (hfit _ (by simp [NameOp.paths, hpath])) hx
  | mkdir parent name mode => exact h.mkdir hL hs ho hfit hx
  | unlink parent name => exact h.remove hL hs ho (q := .unlink) (fun _ _ => ⟨_, _, rfl⟩) hfit hx
  | rmdir parent name => exact h.remove hL hs ho (q := .rmDir) (fun _ _ => ⟨_, _, rfl⟩) hfit hx
  | rename parent name newParent newName => exact h.rename hL hs ho hfit hclear hx
  | link ino newParent newName => exact h.link hL hs ho hfit hx
  | create parent name mode flags => exact h.create hL hs ho hfit hx
  | readdir ino offset => exact h.readdir hL hs ho hfit hspell hx

/-- **The metadata cache is coherent**: in every state of a run in which each rename finds the
cache clear, and with any of its entries gone, `get_stat` of a path that is not too long and not
below a file says that it does not exist exactly when the server has nothing there, and otherwise
answers attributes of the right kind. -/
theorem getStat_coherent (hL : L.Laws) (hs : Standing S.kernel S.ex) (root : List Char)
    (cfg : CacheConfig) {host : Host} (ht : host.fs.Tree S.ex.root) {s : Names L}
    (hr : Reach (Names.step S) (Names.CacheClear S) (Names.mount S root cfg host) s)
    {cache : MetaCache L} (hcache : s.cache.Forgets cache) {o : Outside} (ho : o.Sound)
    (hf : o.fate 0 = .answered) {path : Path} (hpath : ∃ cs, normalise path = .ok cs)
    (hshort : S.ex.Short (components path))
    (habove : s.host.fs.NoFileAbove S.ex.root (components path)) :
    ∃ r s', ({ s with cache } : Names L).getStat S o path = some (r, s') ∧
      (r = .error .enoent ↔ s.host.fs.view S.ex.root (components path) = none) ∧
      ∀ i k, s.host.fs.view S.ex.root (components path) = some (i, k) →
        ∃ st, r = .ok st ∧ st.2.kind.sort = k := by
  have hnew : ∀ p x, (Names.mount S root cfg host : Names L).cache.known p ≠ some x := by
    intro p x hk
    obtain ⟨e, he, -⟩ := Option.map_eq_some_iff.mp hk
    cases (hL.new _ p).symm.trans he
  have hinit : Coherent.All S (normalizeRoot root) (Names.mount S root cfg host : Names L) := {
    tree := ht
    paths := fun hp => by
      simp only [Names.mount, InodeTable.new, InodeTable.pathOf, Function.update_apply] at hp
      split at hp
      · cases hp
        exact canon_root _
      · cases hp
    keys := fun hk => absurd hk (hnew _ _)
    found := fun _ hk => absurd hk (hnew _ _)
    absent := fun _ hk => absurd hk (hnew _ _) }
  have h := hr.invariant hinit fun hi hc hx => hi.step hL hs hc hx
  obtain ⟨r, s', he, -, hok, hnone, hplain⟩ := (h.forget hcache).getStat hL hs ho hshort
  refine ⟨r, s', he, ?_, fun i k hv => ?_⟩
  · refine ⟨hnone, fun hv => ?_⟩
    rcases hplain hf hpath habove with ⟨st, rfl⟩ | rfl
    · exact absurd (hv.symm.trans (hok st rfl)) (by simp)
    · rfl
  · rcases hplain hf hpath habove with ⟨st, rfl⟩ | rfl
    · have := (hok st rfl).symm.trans hv
      exact ⟨st, rfl, by injection this with this; injection this⟩
    · exact absurd ((hnone rfl).symm.trans hv) (by simp)

/-- A directory is made and renamed; its new name is then answered, with or without the cache. -/
theorem getStat_coherent_small :
    ∃ s : Names lru, Reach (Names.step smallSetup) (Names.CacheClear smallSetup)
    (Names.mount smallSetup ['/'] {} smallMount.host) s ∧
    s.host.fs.view 1 [['e']] = some (2, .dir) ∧ s.host.fs.view 1 [['d']] = none ∧
    ∀ cache, s.cache.Forgets cache → ∃ r s',
      ({ s with cache } : Names lru).getStat smallSetup {} ['/', 'd'] = some (r, s') ∧
      r = .error .enoent := by
  have hrun : (((Names.mount (L := lru) smallSetup ['/'] {} smallMount.host).step smallSetup
      ({}, .mkdir 1 ⟨['d'], by decide⟩ 0o755)).bind fun s₁ =>
        (s₁.step smallSetup ({}, .rename 1 ⟨['d'], by decide⟩ 1 ⟨['e'], by decide⟩)).map fun s =>
          (s₁.inodes.pathOf 1, s₁.cache.lru.2.map Prod.fst,
            [[['e']], [['d']], []].map (s.host.fs.view 1))) =
      some (some ['/'], [['/', 'd']], [some (2, .dir), none, some (1, .dir)]) := by
    decide +kernel
  obtain ⟨s₁, hs₁, hrun⟩ := Option.bind_eq_some_iff.mp hrun
  obtain ⟨s, hs, hfacts⟩ := Option.map_eq_some_iff.mp hrun
  simp only [Prod.mk.injEq, List.map_cons, List.map_nil, List.cons.injEq, and_true] at hfacts
  obtain ⟨hroot, hkeys, he, hd, htop⟩ := hfacts
  have hreach : Reach (Names.step smallSetup) (Names.CacheClear smallSetup)
      (Names.mount smallSetup ['/'] {} smallMount.host) s := by
    have hfirst : (Names.mount (L := lru) smallSetup ['/'] {} smallMount.host).CacheClear smallSetup
        ({}, .mkdir 1 ⟨['d'], by decide⟩ 0o755) :=
      ⟨sound_default, by decide +kernel, fun _ _ _ _ h => (by cases h), fun _ _ h => by cases h⟩
    refine .step (.step .refl hfirst hs₁) ⟨sound_default, ?_, ?_, fun _ _ h => by cases h⟩ hs
    · simp only [Names.Fitting, NameOp.paths, hroot]
      decide
    intro parent name newParent newName h po pn hpo hpn
    cases h
    rw [hroot] at hpo hpn
    cases hpo
    cases hpn
    have hmem : ∀ {p x}, s₁.cache.known p = some x → p = ['/', 'd'] := by
      intro p x hk
      obtain ⟨e, he, -⟩ := Option.map_eq_some_iff.mp hk
      simpa [hkeys] using mem_of_peek_lru he
    refine .inr ⟨fun p st hk => ?_, fun p hk => ?_⟩
    · rw [hmem hk]
      decide
    · rw [hmem hk]
      exact fun h => absurd h (by decide)
  refine ⟨s, hreach, he, hd, fun cache hcache => ?_⟩
  have habove : s.host.fs.NoFileAbove 1 (components ['/', 'd']) := by
    intro q c r hq i
    obtain rfl : q = [] := List.length_eq_zero_iff.mp (by
      have := congrArg List.length hq
      simp [components, splitSlash] at this
      omega)
    rw [htop]
    exact fun e => by cases e
  obtain ⟨r, s', hget, hiff, -⟩ := @getStat_coherent lru smallSetup lru_laws
    standing_smallSetup ['/'] {} _
    tree_smallMount s hreach cache hcache {} sound_default rfl ['/', 'd'] ⟨_, rfl⟩
      (by decide) habove
  exact ⟨r, s', hget, hiff.mpr hd⟩

/-- A directory with a file in it is renamed; the old path of the file is still answered. -/
theorem getStat_stale_below_renamed :
    ∃ s : Names lru, Reach (Names.step smallSetup) (fun _ l => l.1.Sound)
    (Names.mount smallSetup ['/'] {} smallMount.host) s ∧
    s.host.fs.view 1 (components ['/', 'd', '/', 'f']) = none ∧
    ∃ st s', s.getStat smallSetup {} ['/', 'd', '/', 'f'] = some (.ok st, s') := by
  have hrun : ((execBy (fun s op => Names.step smallSetup s ({}, op)) anyLabel
      (Names.mount (L := lru) smallSetup ['/'] {} smallMount.host)
      [.mkdir 1 ⟨['d'], by decide⟩ 0o755, .create 2 ⟨['f'], by decide⟩ 0o644 2,
        .rename 1 ⟨['d'], by decide⟩ 1 ⟨['e'], by decide⟩]).bind fun s =>
      (s.getStat smallSetup {} ['/', 'd', '/', 'f']).map fun x =>
        (s.host.fs.view 1 (components ['/', 'd', '/', 'f']), x.1.toOption.map Prod.fst)) =
      some (none, some 3) := by
    decide +kernel
  obtain ⟨s, hs, hget⟩ := Option.bind_eq_some_iff.mp hrun
  obtain ⟨⟨r, s'⟩, hget, hfacts⟩ := Option.map_eq_some_iff.mp hget
  obtain ⟨hnone, hst⟩ := Prod.mk.inj hfacts
  refine ⟨s, (Reach.of_execBy .refl hs).relabel fun _ _ _ => sound_default, hnone, ?_⟩
  cases r with
  | ok st => exact ⟨st, s', hget⟩
  | error e => cases hst

end QuicFs.System
