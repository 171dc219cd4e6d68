import QuicFs.Client.Inodes
import QuicFs.System.NameRpcs

/-!
# Inode numbers follow their objects

`Tracks`: each number of the inode table maps to a path at which the server has the object the
number was allocated for. Attributes are cached for paths of the table only, so that a number
is never allocated for a path that is gone. A rename moves one entry of the table; it is right
if the table has nothing below the moved path and nothing at the new one
(`Names.TableClear`).
-/

namespace QuicFs.System

open Lib Client Server Function

variable {L : StatStore} {S : Setup} {root : Path} {s : Names L} {next₀ : FuseIno}
    {origin₀ : FuseIno → Option Ino}
  {E : Path → Prop} {o : Outside}

/-- The numbers below `next₀` are for the objects of `origin₀`, the others for what is at their
paths; `E` are the paths whose attributes are cached before they have a number. -/
structure Tracks {L : StatStore} (S : Setup) (root : Path) (next₀ : FuseIno)
    (origin₀ : FuseIno → Option Ino) (E : Path → Prop) (s : Names L) : Prop where
  tree : s.host.fs.Tree S.ex.root
  table : s.inodes.Bijective root
  bounded : s.inodes.Bounded
  start : next₀ ≤ s.inodes.next
  paths : ∀ {ino p}, s.inodes.pathOf ino = some p → Canon root p
  held : ∀ {ino p}, s.inodes.pathOf ino = some p → ∃ i k, (ino < next₀ → origin₀ ino = some i) ∧
    s.host.fs.view S.ex.root (components p) = some (i, k)
  keys : ∀ {p x}, s.cache.known p = some x → Canon root p
  cached : ∀ {p st}, ¬E p → s.cache.known p = some (some st) →
    s.inodes.pathToIno (pathComponents p) ≠ none

/-- The table has nothing below the path that is moved and nothing at the new one. -/
def Names.TableClearOf {L : StatStore} (s : Names L) (old new : Path) : Prop :=
  s.inodes.pathToIno (pathComponents new) = none ∧
    ∀ ino p, s.inodes.pathOf ino = some p → ¬(old ++ ['/']) <+: p

/-- Every call ends as it should and about paths that are not too long, a rename moves nothing but
the one entry, and a listing spells its paths as the other callbacks do. -/
def Names.TableClear {L : StatStore} (S : Setup) (s : Names L) (l : Outside × NameOp) : Prop :=
  l.1.Sound ∧ s.Fitting S l.2 ∧ s.OnRename l.2 s.TableClearOf ∧ s.OnReaddir l.2

namespace Tracks

theorem forget (h : Tracks S root next₀ origin₀ E s) {c : MetaCache L}
    (hc : s.cache.Forgets c) : Tracks S root next₀ origin₀ E { s with cache := c } :=
  { h with
    keys := fun hk => h.keys (hc _ _ hk)
    cached := fun hp hk => h.cached hp (hc _ _ hk) }

theorem invalidate (hL : L.Laws) (h : Tracks S root next₀ origin₀ E s) (p : Path) :
    Tracks S root next₀ origin₀ E (invalidateCache p s) :=
  h.forget (MetaCache.forgets_invalidate hL _ p)

theorem present (h : Tracks S root next₀ origin₀ E s) {p : Path}
    (hp : s.inodes.pathToIno (pathComponents p) ≠ none) :
    s.host.fs.view S.ex.root (components p) ≠ none := by
  obtain ⟨ino, hino⟩ := Option.ne_none_iff_exists'.mp hp
  obtain ⟨p', hp', he⟩ := InodeTable.keyOf_eq_some.mp ((h.table.1 _ ino).mp hino)
  obtain ⟨i, k, -, hv⟩ := h.held hp'
  rw [← components_eq_of_pathComponents he, hv]
  exact fun e => by cases e

theorem host (h : Tracks S root next₀ origin₀ E s) {h' : Host} (ht : h'.fs.Tree S.ex.root)
    (hview : ∀ ino p, s.inodes.pathOf ino = some p →
      h'.fs.view S.ex.root (components p) = s.host.fs.view S.ex.root (components p)) :
    Tracks S root next₀ origin₀ E { s with host := h' } :=
  { h with
    tree := ht
    held := fun hp => by
      obtain ⟨i, k, hi, hv⟩ := h.held hp
      exact ⟨i, k, hi, (hview _ _ hp).trans hv⟩ }

theorem same (h : Tracks S root next₀ origin₀ E s) (h' : Host) (ht : h'.fs.Tree S.ex.root)
    (hview : h'.fs.view S.ex.root = s.host.fs.view S.ex.root) :
    Tracks S root next₀ origin₀ E { s with host := h' } :=
  h.host ht fun _ p _ => congrFun hview (components p)

theorem added (h : Tracks S root next₀ origin₀ E s) {h' : Host} {path : Path}
    {x : Option (Ino × ObjSort)} (ht : h'.fs.Tree S.ex.root)
    (hnone : s.host.fs.view S.ex.root (components path) = none)
    (hview : h'.fs.view S.ex.root = update (s.host.fs.view S.ex.root) (components path) x) :
    Tracks S root next₀ origin₀ E { s with host := h' } := by
  refine h.host ht fun ino p hp => ?_
  obtain ⟨i, k, -, hv⟩ := h.held hp
  rw [hview, update_of_ne fun e => ?_]
  rw [e, hnone] at hv
  cases hv

theorem cacheStat (hL : L.Laws) (h : Tracks S root next₀ origin₀ E s) {path : Path}
    (hpath : Canon root path) (st : Ino × Node) :
    Tracks S root next₀ origin₀ (fun p => E p ∨ p = path) (cacheStat o path st s) :=
  { h with
    keys := fun hk => by
      rcases MetaCache.known_insert hL hk with ⟨rfl, -⟩ | ⟨-, hk⟩
      · exact hpath
      · exact h.keys hk
    cached := fun hp hk => by
      rcases MetaCache.known_insert hL hk with ⟨rfl, -⟩ | ⟨-, hk⟩
      · exact absurd (.inr rfl) hp
      · exact h.cached (fun hE => hp (.inl hE)) hk }

/-- A number for a path that is there. -/
theorem allocated {path : Path} (h : Tracks S root next₀ origin₀ (fun p => E p ∨ p = path) s)
    (hpath : Canon root path) (hv : s.host.fs.view S.ex.root (components path) ≠ none) :
    Tracks S root next₀ origin₀ E { s with inodes := (s.inodes.getOrAlloc path).2 } where
  tree := h.tree
  table := InodeTable.bijective_getOrAlloc h.bounded h.table path
  bounded := h.bounded.exec (.getOrAlloc path)
  start := Nat.le_trans h.start (InodeTable.next_le_exec _ (.getOrAlloc path))
  paths hp := (InodeTable.pathOf_getOrAlloc hp).elim h.paths fun e => e.2 ▸ hpath
  held hp := by
    rcases InodeTable.pathOf_getOrAlloc hp with hp | ⟨rfl, rfl⟩
    · exact h.held hp
    · obtain ⟨⟨i, k⟩, hv⟩ := Option.ne_none_iff_exists'.mp hv
      exact ⟨i, k, fun hlt => absurd hlt (Nat.not_lt.mpr h.start), hv⟩
  keys := h.keys
  cached {p st} hp hk := by
    by_cases e : p = path
    · rw [e]
      exact InodeTable.pathToIno_getOrAlloc_self s.inodes path
    · exact InodeTable.pathToIno_getOrAlloc path (h.cached (not_or.mpr ⟨hp, e⟩) hk)

theorem cacheNegative (hL : L.Laws) (h : Tracks S root next₀ origin₀ E s) {path : Path}
    (hpath : Canon root path) : Tracks S root next₀ origin₀ E (cacheNegative o path s) :=
  { h with
    keys := fun hk => by
      rcases MetaCache.known_insertNegative hL hk with ⟨rfl, -⟩ | ⟨-, hk⟩
      · exact hpath
      · exact h.keys hk
    cached := fun hp hk => by
      rcases MetaCache.known_insertNegative hL hk with ⟨-, hx⟩ | ⟨-, hk⟩
      · cases hx
      · exact h.cached hp hk }

theorem mono (h : Tracks S root next₀ origin₀ E s) {E' : Path → Prop} (hE : ∀ p, E p → E' p) :
    Tracks S root next₀ origin₀ E' s :=
  { h with cached := fun hp hk => h.cached (fun e => hp (hE _ e)) hk }

theorem settle {p₀ : Path} (h : Tracks S root next₀ origin₀ (fun p => E p ∨ p = p₀) s)
    (hp₀ : s.inodes.pathToIno (pathComponents p₀) ≠ none) : Tracks S root next₀ origin₀ E s :=
  { h with
    cached := fun {p st} hp hk => by
      by_cases e : p = p₀
      · rwa [e]
      · exact h.cached (not_or.mpr ⟨hp, e⟩) hk }

/-- A path is removed from the tree and from the table. -/
theorem removed (h : Tracks S root next₀ origin₀ E s) {path : Path} (hpath : Canon root path)
    (hroot : pathComponents path ≠ pathComponents root) (hk : ∀ x, s.cache.known path ≠ some x)
    {h' : Host} (ht : h'.fs.Tree S.ex.root)
    (hview : h'.fs.view S.ex.root = update (s.host.fs.view S.ex.root) (components path) none) :
    Tracks S root next₀ origin₀ E { s with host := h', inodes := s.inodes.removePath path } where
  tree := ht
  table := (InodeTable.bijective_removePath_iff h.table path).mpr hroot
  bounded := h.bounded.exec (.removePath path)
  start := Nat.le_trans h.start (InodeTable.next_le_exec _ (.removePath path))
  paths hp := h.paths (InodeTable.pathOf_removePath hp)
  held {ino p} hp := by
    have hne := InodeTable.ne_of_pathOf_removePath h.table hp
    replace hp := InodeTable.pathOf_removePath hp
    obtain ⟨i, k, hi, hv⟩ := h.held hp
    refine ⟨i, k, hi, ?_⟩
    rw [hview, update_of_ne fun e => hne (by rw [(h.paths hp).ext hpath e]), hv]
  keys := h.keys
  cached {p st} hp hk' := by
    rw [InodeTable.pathToIno_removePath fun e => ?_]
    · exact h.cached hp hk'
    · exact hk _ ((h.keys hk').ext hpath (components_eq_of_pathComponents e) ▸ hk')

/-- What a rename leaves of the tree: the moved object is at the new path, and the other paths
of a clear table are as before. -/
theorem view_renamed (h : Tracks S root next₀ origin₀ E s) {old new : Path} (hold : Canon root old)
    (hnew : Canon root new) (hold' : Named old) (hclear : old = new ∨ s.TableClearOf old new)
    {fs' : Fs} {y : Ino × ObjSort} (hy : s.host.fs.view S.ex.root (components old) = some y)
    (hcase : fs'.view S.ex.root = s.host.fs.view S.ex.root ∧
        s.host.fs.view S.ex.root (components new) = some y ∨
      fs'.view S.ex.root = Fs.moved (s.host.fs.view S.ex.root) (components old) (components new) ∧
        ∀ c q, s.host.fs.view S.ex.root (components new ++ c :: q) = none) :
    fs'.view S.ex.root (components new) = some y ∧ ∀ ino p, s.inodes.pathOf ino = some p → p ≠ old →
      fs'.view S.ex.root (components p) = s.host.fs.view S.ex.root (components p) := by
  rcases hcase with ⟨hview, hy'⟩ | ⟨hview, hbelow⟩
  · exact ⟨by rw [hview, hy'], fun _ _ _ _ => by rw [hview]⟩
  rcases hclear with rfl | ⟨hfree, hclear⟩
  · rw [Fs.moved_self] at hview
    exact ⟨by rw [hview, hy], fun _ _ _ _ => by rw [hview]⟩
  refine ⟨by rw [hview, Fs.moved, if_pos (List.prefix_refl _)]; simpa using hy,
    fun ino p hp hne => ?_⟩
  rw [hview, Fs.moved]
  split
  · next hpre =>
    obtain ⟨rest, hrest⟩ := hpre
    cases rest with
    | nil =>
      obtain rfl := (h.paths hp).ext hnew (by rw [← hrest, List.append_nil])
      rw [(h.table.1 _ ino).mpr (InodeTable.keyOf_of_pathOf hp)] at hfree
      cases hfree
    | cons c r =>
      obtain ⟨i, k, -, hv⟩ := h.held hp
      rw [← hrest, hbelow] at hv
      cases hv
  · split
    · next hpre =>
      obtain ⟨rest, hrest⟩ := hpre
      cases rest with
      | nil => exact absurd ((h.paths hp).ext hold (by rw [← hrest, List.append_nil])) hne
      | cons c r => exact absurd (hold.below (h.paths hp) hold' hrest.symm).1 (hclear ino p hp)
    · rfl

/-- The object of the old path is at the new one, in the tree and in the table. -/
theorem renamed (h : Tracks S root next₀ origin₀ E s) {old new : Path} (hold : Canon root old)
    (hnew : Canon root new) (hroot : pathComponents old ≠ pathComponents root)
    (hclear : old = new ∨ s.TableClearOf old new) {c : MetaCache L} (hc : s.cache.Forgets c)
    (hk : ∀ x, c.known old ≠ some x) {h' : Host} (ht : h'.fs.Tree S.ex.root) {y : Ino × ObjSort}
    (hy : s.host.fs.view S.ex.root (components old) = some y)
    (hy' : h'.fs.view S.ex.root (components new) = some y)
    (hview : ∀ ino p, s.inodes.pathOf ino = some p → p ≠ old →
      h'.fs.view S.ex.root (components p) = s.host.fs.view S.ex.root (components p)) :
    Tracks S root next₀ origin₀ E
      { s with cache := c, host := h', inodes := s.inodes.renameIno old new } where
  tree := ht
  table := (InodeTable.bijective_renameIno_iff h.table old new).mpr
    (.inr (hclear.imp (congrArg _) fun hclear => ⟨hclear.1, hroot⟩))
  bounded := h.bounded.exec (.renameIno old new)
  start := Nat.le_trans h.start (InodeTable.next_le_exec _ (.renameIno old new))
  paths hp := (InodeTable.pathOf_renameIno hp).elim h.paths fun e => e.2 ▸ hnew
  held {ino p} hp := by
    rcases InodeTable.pathOf_renameIno_of_bijective h.table hp with ⟨hp, hne⟩ | ⟨hpo, rfl⟩
    · obtain ⟨i, k, hi, hv⟩ := h.held hp
      exact ⟨i, k, hi, (hview ino p hp fun e => hne (by rw [e])).trans hv⟩
    · obtain ⟨p', hp', he⟩ := InodeTable.keyOf_eq_some.mp hpo
      obtain ⟨i, k, hi, hv⟩ := h.held hp'
      rw [components_eq_of_pathComponents he] at hv
      exact ⟨i, k, hi, by rw [hy', ← hy, hv]⟩
  keys hk' := h.keys (hc _ _ hk')
  cached {p st} hp hk' := by
    refine InodeTable.pathToIno_renameIno (fun e => ?_) (h.cached hp (hc _ _ hk'))
    exact hk _ ((h.keys (hc _ _ hk')).ext hold (components_eq_of_pathComponents e) ▸ hk')

end Tracks

/-! ## The callbacks -/

/-- Every number is tracked. -/
abbrev Tracks.All (S : Setup) (root : Path) (next₀ : FuseIno) (origin₀ : FuseIno → Option Ino)
    (s : Names L) : Prop := Tracks S root next₀ origin₀ (fun _ => False) s

section
variable (hL : L.Laws) (hs : Standing S.kernel S.ex) (ho : o.Sound)
include hL hs ho

theorem Tracks.attrOf (h : Tracks.All S root next₀ origin₀ s) {path : Path}
    (hpath : Canon root path) (hshort : S.ex.Short (components path)) {x : NameReply × Names L}
    (hx : s.attrOf S o path = some x) : Tracks.All S root next₀ origin₀ x.2 := by
  obtain ⟨c, h', s₁, hc, hfs, rfl, hcase⟩ := getStat_cases hs h.tree ho hL hshort
  have h₁ := (h.forget hc).same h' (hfs ▸ h.tree) (by rw [hfs])
  unfold Names.attrOf at hx
  rcases hcase with ⟨st, hk, he⟩ | ⟨-, he⟩ | ⟨st, hv, he⟩ | ⟨-, he⟩ | ⟨-, he⟩
  · rw [he] at hx
    cases hx
    exact (h₁.mono fun p hp => .inl hp).allocated hpath (h₁.present (h.cached id hk))
  · rw [he] at hx
    cases hx
    exact h₁
  · rw [he] at hx
    cases hx
    refine (h₁.cacheStat hL hpath st).allocated hpath fun e => ?_
    rw [← hfs] at hv
    exact absurd (hv.symm.trans e) (by simp)
  · rw [he] at hx
    cases hx
    exact h₁.cacheNegative hL hpath
  · rw [he] at hx
    cases hx
    exact h₁

theorem Tracks.mkdir (h : Tracks.All S root next₀ origin₀ s) {parent : FuseIno} {name : FuseName}
    {mode : UInt32} (hfit : s.Fitting S (.mkdir parent name mode)) {x : NameReply × Names L}
    (hx : s.mkdir S o parent name mode = some x) :
    Tracks.All S root next₀ origin₀ x.2 := by
  rcases mkdir_cases hs h.tree ho hfit hx with e | ⟨par, h', hpar, ht', hcase⟩
  · rwa [e]
  have hpath := (h.paths hpar).child name.2
  rcases hcase with ⟨e, hview⟩ | ⟨st, e, hnone, -, hview⟩
  · rw [e]
    exact (h.invalidate hL par).same h' ht' hview
  · rw [e]
    refine (((h.invalidate hL par).added ht' hnone hview).cacheStat hL hpath st).allocated
      hpath fun e => ?_
    exact absurd ((congrFun hview _).symm.trans e) (by simp)

theorem Tracks.remove (h : Tracks.All S root next₀ origin₀ s) {q : UInt64 → Path → Request}
    (hq : ∀ seq path, ∃ op isDir, handle S.ex S.dur 0 o.session (q seq path) =
      handleRemove S.ex S.dur.syncMetadata op isDir seq path) {parent : FuseIno} {name : FuseName}
    (hfit : s.Fitting S (.unlink parent name)) {x : NameReply × Names L}
    (hx : s.remove S o q parent name = some x) : Tracks.All S root next₀ origin₀ x.2 := by
  rcases remove_cases hs h.tree ho hq hfit hx with e | ⟨par, h', s₁, hpar, ht', rfl, hcase⟩
  · rwa [e]
  have h₁ := h.invalidate hL (childPath par name.1)
  rcases hcase with ⟨e, hview⟩ | ⟨e, hview, -⟩
  · rw [e]
    exact h₁.same h' ht' hview
  · rw [e]
    exact h₁.removed ((h.paths hpar).child name.2) ((h.paths hpar).child_ne_root name.2)
      (fun x hk => (MetaCache.known_invalidate hL hk).1 rfl) ht' hview

theorem Tracks.rename (h : Tracks.All S root next₀ origin₀ s) {parent newParent : FuseIno}
    {name newName : FuseName} (hfit : s.Fitting S (.rename parent name newParent newName))
    (hclear : s.OnRename (.rename parent name newParent newName) s.TableClearOf)
    {x : NameReply × Names L} (hx : s.rename S o parent name newParent newName = some x) :
    Tracks.All S root next₀ origin₀ x.2 := by
  rcases rename_cases hs h.tree ho hfit hx with
    e | ⟨po, pn, old, new, h', hpo, hpn, hold, hnew, ht', hcase⟩
  · rwa [e]
  replace hclear := hclear _ _ _ _ rfl po pn hpo hpn
  rw [← hold, ← hnew] at hclear
  have hold' : Canon root old ∧ Named old ∧ pathComponents old ≠ pathComponents root :=
    hold ▸ ⟨(h.paths hpo).child name.2, named_childPath po name.2,
      (h.paths hpo).child_ne_root name.2⟩
  have hnew' : Canon root new := hnew ▸ (h.paths hpn).child newName.2
  rcases hcase with ⟨e, hview⟩ | ⟨s₁, hs₁, e, y, hy, hcase⟩
  · rw [e]
    exact h.same h' ht' hview
  obtain ⟨hy', hview⟩ := h.view_renamed hold'.1 hnew' hold'.2.1 hclear hy hcase
  have hcache : ∃ c, s₁ = { s with cache := c, host := h' } ∧ s.cache.Forgets c ∧
      ∀ x, c.known old ≠ some x := by
    have hnot : ∀ x, ((s.cache.invalidate old).invalidate new).known old ≠ some x := fun x hk =>
      (MetaCache.known_invalidate hL (MetaCache.known_invalidate hL hk).2).1 rfl
    have hfor : s.cache.Forgets ((s.cache.invalidate old).invalidate new) :=
      (MetaCache.forgets_invalidate hL _ _).trans (MetaCache.forgets_invalidate hL _ _)
    cases hp : parentPath new with
    | none =>
      rw [hp] at hs₁
      exact ⟨_, hs₁, hfor, hnot⟩
    | some p =>
      rw [hp] at hs₁
      exact ⟨_, hs₁, hfor.trans (MetaCache.forgets_invalidate hL _ _),
        fun x hk => hnot x (MetaCache.known_invalidate hL hk).2⟩
  obtain ⟨c, rfl, hc, hk⟩ := hcache
  rw [e]
  exact h.renamed hold'.1 hnew' hold'.2.2 hclear hc hk ht' hy hy' hview

theorem Tracks.link (h : Tracks.All S root next₀ origin₀ s) {ino newParent : FuseIno}
    {newName : FuseName} (hfit : s.Fitting S (.link ino newParent newName))
    {x : NameReply × Names L} (hx : s.link S o ino newParent newName = some x) :
    Tracks.All S root next₀ origin₀ x.2 := by
  rcases link_cases hs h.tree ho hfit hx with e | ⟨src, pn, new, h', hsrc, hpn, rfl, ht', hcase⟩
  · rwa [e]
  rcases hcase with ⟨e, hview⟩ | ⟨st, e, hnone, -, -, hview⟩
  · rw [e]
    exact h.same h' ht' hview
  · have hin : s.inodes.pathToIno (pathComponents src) ≠ none := by
      rw [(h.table.1 _ ino).mpr (InodeTable.keyOf_of_pathOf hsrc)]
      exact fun e => by cases e
    have hnew := (h.paths hpn).child newName.2
    have h₁ := (((h.added ht' hnone hview).invalidate hL src).cacheStat (o := o) hL (h.paths hsrc)
      st).settle hin
    rw [e]
    refine ((h₁.invalidate hL _).cacheStat hL hnew st).allocated hnew fun e => ?_
    exact absurd ((congrFun hview _).symm.trans e) (by simp)

theorem Tracks.create (h : Tracks.All S root next₀ origin₀ s) {parent : FuseIno} {name : FuseName}
    {mode flags : UInt32} (hfit : s.Fitting S (.create parent name mode flags))
    {x : NameReply × Names L} (hx : s.create S o parent name mode flags = some x) :
    Tracks.All S root next₀ origin₀ x.2 := by
  rcases create_cases hs h.tree ho hfit hx with
    e | ⟨par, path, h', s₁, hpar, rfl, ht', rfl, hview, hcase⟩
  · rwa [e]
  have h₁ := (h.invalidate hL par).invalidate hL (childPath par name.1)
  have h₂ : Tracks.All S root next₀ origin₀ { invalidateCache (childPath par name.1)
      (invalidateCache par s) with host := h' } := by
    rcases hview with hview | ⟨hnone, i, hview⟩
    · exact h₁.same h' ht' hview
    · exact h₁.added ht' hnone hview
  rcases hcase with e | ⟨st, e, -, hi⟩
  · rwa [e]
  · rw [e]
    have hpath := (h.paths hpar).child name.2
    refine (h₂.cacheStat hL hpath st).allocated hpath fun e => ?_
    exact absurd (hi.symm.trans e) (by simp)

theorem Tracks.readdir {root : List Char} (h : Tracks.All S (normalizeRoot root) next₀ origin₀ s)
    {ino : FuseIno} {offset : Nat} (hfit : s.Fitting S (.readdir ino offset))
    (hspell : s.OnReaddir (.readdir ino offset)) {x : NameReply × Names L}
    (hx : s.readdir S o ino offset = some x) :
    Tracks.All S (normalizeRoot root) next₀ origin₀ x.2 := by
  rcases withPath_cases hx with e | ⟨path, hpath, hx⟩
  · rwa [e]
  obtain ⟨⟨r, s₁⟩, hpages, he⟩ := Option.map_eq_some_iff.mp hx
  cases he
  obtain ⟨⟨h', rfl, hfs⟩, hent⟩ :=
    readdirPages_spec hs ho (hfit path (by simp [NameOp.paths, hpath])) h.tree hpages
  have h₁ := h.same h' (hfs ▸ h.tree) (by rw [hfs])
  cases r with
  | error e => exact h₁
  | ok entries =>
    refine addEntries_keeps (I := fun t => Tracks.All S (normalizeRoot root) next₀ origin₀
      { s with host := h', inodes := t }) (fun e he t ht => ?_) h₁
    have hmem := (List.mem_zipIdx (List.mem_of_mem_drop he)).2.2
    obtain ⟨hname, hview⟩ := hent entries rfl e.1 (hmem ▸ List.getElem_mem _)
    rw [(h.paths hpath).entryPath_eq (hspell ino offset rfl path hpath)]
    refine (ht.mono fun p hp => .inl hp).allocated ((h.paths hpath).child hname) ?_
    rw [components_childPath path hname]
    rwa [hfs]

end

/-- A number that is allocated in a step is for what is at its path after the step. -/
theorem Tracks.step {root : List Char} (hL : L.Laws) (hs : Standing S.kernel S.ex)
    (h : Tracks.All S (normalizeRoot root) s.inodes.next s.origin s) {l : Outside × NameOp}
    (hc : s.TableClear S l) {s' : Names L} (hstep : s.step S l = some s') :
    Tracks.All S (normalizeRoot root) s'.inodes.next s'.origin s' := by
  obtain ⟨o, op⟩ := l
  obtain ⟨ho, hfit, hclear, hspell⟩ := hc
  obtain ⟨x, hx, rfl⟩ := Option.map_eq_some_iff.mp hstep
  have h' : Tracks.All S (normalizeRoot root) s.inodes.next s.origin x.2 := by
    cases op with
    | lookup parent name =>
      rcases withPath_cases hx with e | ⟨path, hpath, hx⟩
      · rwa [e]
      · exact h.attrOf hL hs ho ((h.paths hpath).child name.2)
          (hfit _ (by simp [NameOp.paths, hpath])) hx
    | getattr ino =>
      rcases withPath_cases hx with e | ⟨path, hpath, hx⟩
      · rwa [e]
      · exact h.attrOf hL hs ho (h.paths hpath) (hfit _ (by simp [NameOp.paths, hpath])) hx
    | mkdir parent name mode => exact h.mkdir hL hs ho hfit hx
    | unlink parent name => exact h.remove hL hs ho (q := .unlink) (fun _ _ => ⟨_, _, rfl⟩) hfit hx
    | rmdir parent name => exact h.remove hL hs ho (q := .rmDir) (fun _ _ => ⟨_, _, rfl⟩) hfit hx
    | rename parent name newParent newName => exact h.rename hL hs ho hfit hclear hx
    | link ino newParent newName => exact h.link hL hs ho hfit hx
    | create parent name mode flags => exact h.create hL hs ho hfit hx
    | readdir ino offset => exact h.readdir hL hs ho hfit hspell hx
  refine ⟨h'.tree, h'.table, h'.bounded, Nat.le_refl _, h'.paths, fun {ino p} hp => ?_,
    h'.keys, h'.cached⟩
  obtain ⟨i, k, hi, hv⟩ := h'.held hp
  refine ⟨i, k, fun _ => ?_, hv⟩
  replace hp : x.2.inodes.pathOf ino = some p := hp
  by_cases hlt : s.inodes.next ≤ ino
  · simp only [if_pos hlt, hp, Option.bind_some]
    exact (Fs.view_eq_some.mp hv).1
  · simp only [if_neg hlt]
    exact hi (Nat.lt_of_not_le hlt)

theorem tracks_mount (hL : L.Laws) (root : List Char) (cfg : CacheConfig) {host : Host}
    (ht : host.fs.Tree S.ex.root)
    (hroot : host.fs.view S.ex.root (components (normalizeRoot root)) ≠ none) :
    Tracks.All S (normalizeRoot root) (Names.mount S root cfg host : Names L).inodes.next
      (Names.mount S root cfg host : Names L).origin (Names.mount S root cfg host : Names L) := by
  have hkeys : ∀ p x, (Names.mount S root cfg host : Names L).cache.known p ≠ some x := by
    intro p x hk
    obtain ⟨e, he, -⟩ := Option.map_eq_some_iff.mp hk
    cases (hL.new _ p).symm.trans he
  have hnew : ∀ {ino p}, (Names.mount S root cfg host : Names L).inodes.pathOf ino = some p →
      ino = InodeTable.rootIno ∧ p = normalizeRoot root := fun {ino p} hp => by
    simp only [Names.mount, InodeTable.new, InodeTable.pathOf, update_apply] at hp
    split at hp
    · next e => exact ⟨e, (Option.some.inj hp).symm⟩
    · cases hp
  exact {
    tree := ht
    table := InodeTable.bijective_new _
    bounded := InodeTable.bounded_new _
    start := Nat.le_refl _
    paths := fun hp => (hnew hp).2 ▸ canon_root _
    held := fun hp => by
      obtain ⟨rfl, rfl⟩ := hnew hp
      obtain ⟨⟨i, k⟩, hv⟩ := Option.ne_none_iff_exists'.mp hroot
      refine ⟨i, k, fun _ => ?_, hv⟩
      simp only [Names.mount, update_self]
      exact (Fs.view_eq_some.mp hv).1
    keys := fun hk => absurd hk (hkeys _ _)
    cached := fun _ hk => absurd hk (hkeys _ _) }

/-- **Every inode number of the table maps to a path at which the server has the object it was
allocated for**, in every state of a run in which each rename finds the table clear. -/
theorem inodes_track (hL : L.Laws) (hs : Standing S.kernel S.ex) (root : List Char)
    (cfg : CacheConfig) {host : Host} (ht : host.fs.Tree S.ex.root)
    (hroot : host.fs.view S.ex.root (components (normalizeRoot root)) ≠ none) {s : Names L}
    (hr : Reach (Names.step S) (Names.TableClear S) (Names.mount S root cfg host) s)
    {ino : FuseIno} {p : Path} (hp : s.inodes.pathOf ino = some p) :
    ∃ i, s.origin ino = some i ∧ s.host.fs.descend S.ex.root (components p) = some i := by
  have h := hr.invariant (I := fun s => Tracks.All S (normalizeRoot root) s.inodes.next s.origin s)
    (tracks_mount hL root cfg ht hroot) fun hi hc hx => hi.step hL hs hc hx
  obtain ⟨i, k, hi, hv⟩ := h.held hp
  refine ⟨i, hi (Nat.lt_of_not_le fun hle => ?_), (Fs.view_eq_some.mp hv).1⟩
  exact absurd ((h.bounded.inos ino hle).symm.trans hp) (by simp)

/-- A file is made and renamed; its number has the new path, where the server has it. -/
theorem inodes_track_small :
    ∃ s : Names lru, Reach (Names.step smallSetup) (Names.TableClear smallSetup)
    (Names.mount smallSetup ['/'] {} smallMount.host) s ∧ s.inodes.pathOf 2 = some ['/', 'e'] ∧
    ∃ i, s.origin 2 = some i ∧ s.host.fs.descend 1 [['e']] = some i := by
  have hroot : smallMount.host.fs.view 1 (components (normalizeRoot ['/'])) ≠ none := by
    decide +kernel
  have hrun : (((Names.mount (L := lru) smallSetup ['/'] {} smallMount.host).step smallSetup
      ({}, .create 1 ⟨['d'], by decide⟩ 0o644 2)).bind fun s₁ =>
        (s₁.step smallSetup ({}, .rename 1 ⟨['d'], by decide⟩ 1 ⟨['e'], by decide⟩)).map fun s =>
          ((List.range s₁.inodes.next).map s₁.inodes.pathOf, s₁.inodes.pathToIno [['/'], ['e']],
            s.inodes.pathOf 2)) =
      some ([none, some ['/'], some ['/', 'd']], none, some ['/', 'e']) := by
    decide +kernel
  obtain ⟨s₁, hs₁, hrun⟩ := Option.bind_eq_some_iff.mp hrun
  obtain ⟨s, hs, hfacts⟩ := Option.map_eq_some_iff.mp hrun
  simp only [Prod.mk.injEq] at hfacts
  obtain ⟨htable, hfree, hpath⟩ := hfacts
  have hreach : Reach (Names.step smallSetup) (Names.TableClear smallSetup)
      (Names.mount smallSetup ['/'] {} smallMount.host) s := by
    have hfirst : (Names.mount (L := lru) smallSetup ['/'] {} smallMount.host).TableClear smallSetup
        ({}, .create 1 ⟨['d'], by decide⟩ 0o644 2) :=
      ⟨sound_default, by decide +kernel, fun _ _ _ _ h => (by cases h), fun _ _ h => by cases h⟩
    have htracks := (tracks_mount lru_laws ['/'] {} tree_smallMount hroot).step lru_laws
      standing_smallSetup hfirst hs₁
    have h1 : s₁.inodes.pathOf 1 = some ['/'] := by
      obtain ⟨i, hi, hp⟩ : ∃ i, (List.range s₁.inodes.next)[1]? = some i ∧
          s₁.inodes.pathOf i = some ['/'] := by
        have := congrArg (fun l => l[1]?) htable
        simpa using this
      obtain ⟨_, rfl⟩ := List.getElem?_eq_some_iff.mp hi
      simpa using hp
    refine .step (.step .refl hfirst hs₁)
      ⟨sound_default, ?_, fun _ _ _ _ h po pn hpo hpn => ?_, fun _ _ h => by cases h⟩ hs
    · simp only [Names.Fitting, NameOp.paths, h1]
      decide
    cases h
    rw [h1] at hpo hpn
    cases hpo
    cases hpn
    refine .inr ⟨hfree, fun ino p hp => ?_⟩
    have hlt : ino < s₁.inodes.next := Nat.lt_of_not_le fun hle =>
      absurd ((htracks.bounded.inos ino hle).symm.trans hp) (by simp)
    have hmem : some p ∈ (List.range s₁.inodes.next).map s₁.inodes.pathOf :=
      List.mem_map.mpr ⟨ino, List.mem_range.mpr hlt, hp⟩
    rw [htable] at hmem
    obtain rfl | rfl : p = ['/'] ∨ p = ['/', 'd'] := by simpa using hmem
    · decide
    · decide
  exact ⟨s, hreach, hpath, inodes_track lru_laws standing_smallSetup ['/'] {} tree_smallMount hroot
    hreach hpath⟩

/-- A directory with a file in it is renamed; the number of the file keeps the path at which
there is nothing any more. -/
theorem inode_left_below_renamed :
    ∃ s : Names lru, Reach (Names.step smallSetup) (fun _ l => l.1.Sound)
    (Names.mount smallSetup ['/'] {} smallMount.host) s ∧
    s.inodes.pathOf 3 = some ['/', 'd', '/', 'f'] ∧
    s.origin 3 = some 3 ∧ s.host.fs.descend 1 (components ['/', 'd', '/', 'f']) = none ∧
    s.host.fs.descend 1 (components ['/', 'e', '/', 'f']) = some 3 := by
  have hrun : (execBy (fun s op => Names.step smallSetup s ({}, op)) anyLabel
      (Names.mount (L := lru) smallSetup ['/'] {} smallMount.host)
      [.mkdir 1 ⟨['d'], by decide⟩ 0o755, .create 2 ⟨['f'], by decide⟩ 0o644 2,
        .rename 1 ⟨['d'], by decide⟩ 1 ⟨['e'], by decide⟩]).map (fun s =>
      (s.inodes.pathOf 3, s.origin 3, s.host.fs.descend 1 (components ['/', 'd', '/', 'f']),
        s.host.fs.descend 1 (components ['/', 'e', '/', 'f']))) =
      some (some ['/', 'd', '/', 'f'], some 3, none, some 3) := by
    decide +kernel
  obtain ⟨s, hs, hfacts⟩ := Option.map_eq_some_iff.mp hrun
  simp only [Prod.mk.injEq] at hfacts
  exact ⟨s, (Reach.of_execBy .refl hs).relabel fun _ _ _ => sound_default, hfacts⟩

end QuicFs.System
