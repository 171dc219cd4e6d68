import QuicFs.Client.Inodes
import QuicFs.Client.Paths
import QuicFs.Server.Resolve

/-!
# Client and server agree on paths

The paths of a mount, in whichever of its two ways the client has made them (`Spelling`), are
for the server the components of the mounted root and the names. They stay so through
whatever the callbacks do to the inode table (`Spelled`), so a chain of lookups from the root
sends paths that `resolve` takes for the names looked up (`paths_agree`).
-/

namespace QuicFs.System

open Client Server Function

/-- A name of a directory entry, as the kernel hands it over. -/
abbrev EntryName := { n : Name // ValidName n ∧ '\x00' ∉ n }

/-- The paths the client makes of a chain of names below its root. -/
inductive Spelling (root : List Char) : List EntryName → Path → Prop where
  | root : Spelling root [] (normalizeRoot root)
  | child {chain : List EntryName} {p : Path} (n : EntryName) : Spelling root chain p →
      Spelling root (chain ++ [n]) (childPath p n.1)
  | entry {chain : List EntryName} {p : Path} (n : EntryName) : Spelling root chain p →
      Spelling root (chain ++ [n]) (entryPath p n.1)

/-- The limits of the server: the bytes of the path, the bytes of a component, the depth. -/
def Fits (p : Path) : Prop :=
  utf8Len p ≤ maxPathLen ∧ (∀ c ∈ components p, utf8Len c ≤ 255) ∧
    (components p).length ≤ maxPathDepth

instance (p : Path) : Decidable (Fits p) := inferInstanceAs (Decidable (_ ∧ _))

theorem mem_normalizeRoot {root : List Char} {c : Char} (h : c ∈ normalizeRoot root) :
    c ∈ root ∨ c = '/' := by
  have hroot : c ∈ (root.dropWhile isWhiteSpace).rdropWhile isWhiteSpace → c ∈ root := fun h =>
    (List.dropWhile_suffix _).mem ((List.rdropWhile_prefix ..).mem h)
  dsimp only [normalizeRoot] at h
  generalize (root.dropWhile isWhiteSpace).rdropWhile isWhiteSpace = r at h hroot
  have hr : c ∈ (if r = [] then ['/'] else r) → c ∈ root ∨ c = '/' := fun h => by
    split at h
    · exact .inr (List.mem_singleton.mp h)
    · exact .inl (hroot h)
  generalize (if r = [] then ['/'] else r) = r' at h hr
  have hlead : c ∈ (if r'.head? = some '/' then r' else '/' :: r') → c ∈ root ∨
      c = '/' := fun h => by
    split at h
    · exact hr h
    · exact (List.mem_cons.mp h).elim .inr hr
  generalize (if r'.head? = some '/' then r' else '/' :: r') = withLead at h hlead
  split at h
  · exact .inr (List.mem_singleton.mp h)
  · exact hlead ((List.rdropWhile_prefix ..).mem h)

namespace Spelling

variable {root : List Char} {chain chain' : List EntryName} {p p' : Path}

theorem head? (h : Spelling root chain p) : p.head? = some '/' := by
  induction h with
  | root => exact head?_normalizeRoot root
  | child n _ ih => exact head?_childPath ih n.1
  | entry n _ ih => exact head?_entryPath ih n.1

theorem components (h : Spelling root chain p) :
    components p = components (normalizeRoot root) ++ chain.map (·.1) := by
  induction h with
  | root => simp
  | child n _ ih => rw [components_childPath _ n.2.1, ih, List.map_append, List.append_assoc]; rfl
  | entry n _ ih => rw [components_entryPath _ n.2.1, ih, List.map_append, List.append_assoc]; rfl

theorem chain_eq (h : Spelling root chain p) (h' : Spelling root chain' p')
    (he : QuicFs.components p = QuicFs.components p') : chain = chain' := by
  rw [h.components, h'.components] at he
  exact List.map_injective_iff.mpr Subtype.val_injective (List.append_cancel_left he)

theorem not_mem_nul (h : Spelling root chain p) (hnul : '\x00' ∉ root) : '\x00' ∉ p := by
  induction h with
  | root => exact fun hm => (mem_normalizeRoot hm).elim hnul (by decide)
  | @child chain p n h ih =>
    have : ∀ {q}, '\x00' ∉ q → '\x00' ∉ q ++ '/' :: n.1 := fun hq => by simp [hq, n.2.2]
    unfold childPath joinPath
    split
    · simp [n.2.2]
    · split
      · simp [ih, n.2.2]
      · exact this ih
  | @entry chain p n h ih =>
    have : '\x00' ∉ p.rdropWhile (· = '/') := fun hm => ih ((List.rdropWhile_prefix ..).mem hm)
    simp [entryPath, this, n.2.2]

/-- **A path of the mount is for the server the root's components and the names.** -/
theorem normalise_eq (h : Spelling root chain p) (hnul : '\x00' ∉ root)
    (hdots : ['.', '.'] ∉ QuicFs.components (normalizeRoot root)) (hfits : Fits p) :
    ∃ q, normalise p = .ok q ∧ q.names = QuicFs.components (normalizeRoot root) ++
      chain.map (·.1) := by
  obtain ⟨hlen, hshort, hdepth⟩ := hfits
  have hdots' : ['.', '.'] ∉ QuicFs.components p := by
    rw [h.components, List.mem_append]
    rintro (hm | hm)
    · exact hdots hm
    · obtain ⟨n, -, hn⟩ := List.mem_map.mp hm
      exact n.2.1.2.2.1 hn
  obtain ⟨q, hq⟩ := (normalise_ok_iff p).mpr
    ((accepted_iff_components p).mpr ⟨hlen, h.not_mem_nul hnul, hdots', hshort, hdepth⟩)
  exact ⟨q, hq, by rw [(names_of_normalise hq).1, h.components]⟩

theorem entryPath_eq (h : Spelling root chain p) (n : EntryName) :
    pathComponents (entryPath p n.1) = pathComponents (childPath p n.1) := by
  rw [pathComponents_of_absolute (head?_entryPath h.head? n.1), components_entryPath _ n.2.1,
    pathComponents_of_absolute (head?_childPath h.head? n.1), components_childPath _ n.2.1]

end Spelling

/-! ## The inode table -/

/-- What a callback does to the inode table. -/
inductive TableOp where
  /-- `lookup`, `mkdir`, `create`, `symlink` and `link` -/
  | child (parent : FuseIno) (name : EntryName)
  /-- `getattr` and `setattr` -/
  | self (ino : FuseIno)
  /-- An entry of `readdir` -/
  | entry (dir : FuseIno) (name : EntryName)
  /-- `unlink` and `rmdir` -/
  | remove (parent : FuseIno) (name : EntryName)
  | rename (parent : FuseIno) (name : EntryName) (newParent : FuseIno) (newName : EntryName)

def TableOp.exec (t : InodeTable) : TableOp → InodeTable
  | .child parent name => (t.pathOf parent).elim t fun p => (t.getOrAlloc (childPath p name.1)).2
  | .self ino => (t.pathOf ino).elim t fun p => (t.getOrAlloc p).2
  | .entry dir name => (t.pathOf dir).elim t fun p => (t.getOrAlloc (entryPath p name.1)).2
  | .remove parent name => (t.pathOf parent).elim t fun p => t.removePath (childPath p name.1)
  | .rename parent name newParent newName =>
    (t.pathOf parent).elim t fun p => (t.pathOf newParent).elim t fun p' =>
      t.renameIno (childPath p name.1) (childPath p' newName.1)

def runOps (t : InodeTable) (ops : List TableOp) : InodeTable := ops.foldl TableOp.exec t

/-- The numbers of the table have paths of the mount, and the number of a path has that path. -/
structure Spelled (root : List Char) (t : InodeTable) : Prop where
  bounded : t.Bounded
  paths : ∀ {ino p}, t.pathOf ino = some p → ∃ chain, Spelling root chain p
  numbers : ∀ {key ino}, t.pathToIno key = some ino → t.keyOf ino = some key
  root : t.pathOf InodeTable.rootIno = some (normalizeRoot root)

namespace Spelled

variable {root : List Char} {t : InodeTable}

theorem new (root : List Char) : Spelled root (.new (normalizeRoot root)) where
  bounded := InodeTable.bounded_new _
  paths {ino p} hp := by
    simp only [InodeTable.new, InodeTable.pathOf, update_apply] at hp
    split at hp
    · cases hp
      exact ⟨[], .root⟩
    · cases hp
  numbers hk := ((InodeTable.bijective_new _).1 _ _).mp hk
  root := by simp [InodeTable.new, InodeTable.pathOf]

theorem getOrAlloc (h : Spelled root t) {chain : List EntryName} {path : Path}
    (hpath : Spelling root chain path) : Spelled root (t.getOrAlloc path).2 where
  bounded := h.bounded.exec (.getOrAlloc path)
  paths hp := (InodeTable.pathOf_getOrAlloc hp).elim h.paths fun e => ⟨chain, e.2 ▸ hpath⟩
  numbers {key ino} hk := by
    unfold InodeTable.getOrAlloc at hk ⊢
    split at hk
    · exact h.numbers hk
    · simp only [InodeTable.keyOf_update, update_apply] at hk ⊢
      split at hk
      · next e => cases hk; simp [e]
      · rw [if_neg (Nat.ne_of_lt (h.bounded.paths _ _ hk))]
        exact h.numbers hk
  root := by
    unfold InodeTable.getOrAlloc
    split
    · exact h.root
    · have hne : InodeTable.rootIno ≠ t.next := fun e => by
        have := h.root
        rw [InodeTable.pathOf, e, h.bounded.inos _ (Nat.le_refl _)] at this
        cases this
      simpa only [InodeTable.pathOf, update_of_ne hne] using h.root

theorem ne_rootIno (h : Spelled root t) {chain : List EntryName} {p : Path}
    (hp : Spelling root chain p) (n : EntryName) {ino : FuseIno}
    (hk : t.pathToIno (pathComponents (childPath p n.1)) = some ino) :
    ino ≠ InodeTable.rootIno := by
  rintro rfl
  have hkey := (h.numbers hk).symm.trans (InodeTable.keyOf_of_pathOf h.root)
  have hchain :=
    (hp.child n).chain_eq .root (components_eq_of_pathComponents (Option.some.inj hkey))
  simp at hchain

theorem removePath (h : Spelled root t) {chain : List EntryName} {p : Path}
    (hp : Spelling root chain p) (n : EntryName) :
    Spelled root (t.removePath (childPath p n.1)) where
  bounded := h.bounded.exec (.removePath _)
  paths hp := h.paths (InodeTable.pathOf_removePath hp)
  numbers {key ino} hk := by
    unfold InodeTable.removePath at hk ⊢
    split at hk
    · exact h.numbers hk
    · next i he =>
      simp only [InodeTable.keyOf_update, update_apply] at hk ⊢
      split at hk
      · cases hk
      · next hne =>
        have hi : ino ≠ i :=
          fun e => hne (Option.some.inj ((h.numbers hk).symm.trans (e ▸ h.numbers he)))
        rw [if_neg hi]
        exact h.numbers hk
  root := by
    unfold InodeTable.removePath
    split
    · exact h.root
    · next i he =>
      simpa only [InodeTable.pathOf, update_of_ne (h.ne_rootIno hp n he).symm] using h.root

theorem renameIno (h : Spelled root t) {chain : List EntryName} {p : Path}
    (hp : Spelling root chain p) (n : EntryName) {chain' : List EntryName} {new : Path}
    (hnew : Spelling root chain' new) : Spelled root (t.renameIno (childPath p n.1) new) where
  bounded := h.bounded.exec (.renameIno _ _)
  paths hp := (InodeTable.pathOf_renameIno hp).elim h.paths fun e => ⟨chain', e.2 ▸ hnew⟩
  numbers {key ino} hk := by
    unfold InodeTable.renameIno at hk ⊢
    split at hk
    · exact h.numbers hk
    · next i he =>
      simp only [InodeTable.keyOf_update, update_apply] at hk ⊢
      split at hk
      · next e => cases hk; simp [e]
      · split at hk
        · cases hk
        · next hne =>
          have hi : ino ≠ i :=
            fun e => hne (Option.some.inj ((h.numbers hk).symm.trans (e ▸ h.numbers he)))
          rw [if_neg hi]
          exact h.numbers hk
  root := by
    unfold InodeTable.renameIno
    split
    · exact h.root
    · next i he =>
      simpa only [InodeTable.pathOf, update_of_ne (h.ne_rootIno hp n he).symm] using h.root

theorem exec (h : Spelled root t) (op : TableOp) : Spelled root (op.exec t) := by
  cases op with
  | child parent name =>
    rw [TableOp.exec]
    cases hp : t.pathOf parent with
    | none => exact h
    | some p =>
      obtain ⟨chain, hs⟩ := h.paths hp
      exact h.getOrAlloc (hs.child name)
  | self ino =>
    rw [TableOp.exec]
    cases hp : t.pathOf ino with
    | none => exact h
    | some p =>
      obtain ⟨chain, hs⟩ := h.paths hp
      exact h.getOrAlloc hs
  | entry dir name =>
    rw [TableOp.exec]
    cases hp : t.pathOf dir with
    | none => exact h
    | some p =>
      obtain ⟨chain, hs⟩ := h.paths hp
      exact h.getOrAlloc (hs.entry name)
  | remove parent name =>
    rw [TableOp.exec]
    cases hp : t.pathOf parent with
    | none => exact h
    | some p =>
      obtain ⟨chain, hs⟩ := h.paths hp
      exact h.removePath hs name
  | rename parent name newParent newName =>
    rw [TableOp.exec]
    cases hp : t.pathOf parent with
    | none => exact h
    | some p =>
      obtain ⟨chain, hs⟩ := h.paths hp
      cases hp' : t.pathOf newParent with
      | none => exact h
      | some p' =>
        obtain ⟨chain', hs'⟩ := h.paths hp'
        exact h.renameIno hs name (hs'.child newName)

theorem runOps (h : Spelled root t) (ops : List TableOp) : Spelled root (runOps t ops) := by
  induction ops generalizing t with
  | nil => exact h
  | cons op ops ih => exact ih (h.exec op)

end Spelled

/-! ## Chains of lookups -/

/-- A lookup in the directory found last: the path it sends, the number it finds, and the table. -/
def lookupNext (s : Option (Path × FuseIno × InodeTable)) (n : EntryName) :
    Option (Path × FuseIno × InodeTable) :=
  s.bind fun (_, ino, t) => (t.pathOf ino).map fun p =>
    (childPath p n.1, (t.getOrAlloc (childPath p n.1)).1, (t.getOrAlloc (childPath p n.1)).2)

/-- The lookups of a chain of names from the root of the mount. -/
def lookupChain (t : InodeTable) (chain : List EntryName) : Option (Path × FuseIno × InodeTable) :=
  chain.foldl lookupNext ((t.pathOf InodeTable.rootIno).map (·, InodeTable.rootIno, t))

theorem pathToIno_getOrAlloc_fst (t : InodeTable) (path : Path) :
    (t.getOrAlloc path).2.pathToIno (pathComponents path) = some (t.getOrAlloc path).1 := by
  unfold InodeTable.getOrAlloc
  split
  · next h => exact h
  · simp

theorem getOrAlloc_fst (t : InodeTable) (path : Path) :
    (t.getOrAlloc path).1 = (t.pathToIno (pathComponents path)).getD t.next := by
  unfold InodeTable.getOrAlloc
  split
  · next h => rw [h]; rfl
  · next h => rw [h]; rfl

theorem getOrAlloc_congr {a b : Path} (h : pathComponents a = pathComponents b) (t : InodeTable) :
    (t.getOrAlloc a).1 = (t.getOrAlloc b).1 ∧
    ((t.getOrAlloc a).2.getOrAlloc b).1 = (t.getOrAlloc a).1 := by
  refine ⟨by rw [getOrAlloc_fst, getOrAlloc_fst, h], ?_⟩
  rw [getOrAlloc_fst _ b, ← h, pathToIno_getOrAlloc_fst]
  rfl

/-- The lookups of a chain find their numbers, and the last path is one of the chain. -/
theorem Spelled.lookupChain {root : List Char} {t : InodeTable} (h : Spelled root t)
    (chain : List EntryName) :
    ∃ p ino t', lookupChain t chain = some (p, ino, t') ∧ Spelled root t' ∧
      Spelling root chain p ∧ t'.keyOf ino = some (pathComponents p) := by
  induction chain using List.reverseRecOn with
  | nil =>
    refine ⟨_, _, t, ?_, h, .root, InodeTable.keyOf_of_pathOf h.root⟩
    rw [System.lookupChain, h.root]
    rfl
  | append_singleton chain n ih =>
    obtain ⟨p, ino, t', he, h', hs, hkey⟩ := ih
    obtain ⟨p', hp', hpp⟩ := InodeTable.keyOf_eq_some.mp hkey
    -- the number may have its path in another spelling
    have hs' : Spelling root chain p' := by
      obtain ⟨chain', hs'⟩ := h'.paths hp'
      rwa [hs'.chain_eq hs (components_eq_of_pathComponents hpp)] at hs'
    have h'' := h'.getOrAlloc (hs'.child n)
    refine ⟨childPath p' n.1, _, _, ?_, h'', hs'.child n,
      h''.numbers (pathToIno_getOrAlloc_fst _ _)⟩
    rw [System.lookupChain, List.foldl_append, ← System.lookupChain, he]
    simp only [List.foldl_cons, List.foldl_nil, lookupNext, Option.bind_some, hp', Option.map_some]

/-- **Client and server agree on paths**, whatever has been done in the mount before: a chain of
lookups from the root sends a path that the server takes for the root's components and the
names; what `readdir` makes of a directory's path and a name has the number that `lookup`
finds; different chains send paths of different objects. -/
theorem paths_agree (root : List Char) (hnul : '\x00' ∉ root)
    (hdots : ['.', '.'] ∉ components (normalizeRoot root)) (ops : List TableOp) {t : InodeTable}
    (ht : t = runOps (.new (normalizeRoot root)) ops) :
    (∀ chain, ∃ p ino t', lookupChain t chain = some (p, ino, t') ∧ (Fits p →
      ∃ q, normalise p = .ok q ∧ q.names = components (normalizeRoot root) ++ chain.map (·.1))) ∧
    (∀ dir p (n : EntryName), t.pathOf dir = some p →
      (t.getOrAlloc (entryPath p n.1)).1 = (t.getOrAlloc (childPath p n.1)).1 ∧
      ((t.getOrAlloc (childPath p n.1)).2.getOrAlloc (entryPath p n.1)).1 =
        (t.getOrAlloc (childPath p n.1)).1 ∧
      ((t.getOrAlloc (entryPath p n.1)).2.getOrAlloc (childPath p n.1)).1 =
        (t.getOrAlloc (entryPath p n.1)).1) ∧
    ∀ chain chain', chain ≠ chain' → ∀ x x' q q', lookupChain t chain = some x →
      lookupChain t chain' = some x' → normalise x.1 = .ok q → normalise x'.1 = .ok q' →
      q ≠ q' := by
  have h : Spelled root t := ht ▸ (Spelled.new root).runOps ops
  refine ⟨fun chain => ?_, fun dir p n hp => ?_,
    fun chain chain' hne x x' q q' hx hx' hq hq' e => ?_⟩
  · obtain ⟨p, ino, t', he, -, hs, -⟩ := h.lookupChain chain
    exact ⟨p, ino, t', he, hs.normalise_eq hnul hdots⟩
  · obtain ⟨chain, hs⟩ := h.paths hp
    have heq := hs.entryPath_eq n
    exact ⟨(getOrAlloc_congr heq t).1, (getOrAlloc_congr heq.symm t).2, (getOrAlloc_congr heq t).2⟩
  · obtain ⟨p, ino, t₁, he, -, hs, -⟩ := h.lookupChain chain
    obtain ⟨p', ino', t₂, he', -, hs', -⟩ := h.lookupChain chain'
    obtain rfl := Option.some.inj (he.symm.trans hx)
    obtain rfl := Option.some.inj (he'.symm.trans hx')
    refine hne (hs.chain_eq hs' ?_)
    rw [← (names_of_normalise hq).1, ← (names_of_normalise hq').1, e]

/-- A mount of `/.` whose root is listed before the lookups: the paths sent are in the other
spelling. -/
theorem paths_agree_dot : ∃ p ino t',
    lookupChain (runOps (.new (normalizeRoot ['/', '.'])) [.entry 1 ⟨['d'], by decide⟩])
      [⟨['d'], by decide⟩, ⟨['x'], by decide⟩] = some (p, ino, t') ∧
      p = ['/', '.', '/', 'd', '/', 'x'] ∧
    ∃ q, normalise p = .ok q ∧ q.names = [['d'], ['x']] := by
  obtain ⟨hlookup, -, -⟩ := @paths_agree ['/', '.'] (by decide) (by decide)
    [.entry 1 ⟨['d'], by decide⟩] _ rfl
  obtain ⟨p, ino, t', he, hq⟩ := hlookup [⟨['d'], by decide⟩, ⟨['x'], by decide⟩]
  obtain rfl : ['/', '.', '/', 'd', '/', 'x'] = p := congrArg Prod.fst (Option.some.inj he)
  exact ⟨_, ino, t', he, rfl, hq (by decide)⟩

/-- A root with a NUL in it has no `..` and fits, and the server refuses it. -/
theorem nul_in_root_refused :
    ∃ p ino t', ['.', '.'] ∉ components (normalizeRoot ['a', '\x00', 'b']) ∧
    lookupChain (.new (normalizeRoot ['a', '\x00', 'b'])) [] = some (p, ino, t') ∧ Fits p ∧
    normalise p = .error "path contains null byte" :=
  ⟨['/', 'a', '\x00', 'b'], _, _, by decide, rfl, by decide, rfl⟩

end QuicFs.System
