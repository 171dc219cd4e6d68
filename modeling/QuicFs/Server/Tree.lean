import QuicFs.Server.Sys

/-!
# The export as a tree of names

`descend` goes from a directory along names, following entries only. `Tree fs root` is
what a filesystem keeps to beneath the export root when it holds no symbolic links: an
entry names an object that exists, a directory has one entry, and nothing beneath the root
holds the root. The three edits the namespace calls come down to (`Tree.added`,
`Tree.dropped`, `Tree.moved`) keep it, and each changes `descend` as the operation is meant
to: one path appears, one path is gone, a subtree is elsewhere.
-/

namespace QuicFs.Server

open Function

inductive ObjSort where
  | file | dir | link
  deriving DecidableEq, Repr

def Kind.sort : Kind → ObjSort
  | .file _ => .file
  | .dir _ => .dir
  | .symlink _ => .link

def Kind.Leaf : Kind → Prop
  | .dir es => es = []
  | _ => True

namespace Fs

variable {fs fs' : Fs} {root d i j x : Ino} {n m : Name} {p q : List Name}

/-- What an inode is; `none` if it is not there. -/
def sort (fs : Fs) (i : Ino) : Option ObjSort := (fs.kind i).map Kind.sort

/-- The directory `d` has an entry of that name for `i`. -/
def Holds (fs : Fs) (d : Ino) (n : Name) (i : Ino) : Prop :=
  ∃ es, fs.entries d = some es ∧ (n, i) ∈ es

/-- Along the names from the directory `d`. -/
def descend (fs : Fs) (d : Ino) : List Name → Option Ino
  | [] => some d
  | c :: cs => (fs.lookup d c).bind (fs.descend · cs)

@[simp] theorem descend_nil : fs.descend d [] = some d := rfl

theorem descend_cons (c : Name) (cs : List Name) :
    fs.descend d (c :: cs) = (fs.lookup d c).bind (fs.descend · cs) := rfl

theorem descend_append (p q : List Name) :
    fs.descend d (p ++ q) = (fs.descend d p).bind (fs.descend · q) := by
  induction p generalizing d with
  | nil => rfl
  | cons c cs ih => simp only [List.cons_append, descend_cons, Option.bind_assoc, ih]

theorem descend_snoc (p : List Name) (c : Name) :
    fs.descend d (p ++ [c]) = (fs.descend d p).bind (fs.lookup · c) := by
  rw [descend_append]
  congr 1
  funext x
  simp [descend_cons]

theorem parent_of_descend (h : fs.descend d (p ++ [n]) = some i) :
    ∃ x, fs.descend d p = some x ∧ fs.lookup x n = some i := by
  rw [descend_snoc] at h
  exact Option.bind_eq_some_iff.mp h

theorem isDir_iff_sort : fs.isDir i = true ↔ fs.sort i = some .dir := by
  unfold isDir entries sort
  cases h : fs.kind i with
  | none => simp
  | some k => cases k <;> simp [Kind.sort]

theorem isSymlink_iff_sort : fs.isSymlink i = true ↔ fs.sort i = some .link := by
  unfold isSymlink sort
  cases h : fs.kind i with
  | none => simp
  | some k => cases k <;> simp [Kind.sort]

theorem sort_eq_none : fs.sort i = none ↔ fs.nodes i = none := by simp [sort, kind]

theorem sort_of_node {node : Node} (h : fs.nodes i = some node) :
    fs.sort i = some node.kind.sort := by
  simp [sort, kind, h]

theorem entries_of_sort (h : fs.sort i = some .dir) : ∃ es, fs.entries i = some es :=
  Option.isSome_iff_exists.mp (isDir_iff_sort.mpr h)

theorem sort_of_entries {es : List (Name × Ino)} (h : fs.entries i = some es) :
    fs.sort i = some .dir :=
  isDir_iff_sort.mp (by rw [isDir, h]; rfl)

theorem lookup_of_entries {es : List (Name × Ino)} (h : fs.entries d = some es) (n : Name) :
    fs.lookup d n = es.lookup n := by rw [lookup, h]; rfl

theorem holds_of_lookup (h : fs.lookup d n = some i) : fs.Holds d n i := by
  obtain ⟨es, he, hl⟩ := Option.bind_eq_some_iff.mp h
  exact ⟨es, he, mem_of_lookup hl⟩

theorem lookup_of_holds (h : fs.Holds d n i) : ∃ j, fs.lookup d n = some j := by
  obtain ⟨es, he, hm⟩ := h
  rw [lookup_of_entries he]
  cases hl : es.lookup n with
  | some j => exact ⟨j, rfl⟩
  | none => simpa using List.lookup_eq_none_iff.mp hl _ hm

theorem sort_of_holds (h : fs.Holds d n i) : fs.sort d = some .dir :=
  sort_of_entries h.choose_spec.1

theorem sort_of_lookup (h : fs.lookup d n = some i) : fs.sort d = some .dir :=
  sort_of_holds (holds_of_lookup h)

theorem lookup_eq_none_of_sort (h : fs.sort d ≠ some .dir) (n : Name) : fs.lookup d n = none := by
  cases hl : fs.lookup d n with
  | none => rfl
  | some i => exact absurd (sort_of_lookup hl) h

theorem lt_next_of_sort {k : ObjSort} (h : fs.sort i = some k) : i < fs.next := by
  by_contra hge
  rw [sort_eq_none.mpr (fs.fresh i (Nat.le_of_not_lt hge))] at h
  cases h

/-- What a filesystem keeps to beneath the export root. -/
structure Tree (fs : Fs) (root : Ino) : Prop where
  dir : fs.sort root = some .dir
  live : ∀ {d n i}, fs.Holds d n i → fs.sort i ≠ none
  parent : ∀ {d d' n n' i}, fs.sort i = some .dir → fs.Holds d n i → fs.Holds d' n' i →
    d = d' ∧ n = n'
  top : ∀ {d n}, ¬fs.Holds d n slash
  loop : ∀ {p}, fs.descend root p = some root → p = []
  plain : ∀ {p i}, fs.descend root p = some i → fs.sort i ≠ some .link
  names : ∀ {p d n i}, fs.descend root p = some d → fs.Holds d n i → ValidName n

namespace Tree

/-- **A directory has one path.** -/
theorem unique (ht : fs.Tree root) (hd : fs.sort d = some .dir) : ∀ {p q : List Name},
    fs.descend root p = some d → fs.descend root q = some d → p = q := by
  intro p
  induction p using List.reverseRecOn generalizing d with
  | nil =>
    intro q hp hq
    obtain rfl : root = d := by simpa using hp
    exact (ht.loop hq).symm
  | append_singleton p n ih =>
    intro q hp hq
    obtain ⟨x, hx, hxn⟩ := parent_of_descend hp
    rcases List.eq_nil_or_concat' q with rfl | ⟨q, m, rfl⟩
    · obtain rfl : root = d := by simpa using hq
      exact ht.loop hp
    · obtain ⟨y, hy, hym⟩ := parent_of_descend hq
      obtain ⟨rfl, rfl⟩ := ht.parent hd (holds_of_lookup hxn) (holds_of_lookup hym)
      rw [ih (sort_of_lookup hxn) hx hy]

theorem sort_descend (ht : fs.Tree root) (h : fs.descend root p = some i) :
    fs.sort i = some .dir ∨ fs.sort i = some .file := by
  have hlive : fs.sort i ≠ none := by
    rcases List.eq_nil_or_concat' p with rfl | ⟨p, n, rfl⟩
    · obtain rfl : root = i := by simpa using h
      rw [ht.dir]; simp
    · obtain ⟨x, -, hx⟩ := parent_of_descend h
      exact ht.live (holds_of_lookup hx)
  have hlink := ht.plain h
  cases hs : fs.sort i with
  | none => exact absurd hs hlive
  | some k => cases k <;> simp_all

theorem validName (ht : fs.Tree root) (h : fs.descend root (p ++ [n]) = some i) : ValidName n := by
  obtain ⟨x, hx, hl⟩ := parent_of_descend h
  exact ht.names hx (holds_of_lookup hl)

end Tree

/-! ## The edits -/

/-- The entry `n` of `d` is new, for the object `i`. -/
structure Adds (fs fs' : Fs) (d : Ino) (n : Name) (i : Ino) : Prop where
  lookup : ∀ x m, fs'.lookup x m = if x = d ∧ m = n then some i else fs.lookup x m
  holds : ∀ {x m j}, fs'.Holds x m j → fs.Holds x m j ∨ (x = d ∧ m = n ∧ j = i)
  sort : ∀ {x}, x ≠ i → fs'.sort x = fs.sort x

/-- The entry `n` of `d` is gone, and with it `i` if that was a directory. -/
structure Drops (fs fs' : Fs) (d : Ino) (n : Name) (i : Ino) : Prop where
  lookup : ∀ x m, fs'.lookup x m = if x = d ∧ m = n then none else fs.lookup x m
  holds : ∀ {x m j}, fs'.Holds x m j → fs.Holds x m j ∧ ¬(x = d ∧ m = n)
  sort : ∀ x, fs'.sort x = fs.sort x ∨ x = i ∧ fs.sort x = some .dir ∧ fs'.sort x = none

/-- The entry `n` of `d` for `i` has become the entry `n'` of `d'`; a directory that was
there is gone. -/
structure Moves (fs fs' : Fs) (d : Ino) (n : Name) (d' : Ino) (n' : Name) (i : Ino) : Prop where
  lookup : ∀ x m, fs'.lookup x m =
    if x = d' ∧ m = n' then some i else if x = d ∧ m = n then none else fs.lookup x m
  holds : ∀ {x m j}, fs'.Holds x m j →
    (x = d' ∧ m = n' ∧ j = i) ∨ fs.Holds x m j ∧ ¬(x = d ∧ m = n) ∧ ¬(x = d' ∧ m = n')
  sort : ∀ x, fs'.sort x = fs.sort x ∨
    fs.lookup d' n' = some x ∧ fs.sort x = some .dir ∧ fs'.sort x = none

def moved {α : Type} (v : List Name → Option α) (old new : List Name) : List Name → Option α :=
  fun q =>
  if new <+: q then v (old ++ q.drop new.length) else if old <+: q then none else v q

theorem moved_self {α : Type} (v : List Name → Option α) (p : List Name) : moved v p p = v := by
  funext q
  rw [moved]
  split
  · next hpre => exact congrArg v (List.prefix_iff_eq_append.mp hpre)
  · rfl

namespace Tree

section
variable (ht : fs.Tree root) (hp : fs.descend root p = some d)
include ht hp

theorem descend_added (ha : fs.Adds fs' d n i) (hdir : fs.sort d = some .dir)
    (hfree : fs.lookup d n = none) (hleaf : fs.sort i ≠ some .dir) :
    fs'.descend root = update (fs.descend root) (p ++ [n]) (some i) := by
  funext q
  -- on the length of the path: a step leads elsewhere only from `d`, which has one path
  induction q using List.reverseRecOn with
  | nil => simp
  | append_singleton q m ih =>
    rw [descend_snoc, ih]
    by_cases hq : q = p ++ [n]
    · subst hq
      have hne : p ++ [n] ++ [m] ≠ p ++ [n] := by simp
      have hid : ¬(i = d ∧ m = n) := fun h => hleaf (h.1 ▸ hdir)
      rw [update_self, update_of_ne hne, Option.bind_some, ha.lookup, if_neg hid,
        lookup_eq_none_of_sort hleaf, descend_snoc, descend_snoc, hp, Option.bind_some, hfree]
      rfl
    · rw [update_of_ne hq]
      by_cases hqm : q ++ [m] = p ++ [n]
      · obtain ⟨rfl, hm⟩ := List.append_inj' hqm rfl
        obtain rfl : m = n := by simpa using hm
        rw [update_self, hp, Option.bind_some, ha.lookup, if_pos ⟨rfl, rfl⟩]
      · rw [update_of_ne hqm, descend_snoc]
        cases hx : fs.descend root q with
        | none => rfl
        | some x =>
          have hne : ¬(x = d ∧ m = n) := by
            rintro ⟨rfl, rfl⟩
            exact hqm (by rw [ht.unique hdir hx hp])
          rw [Option.bind_some, Option.bind_some, ha.lookup, if_neg hne]

/-- **A new entry**, for a new object or for a file. -/
theorem added (ha : fs.Adds fs' d n i) (hdir : fs.sort d = some .dir) (hname : ValidName n)
    (hfree : fs.lookup d n = none) (hleaf : fs.sort i ≠ some .dir) (hslash : i ≠ slash)
    (hnew : fs'.sort i = some .file ∨ fs'.sort i = some .dir ∧ fs.sort i = none) :
    fs'.Tree root := by
  have hdesc := ht.descend_added hp ha hdir hfree hleaf
  have hir : root ≠ i := fun e => hleaf (e ▸ ht.dir)
  have hlive : fs'.sort i ≠ none := by
    rcases hnew with h | ⟨h, -⟩ <;> simp [h]
  have hlink : fs'.sort i ≠ some .link := by
    rcases hnew with h | ⟨h, -⟩ <;> simp [h]
  constructor
  · rw [ha.sort hir, ht.dir]
  · intro x m j hj
    by_cases e : j = i
    · exact e ▸ hlive
    · rw [ha.sort e]
      rcases ha.holds hj with h | ⟨-, -, h⟩
      · exact ht.live h
      · exact absurd h e
  · intro x x' m m' j hj h h'
    by_cases e : j = i
    · subst e
      have hnone : fs.sort j = none := by
        rcases hnew with hf | ⟨-, hn⟩
        · rw [hf] at hj; cases hj
        · exact hn
      obtain ⟨rfl, rfl, -⟩ := (ha.holds h).resolve_left fun h => ht.live h hnone
      obtain ⟨rfl, rfl, -⟩ := (ha.holds h').resolve_left fun h => ht.live h hnone
      exact ⟨rfl, rfl⟩
    · rw [ha.sort e] at hj
      exact ht.parent hj ((ha.holds h).resolve_right fun h => e h.2.2)
        ((ha.holds h').resolve_right fun h => e h.2.2)
  · intro x m h
    rcases ha.holds h with h | ⟨-, -, h⟩
    · exact ht.top h
    · exact hslash h.symm
  · intro q hq
    rw [hdesc, update_apply] at hq
    split at hq
    · exact absurd (Option.some.inj hq).symm hir
    · exact ht.loop hq
  · intro q x hq
    by_cases e : x = i
    · exact e ▸ hlink
    · rw [hdesc, update_apply] at hq
      split at hq
      · exact absurd (Option.some.inj hq).symm e
      · rw [ha.sort e]; exact ht.plain hq
  · intro q x m j hq hj
    rcases ha.holds hj with h | ⟨-, rfl, -⟩
    · rw [hdesc, update_apply] at hq
      split at hq
      · exact absurd (Option.some.inj hq ▸ sort_of_holds h) hleaf
      · exact ht.names hq h
    · exact hname

theorem descend_dropped (hd : fs.Drops fs' d n i) (hi : fs.lookup d n = some i)
    (hleaf : ∀ m, fs.lookup i m = none) :
    fs'.descend root = update (fs.descend root) (p ++ [n]) none := by
  funext q
  induction q using List.reverseRecOn with
  | nil => simp
  | append_singleton q m ih =>
    rw [descend_snoc, ih]
    by_cases hq : q = p ++ [n]
    · subst hq
      have hne : p ++ [n] ++ [m] ≠ p ++ [n] := by simp
      rw [update_self, update_of_ne hne, descend_snoc, descend_snoc, hp,
        Option.bind_some, hi, Option.bind_some, hleaf]
      rfl
    · rw [update_of_ne hq]
      by_cases hqm : q ++ [m] = p ++ [n]
      · obtain ⟨rfl, hm⟩ := List.append_inj' hqm rfl
        obtain rfl : m = n := by simpa using hm
        rw [update_self, hp, Option.bind_some, hd.lookup, if_pos ⟨rfl, rfl⟩]
      · rw [update_of_ne hqm, descend_snoc]
        cases hx : fs.descend root q with
        | none => rfl
        | some x =>
          have hne : ¬(x = d ∧ m = n) := by
            rintro ⟨rfl, rfl⟩
            exact hqm (by rw [ht.unique (sort_of_lookup hi) hx hp])
          rw [Option.bind_some, Option.bind_some, hd.lookup, if_neg hne]

/-- **An entry is removed**, of a file or of an empty directory. -/
theorem dropped (hd : fs.Drops fs' d n i) (hi : fs.lookup d n = some i)
    (hleaf : ∀ m, fs.lookup i m = none) : fs'.Tree root := by
  have hdesc := ht.descend_dropped hp hd hi hleaf
  have hpi : fs.descend root (p ++ [n]) = some i := by rw [descend_snoc, hp, Option.bind_some, hi]
  have hir : root ≠ i := by
    rintro rfl
    simpa using ht.loop hpi
  have hold : ∀ {q x}, fs'.descend root q = some x → fs.descend root q = some x := by
    intro q x hq
    rw [hdesc, update_apply] at hq
    split at hq
    · cases hq
    · exact hq
  constructor
  · rcases hd.sort root with h | ⟨e, -⟩
    · rw [h, ht.dir]
    · exact absurd e hir
  · intro x m j hj
    obtain ⟨h, hne⟩ := hd.holds hj
    rcases hd.sort j with hs | ⟨rfl, hs, -⟩
    · rw [hs]; exact ht.live h
    · exact absurd (ht.parent hs h (holds_of_lookup hi)) hne
  · intro x x' m m' j hj h h'
    rcases hd.sort j with hs | ⟨-, -, hs⟩
    · exact ht.parent (hs ▸ hj) (hd.holds h).1 (hd.holds h').1
    · rw [hs] at hj; cases hj
  · exact fun h => ht.top (hd.holds h).1
  · exact fun hq => ht.loop (hold hq)
  · intro q x hq
    rcases hd.sort x with hs | ⟨-, -, hs⟩
    · rw [hs]; exact ht.plain (hold hq)
    · rw [hs]; simp
  · exact fun hq h => ht.names (hold hq) (hd.holds h).1

end

section
variable {d' : Ino} {n' : Name} {p' : List Name} (ht : fs.Tree root)
  (hp : fs.descend root p = some d) (hi : fs.lookup d n = some i)
  (hp' : fs.descend root p' = some d') (hdir : fs.sort d' = some .dir)
  (hm : fs.Moves fs' d n d' n' i) (hout : ¬(p ++ [n]) <+: p')
include ht hp hi hp' hdir hm hout

theorem descend_moved :
    fs'.descend root = moved (fs.descend root) (p ++ [n]) (p' ++ [n']) := by
  have hold : fs.descend root (p ++ [n]) = some i := by rw [descend_snoc, hp, Option.bind_some, hi]
  funext q
  -- on the length of the path; a directory met on the way has no other path
  induction q using List.reverseRecOn with
  | nil => simp [moved]
  | append_singleton q m ih =>
    rw [descend_snoc, ih]
    by_cases hnew : (p' ++ [n']) <+: q
    · obtain ⟨r, rfl⟩ := hnew
      have h1 : (p' ++ [n']) <+: p' ++ [n'] ++ r := List.prefix_append _ _
      have h2 : (p' ++ [n']) <+: p' ++ [n'] ++ r ++ [m] := h1.trans (List.prefix_append _ _)
      have h3 : (p' ++ [n'] ++ r ++ [m]).drop (p' ++ [n']).length = r ++ [m] := by
        rw [List.append_assoc _ r, List.drop_left]
      simp only [moved, if_pos h1, if_pos h2, h3, List.drop_left]
      rw [← List.append_assoc, descend_snoc]
      cases hx : fs.descend root (p ++ [n] ++ r) with
      | none => rfl
      | some x =>
        have hx1 : ¬(x = d' ∧ m = n') := by
          rintro ⟨rfl, -⟩
          exact hout ⟨r, ht.unique hdir hx hp'⟩
        have hx2 : ¬(x = d ∧ m = n) := by
          rintro ⟨rfl, -⟩
          have := congrArg List.length (ht.unique (sort_of_lookup hi) hx hp)
          simp at this
        rw [Option.bind_some, Option.bind_some, hm.lookup, if_neg hx1, if_neg hx2]
    · by_cases hqn : q ++ [m] = p' ++ [n']
      · obtain ⟨rfl, hmn⟩ := List.append_inj' hqn rfl
        obtain rfl : m = n' := by simpa using hmn
        have hself : (q ++ [m]) <+: q ++ [m] := List.prefix_refl _
        simp only [moved, if_neg hnew, if_neg hout, if_pos hself, List.drop_length,
          List.append_nil, hp',
          Option.bind_some, hm.lookup, and_self, if_true, hold]
      · have hnew' : ¬(p' ++ [n']) <+: q ++ [m] := by
          intro h
          rcases List.prefix_concat_iff.mp h with h | h
          · exact hqn h.symm
          · exact hnew h
        simp only [moved, if_neg hnew, if_neg hnew']
        by_cases hoq : (p ++ [n]) <+: q
        · rw [if_pos hoq, if_pos (hoq.trans (List.prefix_append _ _))]
          rfl
        · rw [if_neg hoq]
          cases hx : fs.descend root q with
          | none =>
            split
            · rfl
            · rw [descend_snoc, hx]; rfl
          | some x =>
            have hx1 : ¬(x = d' ∧ m = n') := by
              rintro ⟨rfl, rfl⟩
              exact hqn (by rw [ht.unique hdir hx hp'])
            rw [Option.bind_some, hm.lookup, if_neg hx1]
            by_cases hqo : q ++ [m] = p ++ [n]
            · obtain ⟨rfl, hmn⟩ := List.append_inj' hqo rfl
              obtain rfl : m = n := by simpa using hmn
              obtain rfl : x = d := Option.some.inj (hx.symm.trans hp)
              rw [if_pos ⟨rfl, rfl⟩, if_pos (List.prefix_refl _)]
            · have hx2 : ¬(x = d ∧ m = n) := by
                rintro ⟨rfl, rfl⟩
                exact hqo (by rw [ht.unique (sort_of_lookup hi) hx hp])
              have hoq' : ¬(p ++ [n]) <+: q ++ [m] := by
                intro h
                rcases List.prefix_concat_iff.mp h with h | h
                · exact hqo h.symm
                · exact hoq h
              rw [if_neg hx2, if_neg hoq', descend_snoc, hx, Option.bind_some]

theorem reached_of_moved {x : Ino} (hq : fs'.descend root q = some x) :
    ∃ q', fs.descend root q' = some x ∧ (q' = [] → q = []) := by
  rw [ht.descend_moved hp hi hp' hdir hm hout] at hq
  simp only [moved] at hq
  split at hq
  · exact ⟨_, hq, by simp⟩
  · split at hq
    · cases hq
    · exact ⟨q, hq, id⟩

/-- **An entry is moved**, and not to beneath itself. -/
theorem moved (hname : ValidName n') (hover : fs.lookup d' n' ≠ some i) : fs'.Tree root := by
  have hreach : ∀ {q x}, fs'.descend root q = some x → ∃ q', fs.descend root q' = some x ∧
      (q' = [] → q = []) := ht.reached_of_moved hp hi hp' hdir hm hout
  have hpi : fs.descend root (p ++ [n]) = some i := by rw [descend_snoc, hp, Option.bind_some, hi]
  constructor
  · rcases hm.sort root with h | ⟨h, -⟩
    · rw [h, ht.dir]
    · have : fs.descend root (p' ++ [n']) = some root := by
        rw [descend_snoc, hp', Option.bind_some, h]
      simpa using ht.loop this
  · intro x m j hj
    rcases hm.holds hj with ⟨-, -, rfl⟩ | ⟨h, -, hne⟩
    · rcases hm.sort j with hs | ⟨hl, -⟩
      · rw [hs]; exact ht.live (holds_of_lookup hi)
      · exact absurd hl hover
    · rcases hm.sort j with hs | ⟨hl, hs, -⟩
      · rw [hs]; exact ht.live h
      · exact absurd (ht.parent hs h (holds_of_lookup hl)) hne
  · intro x x' m m' j hj h h'
    have hs : fs.sort j = some .dir := by
      rcases hm.sort j with hs | ⟨-, -, hs⟩
      · rw [← hs, hj]
      · rw [hs] at hj; cases hj
    -- the old entry of `i` is gone
    have hgone : ∀ {y k}, fs.Holds y k j ∧ ¬(y = d ∧ k = n) ∧ ¬(y = d' ∧ k = n') → j ≠ i := by
      rintro y k ⟨hy, hne, -⟩ rfl
      exact hne (ht.parent hs hy (holds_of_lookup hi))
    rcases hm.holds h with ⟨rfl, rfl, e⟩ | h <;> rcases hm.holds h' with ⟨rfl, rfl, e'⟩ | h'
    · exact ⟨rfl, rfl⟩
    · exact absurd e (hgone h')
    · exact absurd e' (hgone h)
    · exact ht.parent hs h.1 h'.1
  · intro x m h
    rcases hm.holds h with ⟨-, -, e⟩ | ⟨h, -⟩
    · exact ht.top (e ▸ holds_of_lookup hi)
    · exact ht.top h
  · intro q hq
    obtain ⟨q', hq', he⟩ := hreach hq
    exact he (ht.loop hq')
  · intro q x hq
    obtain ⟨q', hq', -⟩ := hreach hq
    rcases hm.sort x with hs | ⟨-, -, hs⟩
    · rw [hs]; exact ht.plain hq'
    · rw [hs]; simp
  · intro q x m j hq hj
    obtain ⟨q', hq', -⟩ := hreach hq
    rcases hm.holds hj with ⟨-, rfl, -⟩ | ⟨h, -⟩
    · exact hname
    · exact ht.names hq' h

end

end Tree

/-! ## What is where -/

/-- The object at a path beneath the root, and what it is. -/
def view (fs : Fs) (root : Ino) (p : List Name) : Option (Ino × ObjSort) :=
  (fs.descend root p).bind fun i => (fs.sort i).map (i, ·)

theorem view_eq_some {k : ObjSort} :
    fs.view root p = some (i, k) ↔ fs.descend root p = some i ∧ fs.sort i = some k := by
  simp only [view, Option.bind_eq_some_iff, Option.map_eq_some_iff, Prod.mk.injEq]
  constructor
  · rintro ⟨x, hx, k', hk, rfl, rfl⟩
    exact ⟨hx, hk⟩
  · rintro ⟨hx, hk⟩
    exact ⟨i, hx, k, hk, rfl, rfl⟩

/-- Entries and sorts as they were. -/
structure Same (fs fs' : Fs) : Prop where
  entries : ∀ x, fs'.entries x = fs.entries x
  sort : ∀ x, fs'.sort x = fs.sort x

theorem Same.lookup (h : fs.Same fs') (x : Ino) (m : Name) : fs'.lookup x m = fs.lookup x m := by
  rw [Fs.lookup, h.entries]
  rfl

theorem Same.holds (h : fs.Same fs') : fs'.Holds x m j ↔ fs.Holds x m j := by
  rw [Holds, h.entries]
  rfl

theorem Same.descend (h : fs.Same fs') (d : Ino) : fs'.descend d = fs.descend d := by
  funext q
  induction q generalizing d with
  | nil => rfl
  | cons c cs ih =>
    rw [descend_cons, descend_cons, h.lookup]
    congr 1
    funext x
    exact ih x

theorem Same.view (h : fs.Same fs') (root : Ino) : fs'.view root = fs.view root := by
  funext p
  rw [Fs.view, Fs.view, h.descend]
  congr 1
  funext x
  rw [h.sort]

theorem Same.tree (h : fs.Same fs') (ht : fs.Tree root) : fs'.Tree root where
  dir := by rw [h.sort, ht.dir]
  live hj := by rw [h.sort]; exact ht.live (h.holds.mp hj)
  parent hj h1 h2 := ht.parent (h.sort _ ▸ hj) (h.holds.mp h1) (h.holds.mp h2)
  top hj := ht.top (h.holds.mp hj)
  loop hq := ht.loop (by rw [← h.descend]; exact hq)
  plain hq := by rw [h.sort]; exact ht.plain (by rw [← h.descend]; exact hq)
  names hq hj := ht.names (by rw [← h.descend]; exact hq) (h.holds.mp hj)

namespace Tree

theorem view_added (ht : fs.Tree root) (hp : fs.descend root p = some d) (ha : fs.Adds fs' d n i)
    (hdir : fs.sort d = some .dir) (hfree : fs.lookup d n = none) (hleaf : fs.sort i ≠ some .dir)
    {k : ObjSort} (hk : fs'.sort i = some k) (hsame : fs.sort i = none ∨ fs.sort i = some k) :
    fs'.view root = update (fs.view root) (p ++ [n]) (some (i, k)) := by
  funext q
  rw [view, ht.descend_added hp ha hdir hfree hleaf, update_apply, update_apply]
  split
  · rw [Option.bind_some, hk]; rfl
  · cases hx : fs.descend root q with
    | none => simp [view, hx]
    | some x =>
      rw [view, hx, Option.bind_some, Option.bind_some]
      by_cases e : x = i
      · subst e
        rcases hsame with h | h
        · rcases ht.sort_descend hx with h' | h' <;> rw [h] at h' <;> cases h'
        · rw [hk, h]
      · rw [ha.sort e]

theorem view_dropped (ht : fs.Tree root) (hp : fs.descend root p = some d) (hd : fs.Drops fs' d n i)
    (hi : fs.lookup d n = some i) (hleaf : ∀ m, fs.lookup i m = none) :
    fs'.view root = update (fs.view root) (p ++ [n]) none := by
  funext q
  rw [view, ht.descend_dropped hp hd hi hleaf, update_apply, update_apply]
  split
  · rfl
  · next hq =>
    cases hx : fs.descend root q with
    | none => simp [view, hx]
    | some x =>
      rw [view, hx, Option.bind_some, Option.bind_some]
      rcases hd.sort x with h | ⟨rfl, h, -⟩
      · rw [h]
      · exact absurd (ht.unique h hx (by rw [descend_snoc, hp, Option.bind_some, hi])) hq

theorem view_moved {d' : Ino} {n' : Name} {p' : List Name} (ht : fs.Tree root)
    (hp : fs.descend root p = some d) (hi : fs.lookup d n = some i)
    (hp' : fs.descend root p' = some d') (hdir : fs.sort d' = some .dir)
    (hm : fs.Moves fs' d n d' n' i) (hout : ¬(p ++ [n]) <+: p') (hover : fs.lookup d' n' ≠ some i) :
    fs'.view root = Fs.moved (fs.view root) (p ++ [n]) (p' ++ [n']) := by
  -- the directory that was moved over is at no path any more
  have hsort : ∀ {q x}, fs.descend root q = some x → q ≠ p' ++ [n'] → fs'.sort x = fs.sort x := by
    intro q x hq hne
    rcases hm.sort x with h | ⟨hl, h, -⟩
    · exact h
    · exact absurd (ht.unique h hq (by rw [descend_snoc, hp', Option.bind_some, hl])) hne
  have hview : ∀ q, q ≠ p' ++ [n'] →
      ((fs.descend root q).bind fun x => (fs'.sort x).map (x, ·)) = fs.view root q := by
    intro q hne
    rw [view]
    cases hx : fs.descend root q with
    | none => rfl
    | some x => rw [Option.bind_some, Option.bind_some, hsort hx hne]
  funext q
  rw [view, ht.descend_moved hp hi hp' hdir hm hout, Fs.moved, Fs.moved]
  split
  · refine hview _ fun e => ?_
    rcases List.prefix_concat_iff.mp ⟨_, e⟩ with h | h
    · have hpi : fs.descend root (p ++ [n]) = some i := by
        rw [descend_snoc, hp, Option.bind_some, hi]
      rw [h, descend_snoc, hp', Option.bind_some] at hpi
      exact hover hpi
    · exact hout h
  · next hq =>
    split
    · rfl
    · exact hview q fun e => hq (e ▸ List.prefix_refl _)

end Tree

end Fs

end QuicFs.Server
