import QuicFs.Lib.Store
import QuicFs.Server.Calls
import QuicFs.Server.Tree

/-!
# The directory operations as edits of the tree

What `create`, `unlinkat`, `linkat` and `renameat` of `Sys.lean` do to the entries, each as
one of the edits of `Tree.lean`. `mem_stackOf`: the check of `renameat`, which climbs from
the destination to `/`, finds every directory the destination is beneath.
-/

namespace QuicFs.Server.Fs

open Lib Function

variable {fs fs' : Fs} {root d i j x : Ino} {n m : Name} {p : List Name}

theorem nodes_set (h : i < fs.next) (node : Option Node) :
    (fs.set i node).nodes x = if x = i then node else fs.nodes x := by simp [set, h]

section
variable {es : List (Name × Ino)} (hd : fs.sort d = some .dir)
include hd

theorem nodes_setEntries : (fs.setEntries d es).nodes x =
    if x = d then (fs.nodes d).map ({ · with kind := .dir es }) else fs.nodes x :=
  nodes_set (lt_next_of_sort hd) _

theorem sort_setEntries (x : Ino) : (fs.setEntries d es).sort x = fs.sort x := by
  unfold sort kind
  rw [nodes_setEntries hd]
  split
  · next e =>
    subst e
    unfold sort kind at hd
    cases hn : fs.nodes x with
    | none => rfl
    | some node => rw [hn] at hd; simpa [Kind.sort] using hd.symm
  · rfl

theorem entries_setEntries (x : Ino) : (fs.setEntries d es).entries x =
    if x = d then some es else fs.entries x := by
  unfold entries kind
  rw [nodes_setEntries hd]
  by_cases e : x = d
  · subst e
    cases hn : fs.nodes x with
    | none => rw [sort_eq_none.mpr hn] at hd; cases hd
    | some node => simp
  · simp [e]

theorem lookup_addEntry (x : Ino) (m : Name) : (fs.addEntry d n i).lookup x m =
    if x = d ∧ m = n then (fs.lookup d n).or (some i) else fs.lookup x m := by
  obtain ⟨es, he⟩ := entries_of_sort hd
  unfold addEntry lookup
  rw [entries_setEntries hd, he]
  by_cases e : x = d
  · subst e
    by_cases em : m = n
    · subst em
      simp [List.lookup_append]
    · have hb : (m == n) = false := by simpa using em
      simp [List.lookup_append, List.lookup_cons, hb, em, he]
  · simp [e]

theorem holds_addEntry {x : Ino} {m : Name} {j : Ino} : (fs.addEntry d n i).Holds x m j ↔
    fs.Holds x m j ∨ (x = d ∧ m = n ∧ j = i) := by
  obtain ⟨es, he⟩ := entries_of_sort hd
  unfold addEntry Holds
  rw [entries_setEntries hd, he]
  by_cases e : x = d
  · subst e; simp [he]
  · simp [e]

theorem lookup_dropEntry (x : Ino) (m : Name) : (fs.dropEntry d n).lookup x m =
    if x = d ∧ m = n then none else fs.lookup x m := by
  obtain ⟨es, he⟩ := entries_of_sort hd
  unfold dropEntry lookup
  rw [entries_setEntries hd, he]
  by_cases e : x = d
  · subst e
    simp only [true_and, if_true, Option.getD_some, Option.bind_some, he]
    have := lookup_filter_key (fun k => decide (k ≠ n)) m es
    by_cases em : m = n
    · simpa [em] using this
    · simpa [em] using this
  · simp [e]

theorem holds_dropEntry {x : Ino} {m : Name} {j : Ino} : (fs.dropEntry d n).Holds x m j ↔
    fs.Holds x m j ∧ ¬(x = d ∧ m = n) := by
  obtain ⟨es, he⟩ := entries_of_sort hd
  unfold dropEntry Holds
  rw [entries_setEntries hd, he]
  by_cases e : x = d
  · subst e; simp [he]
  · simp [e]

end

section
variable {node : Node} (hleaf : node.kind.Leaf)

theorem sort_alloc (x : Ino) : (fs.alloc node).sort x =
    if x = fs.next then some node.kind.sort else fs.sort x := by
  simp only [sort, kind, alloc]
  split <;> rfl

include hleaf

theorem entries_alloc (x : Ino) : ((fs.alloc node).entries x).getD [] = (fs.entries x).getD [] := by
  simp only [entries, kind, alloc]
  by_cases e : x = fs.next
  · subst e
    have hnone := fs.fresh fs.next (Nat.le_refl _)
    cases hk : node.kind with
    | dir es => rw [hk] at hleaf; simp [hk, hnone, show es = [] from hleaf]
    | file _ => simp [hk, hnone]
    | symlink _ => simp [hk, hnone]
  · simp [e]

end

theorem lookup_eq_getD (fs : Fs) (x : Ino) (m : Name) :
    fs.lookup x m = ((fs.entries x).getD []).lookup m := by
  unfold lookup
  cases fs.entries x <;> simp

theorem holds_iff_getD : fs.Holds x m j ↔ (m, j) ∈ (fs.entries x).getD [] := by
  unfold Holds
  cases fs.entries x <;> simp

theorem create_adds (hd : fs.sort d = some .dir) (hfree : fs.lookup d n = none) {k : Kind}
    (hleaf : k.Leaf) (mode : Nat) : fs.Adds (fs.create d n k mode) d n fs.next ∧
      (fs.create d n k mode).sort fs.next = some k.sort := by
  have hne : d ≠ fs.next := Nat.ne_of_lt (lt_next_of_sort hd)
  have hd' : (fs.alloc ⟨k, mode, 0, 0⟩).sort d = some .dir := by rw [sort_alloc, if_neg hne, hd]
  have hent := @entries_alloc fs ⟨k, mode, 0, 0⟩ hleaf
  refine ⟨⟨fun x m => ?_, fun {x m j} h => ?_, fun {x} hx => ?_⟩, ?_⟩
  · rw [create, lookup_addEntry hd', lookup_eq_getD, lookup_eq_getD _ x, hent, hent,
      ← lookup_eq_getD, ← lookup_eq_getD, hfree]
    rfl
  · rcases (holds_addEntry hd').mp h with h | h
    · rw [holds_iff_getD, hent, ← holds_iff_getD] at h
      exact .inl h
    · exact .inr h
  · rw [create, addEntry, sort_setEntries hd', sort_alloc, if_neg hx]
  · rw [create, addEntry, sort_setEntries hd', sort_alloc, if_pos rfl]

theorem entries_set_none (hj : fs.entries j = some []) (x : Ino) :
    ((fs.set j none).entries x).getD [] = (fs.entries x).getD [] := by
  have hlt := lt_next_of_sort (sort_of_entries hj)
  by_cases e : x = j
  · subst e
    rw [hj]
    simp [entries, kind, nodes_set hlt]
  · simp [entries, kind, nodes_set hlt, e]

theorem sort_set_none (hj : fs.sort j = some .dir) (x : Ino) :
    (fs.set j none).sort x = if x = j then none else fs.sort x := by
  unfold sort kind
  rw [nodes_set (lt_next_of_sort hj)]
  split <;> rfl

theorem lookup_leaf (hj : fs.entries j = some [] ∨ fs.entries j = none) (m : Name) :
    fs.lookup j m = none := by
  rcases hj with h | h <;> simp [lookup, h]

/-- **`unlinkat` removes one entry**, of an object that holds nothing. -/
theorem unlinkat_drops {removeDir : Bool} (h : fs.unlinkat d n removeDir = .ok fs') :
    ∃ i, fs.lookup d n = some i ∧ (∀ m, fs.lookup i m = none) ∧ fs.Drops fs' d n i := by
  obtain ⟨i, hi, ⟨he, rfl⟩ | ⟨he, rfl⟩⟩ := unlinkat_eq_ok h
  · have hd := sort_of_lookup hi
    exact ⟨i, hi, lookup_leaf (.inr he), lookup_dropEntry hd, (holds_dropEntry hd).mp,
      fun x => .inl (sort_setEntries hd x)⟩
  · have hd := sort_of_lookup hi
    have hne : i ≠ d := by
      rintro rfl
      rw [lookup_leaf (.inl he)] at hi
      cases hi
    have he' : (fs.dropEntry d n).entries i = some [] := by
      rw [dropEntry, entries_setEntries hd, if_neg hne, he]
    have hent := entries_set_none he'
    refine ⟨i, hi, lookup_leaf (.inl he), fun x m => ?_, fun {x m j} h => ?_, fun x => ?_⟩
    · rw [lookup_eq_getD, hent, ← lookup_eq_getD, lookup_dropEntry hd]
    · rw [holds_iff_getD, hent, ← holds_iff_getD] at h
      exact (holds_dropEntry hd).mp h
    · rw [sort_set_none (sort_of_entries he')]
      split
      · next e => exact .inr ⟨e, e ▸ sort_of_entries he, rfl⟩
      · exact .inl (sort_setEntries hd x)

/-- **`linkat` adds one entry**, for a file. -/
theorem linkat_adds {d' : Ino} {n' : Name} (h : fs.linkat d n d' n' = .ok fs') :
    ∃ i, fs.lookup d n = some i ∧ fs.sort i ≠ some .dir ∧ fs.sort d' = some .dir ∧
      fs.lookup d' n' = none ∧ fs.Adds fs' d' n' i ∧ fs'.sort i = fs.sort i := by
  obtain ⟨i, hi, hd', hfree, hfile, rfl⟩ := linkat_eq_ok h
  replace hd' : fs.sort d' = some .dir := isDir_iff_sort.mp hd'
  refine ⟨i, hi, fun e => ?_, hd', hfree, ⟨fun x m => ?_, (holds_addEntry hd').mp,
    fun _ => sort_setEntries hd' _⟩, sort_setEntries hd' _⟩
  · cases hfile.symm.trans (isDir_iff_sort.mpr e)
  · rw [lookup_addEntry hd', hfree]
    rfl

theorem moveEntry_moves {d' : Ino} (n' : Name) (hi : fs.lookup d n = some i)
    (hd' : fs.sort d' = some .dir) : fs.Moves (fs.moveEntry d n d' n' i) d n d' n' i ∧
      ∀ x, (fs.moveEntry d n d' n' i).sort x = fs.sort x := by
  have hd := sort_of_lookup hi
  have h1 : (fs.dropEntry d n).sort d' = some .dir := by rw [dropEntry, sort_setEntries hd, hd']
  have h2 : ((fs.dropEntry d n).dropEntry d' n').sort d' = some .dir := by
    rw [dropEntry, sort_setEntries h1, h1]
  have hsort : ∀ x, (fs.moveEntry d n d' n' i).sort x = fs.sort x := by
    intro x
    rw [moveEntry, addEntry, sort_setEntries h2, dropEntry, sort_setEntries h1, dropEntry,
      sort_setEntries hd]
  refine ⟨⟨fun x m => ?_, fun {x m j} h => ?_, fun x => .inl (hsort x)⟩, hsort⟩
  · have h3 : ((fs.dropEntry d n).dropEntry d' n').lookup d' n' = none := by
      rw [lookup_dropEntry h1, if_pos ⟨rfl, rfl⟩]
    rw [moveEntry, lookup_addEntry h2, h3, lookup_dropEntry h1, lookup_dropEntry hd]
    split <;> rfl
  · rcases (holds_addEntry h2).mp h with h | h
    · obtain ⟨h, hne'⟩ := (holds_dropEntry h1).mp h
      obtain ⟨h, hne⟩ := (holds_dropEntry hd).mp h
      exact .inr ⟨h, hne, hne'⟩
    · exact .inl h

theorem entries_moveEntry_leaf {d' : Ino} {n' : Name} (hi : fs.lookup d n = some i)
    (hj : fs.lookup d' n' = some j) (hempty : fs.entries j = some []) :
    (fs.moveEntry d n d' n' i).entries j = some [] := by
  have hleaf : ∀ m, fs.lookup j m = none := lookup_leaf (.inl hempty)
  have hd := sort_of_lookup hi
  have h1 : (fs.dropEntry d n).sort d' = some .dir := by
    rw [dropEntry, sort_setEntries hd, sort_of_lookup hj]
  have h2 : ((fs.dropEntry d n).dropEntry d' n').sort d' = some .dir := by
    rw [dropEntry, sort_setEntries h1, h1]
  have hne : j ≠ d := by
    rintro rfl
    rw [hleaf] at hi
    cases hi
  have hne' : j ≠ d' := by
    rintro rfl
    rw [hleaf] at hj
    cases hj
  rw [moveEntry, addEntry, entries_setEntries h2, if_neg hne', dropEntry, entries_setEntries h1,
    if_neg hne', dropEntry, entries_setEntries hd, if_neg hne, hempty]

/-- **`renameat` moves one entry**, if it does anything: two names of one file stay. -/
theorem renameat_moves {d' : Ino} {n' : Name} (h : fs.renameat d n d' n' = .ok fs') :
    ∃ i, fs.lookup d n = some i ∧ fs.sort d' = some .dir ∧
      (fs' = fs ∧ fs.lookup d' n' = some i ∨
        fs.lookup d' n' ≠ some i ∧ fs.Moves fs' d n d' n' i ∧
          (∀ j, fs.lookup d' n' = some j → ∀ m, fs.lookup j m = none) ∧
          (fs.sort i = some .dir → i ∉ (fs.stackOf fs.next d').map Prod.snd)) := by
  obtain ⟨i, hi, hd', hout, hren⟩ := renameat_eq_ok h
  replace hd' : fs.sort d' = some .dir := isDir_iff_sort.mp hd'
  replace hout : fs.sort i = some .dir → i ∉ (fs.stackOf fs.next d').map Prod.snd :=
    fun hs => hout (isDir_iff_sort.mpr hs)
  obtain ⟨hmove, hsort⟩ := moveEntry_moves n' hi hd'
  refine ⟨i, hi, hd', ?_⟩
  cases hren with
  | free hj => exact .inr ⟨by simp [hj], hmove, by simp [hj], hout⟩
  | same hj => exact .inl ⟨rfl, hj⟩
  | file hj e hes =>
    refine .inr ⟨fun e' => e (Option.some.inj (e'.symm.trans hj)), hmove, fun k hk => ?_, hout⟩
    obtain rfl := Option.some.inj (hj.symm.trans hk)
    exact lookup_leaf (.inr hes)
  | @dir j hj e hes =>
    have he := entries_moveEntry_leaf (i := i) hi hj hes
    have hent := entries_set_none he
    refine .inr ⟨fun e' => e (Option.some.inj (e'.symm.trans hj)),
      ⟨fun x m => ?_, fun {x m k} h => ?_, fun x => ?_⟩, fun k hk => ?_, hout⟩
    · rw [lookup_eq_getD, hent, ← lookup_eq_getD, hmove.lookup]
    · rw [holds_iff_getD, hent, ← holds_iff_getD] at h
      exact hmove.holds h
    · rw [sort_set_none (sort_of_entries he)]
      split
      · next e => exact .inr ⟨by rw [hj, e], e ▸ sort_of_entries hes, rfl⟩
      · exact .inl (hsort x)
    · obtain rfl := Option.some.inj (hj.symm.trans hk)
      exact lookup_leaf (.inl hes)

/-! ## The way up from a directory -/

theorem parentOf_holds (h : fs.parentOf d = some (x, n)) : fs.Holds x n d := by
  obtain ⟨y, -, hy⟩ := List.exists_of_findSome?_eq_some h
  obtain ⟨e, he, hy⟩ := List.exists_of_findSome?_eq_some hy
  split at hy
  · next hd =>
    obtain ⟨rfl, rfl⟩ := Prod.mk.inj (Option.some.inj hy)
    exact holds_iff_getD.mpr (hd ▸ he)
  · cases hy

theorem parentOf_isSome (h : fs.Holds x n d) : fs.parentOf d ≠ none := by
  intro hnone
  have hx : x ∈ List.range fs.next := List.mem_range.mpr (lt_next_of_sort (sort_of_holds h))
  have h1 := List.findSome?_eq_none_iff.mp hnone x hx
  have h2 := List.findSome?_eq_none_iff.mp h1 _ (holds_iff_getD.mp h)
  simp at h2

namespace Tree

variable {r : List Name}

theorem parentOf_eq (ht : fs.Tree root) (hd : fs.sort d = some .dir) (h : fs.Holds x n d) :
    fs.parentOf d = some (x, n) := by
  obtain ⟨⟨y, m⟩, hy⟩ := Option.ne_none_iff_exists'.mp (parentOf_isSome h)
  obtain ⟨rfl, rfl⟩ := ht.parent hd h (parentOf_holds hy)
  exact hy

theorem mem_stackOf_of_lt (ht : fs.Tree root) (hp : fs.descend root (p ++ [n]) = some i) :
    ∀ {fuel : Nat} {x : Ino}, r.length < fuel → fs.descend root (p ++ [n] ++ r) = some x →
      fs.sort x = some .dir → i ∈ (fs.stackOf fuel x).map Prod.snd := by
  induction r using List.reverseRecOn with
  | nil =>
    intro fuel x hfuel hx hdir
    obtain ⟨k, rfl⟩ : ∃ k, fuel = k + 1 := ⟨fuel - 1, by omega⟩
    obtain rfl : i = x := by rw [List.append_nil, hp] at hx; exact Option.some.inj hx
    obtain ⟨y, -, hy⟩ := parent_of_descend hp
    have hne : i ≠ slash := fun e => ht.top (e ▸ holds_of_lookup hy)
    simp [stackOf, hne, ht.parentOf_eq hdir (holds_of_lookup hy)]
  | append_singleton r m ih =>
    intro fuel x hfuel hx hdir
    rw [List.length_append, List.length_singleton] at hfuel
    obtain ⟨k, rfl⟩ : ∃ k, fuel = k + 1 := ⟨fuel - 1, by omega⟩
    rw [← List.append_assoc] at hx
    obtain ⟨y, hy, hl⟩ := parent_of_descend hx
    have hne : x ≠ slash := fun e => ht.top (e ▸ holds_of_lookup hl)
    have := @ih k y (by omega) hy (sort_of_lookup hl)
    simp only [stackOf, hne, if_false, ht.parentOf_eq hdir (holds_of_lookup hl), List.map_cons,
      List.mem_cons]
    exact .inr this

theorem length_lt_next (ht : fs.Tree root) (hx : fs.descend root (p ++ r) = some x)
    (hdir : fs.sort x = some .dir) : r.length < fs.next := by
  have hway : ∀ k, ∃ y, fs.descend root (p ++ r.take k) = some y ∧ fs.sort y = some .dir := by
    intro k
    rw [← List.take_append_drop k r, ← List.append_assoc, descend_append] at hx
    obtain ⟨y, hy, hd⟩ := Option.bind_eq_some_iff.mp hx
    refine ⟨y, by simpa using hy, ?_⟩
    cases hr : r.drop k with
    | nil =>
      rw [hr] at hd
      obtain rfl : y = x := by simpa using hd
      exact hdir
    | cons c cs =>
      rw [hr, descend_cons] at hd
      obtain ⟨z, hz, -⟩ := Option.bind_eq_some_iff.mp hd
      exact sort_of_lookup hz
  choose f hf hfd using hway
  have hcard : (Finset.range (r.length + 1)).card ≤ (Finset.range fs.next).card := by
    refine Finset.card_le_card_of_injOn f (fun k _ => ?_) fun k hk l hl e => ?_
    · exact Finset.mem_coe.mpr (Finset.mem_range.mpr (lt_next_of_sort (hfd k)))
    · have := ht.unique (hfd k) (hf k) (e ▸ hf l)
      have := congrArg List.length (List.append_cancel_left this)
      simp only [Finset.coe_range, Set.mem_Iio] at hk hl
      rw [List.length_take, List.length_take] at this
      omega
  simpa using hcard

/-- **A directory is found on the way up from all that is beneath it.** -/
theorem mem_stackOf (ht : fs.Tree root) (hp : fs.descend root (p ++ [n]) = some i)
    (hx : fs.descend root (p ++ [n] ++ r) = some x) (hdir : fs.sort x = some .dir) :
    i ∈ (fs.stackOf fs.next x).map Prod.snd :=
  ht.mem_stackOf_of_lt hp (ht.length_lt_next hx hdir) hx hdir

end Tree

/-! ## The operations on the view -/

theorem Tree.view_eq_none_iff (ht : fs.Tree root) {p : List Name} :
    fs.view root p = none ↔ fs.descend root p = none := by
  constructor
  · intro hv
    cases hd : fs.descend root p with
    | none => rfl
    | some i =>
      rcases ht.sort_descend hd with hk | hk <;> rw [view_eq_some.mpr ⟨hd, hk⟩] at hv <;> cases hv
  · intro hd
    rw [view, hd]
    rfl

theorem view_below_leaf (hp : fs.descend root p = some i)
    (hleaf : ∀ m, fs.lookup i m = none) (c : Name) (q : List Name) :
    fs.view root (p ++ c :: q) = none := by
  rw [view, descend_append, hp, Option.bind_some, descend_cons, hleaf]
  rfl

/-- What a new object is entered in. -/
structure NewAt (fs : Fs) (root : Ino) (path : List Name) (d : Ino) (name : Name) : Prop where
  parent : ∃ p, path = p ++ [name] ∧ fs.descend root p = some d
  dir : fs.sort d = some .dir
  free : fs.lookup d name = none
  valid : ValidName name

/-- **A new file or an empty new directory** is at its path and changes nothing else. -/
theorem Tree.created (ht : fs.Tree root) {path : List Name} {d : Ino} {name : Name}
    (hnew : NewAt fs root path d name) {k : Kind} (hleaf : k.Leaf) (hk : k.sort ≠ .link)
    (mode : Nat) :
    (fs.create d name k mode).Tree root ∧ fs.view root path = none ∧
      (fs.create d name k mode).view root =
        update (fs.view root) path (some (fs.next, k.sort)) := by
  obtain ⟨⟨p, rfl, hp⟩, hdir, hfree, hvalid⟩ := hnew
  obtain ⟨hadds, hsort⟩ := create_adds hdir hfree hleaf mode
  have hnone : fs.sort fs.next = none := sort_eq_none.mpr (fs.fresh _ (Nat.le_refl _))
  have hndir : fs.sort fs.next ≠ some .dir := by simp [hnone]
  have hslash : fs.next ≠ slash := Nat.ne_of_gt (Nat.zero_lt_of_lt (lt_next_of_sort ht.dir))
  have hfd : (fs.create d name k mode).sort fs.next = some .file ∨
      (fs.create d name k mode).sort fs.next = some .dir ∧ fs.sort fs.next = none := by
    rw [hsort]
    cases hks : k.sort with
    | file => exact .inl rfl
    | dir => exact .inr ⟨rfl, hnone⟩
    | link => exact absurd hks hk
  refine ⟨ht.added hp hadds hdir hvalid hfree hndir hslash hfd, ?_,
    ht.view_added hp hadds hdir hfree hndir hsort (.inl hnone)⟩
  rw [view, descend_snoc, hp, Option.bind_some, hfree]
  rfl

theorem NewAt.entered {fs fs' : Fs} {root : Ino} {path : List Name} {d i : Ino} {name : Name}
    {k : ObjSort} (hnew : NewAt fs root path d name)
    (hview : fs'.view root = update (fs.view root) path (some (i, k))) :
    fs'.descend root path.dropLast = some d ∧ fs'.lookup d name = some i := by
  obtain ⟨⟨p, rfl, hp⟩, hdir, -, -⟩ := hnew
  have hpd : fs'.descend root p = some d := by
    refine (view_eq_some (k := .dir).mp ?_).1
    rw [hview, update_of_ne (by simp)]
    exact view_eq_some.mpr ⟨hp, hdir⟩
  have hpi : fs'.view root (p ++ [name]) = some (i, k) := by rw [hview, update_self]
  obtain ⟨x, hx, hl⟩ := parent_of_descend (view_eq_some.mp hpi).1
  obtain rfl : d = x := Option.some.inj (hpd.symm.trans hx)
  exact ⟨by simpa using hpd, hl⟩

theorem same_modify {fs : Fs} {i : Ino} {node : Node} (hnode : fs.nodes i = some node)
    {f : Node → Node} (hf : (f node).kind = node.kind) :
    ∃ fs', fs.modify i f = .ok fs' ∧ fs.Same fs' := by
  have hlt := lt_next_of_sort (sort_of_node hnode)
  have hkind : ∀ x, (fs.set i (some (f node))).kind x = fs.kind x := by
    intro x
    simp only [kind, nodes_set hlt]
    split
    · next e => rw [e, hnode]; exact congrArg some hf
    · rfl
  refine ⟨fs.set i (some (f node)), by rw [modify, hnode], fun x => ?_, fun x => ?_⟩
  · rw [entries, hkind]; rfl
  · rw [sort, hkind]; rfl

theorem same_set_file {node node' : Node} {data data' : Bytes} (hnode : fs.nodes i = some node)
    (hk : node.kind = .file data) (hk' : node'.kind = .file data') :
    fs.Same (fs.set i (some node')) := by
  have hlt := lt_next_of_sort (sort_of_node hnode)
  constructor
  · intro x
    by_cases e : x = i
    · simp [entries, kind, nodes_set hlt, e, hnode, hk, hk']
    · simp [entries, kind, nodes_set hlt, e]
  · intro x
    by_cases e : x = i
    · simp [sort, kind, nodes_set hlt, e, hnode, hk, hk', Kind.sort]
    · simp [sort, kind, nodes_set hlt, e]

theorem Tree.node_of_descend (ht : fs.Tree root)
    (h : fs.descend root p = some i) : ∃ node, fs.nodes i = some node := by
  refine Option.ne_none_iff_exists'.mp fun e => ?_
  rcases ht.sort_descend h with h' | h' <;> rw [sort_eq_none.mpr e] at h' <;> cases h'

/-- **`unlinkat` on the view.** -/
theorem Tree.removed (ht : fs.Tree root) (hp : fs.descend root p = some d) {removeDir : Bool}
    (h : fs.unlinkat d n removeDir = .ok fs') : fs'.Tree root ∧
      fs'.view root = update (fs.view root) (p ++ [n]) none ∧
      ∀ c q, fs.view root (p ++ [n] ++ c :: q) = none := by
  obtain ⟨i, hi, hleaf, hdrop⟩ := unlinkat_drops h
  refine ⟨ht.dropped hp hdrop hi hleaf, ht.view_dropped hp hdrop hi hleaf, ?_⟩
  exact view_below_leaf (by rw [descend_snoc, hp, Option.bind_some, hi]) hleaf

/-- **`linkat` on the view.** -/
theorem Tree.linked {d' : Ino} {n' : Name} {p' : List Name} (ht : fs.Tree root)
    (hp : fs.descend root p = some d) (hp' : fs.descend root p' = some d') (hname : ValidName n')
    (h : fs.linkat d n d' n' = .ok fs') : fs'.Tree root ∧ fs.view root (p' ++ [n']) = none ∧
      ∃ i, fs.view root (p ++ [n]) = some (i, .file) ∧
        fs'.view root = update (fs.view root) (p' ++ [n']) (some (i, .file)) := by
  obtain ⟨i, hi, hndir, hdir, hfree, hadds, hsort⟩ := linkat_adds h
  have hpi : fs.descend root (p ++ [n]) = some i := by rw [descend_snoc, hp, Option.bind_some, hi]
  have hfile : fs.sort i = some .file := (ht.sort_descend hpi).resolve_left hndir
  have hslash : i ≠ slash := fun e => ht.top (e ▸ holds_of_lookup hi)
  refine ⟨ht.added hp' hadds hdir hname hfree hndir hslash (.inl (hsort.trans hfile)), ?_, i,
    view_eq_some.mpr ⟨hpi, hfile⟩,
    ht.view_added hp' hadds hdir hfree hndir (hsort.trans hfile) (.inr hfile)⟩
  rw [ht.view_eq_none_iff, descend_snoc, hp', Option.bind_some, hfree]

theorem Tree.not_isPrefix {d' : Ino} {p' : List Name} (ht : fs.Tree root)
    (hpi : fs.descend root (p ++ [n]) = some i) (hp' : fs.descend root p' = some d')
    (hdir : fs.sort d' = some .dir)
    (hout : fs.sort i = some .dir → i ∉ (fs.stackOf fs.next d').map Prod.snd) :
    ¬(p ++ [n]) <+: p' := by
  rintro ⟨r, rfl⟩
  have hi : fs.sort i = some .dir := by
    rw [descend_append, hpi, Option.bind_some] at hp'
    cases r with
    | nil =>
      obtain rfl : i = d' := by simpa using hp'
      exact hdir
    | cons c cs =>
      rw [descend_cons] at hp'
      obtain ⟨x, hx, -⟩ := Option.bind_eq_some_iff.mp hp'
      exact sort_of_lookup hx
  exact hout hi (ht.mem_stackOf hpi hp' hdir)

/-- **`renameat` on the view.** -/
theorem Tree.renamed {d' : Ino} {n' : Name} {p' : List Name} (ht : fs.Tree root)
    (hp : fs.descend root p = some d) (hp' : fs.descend root p' = some d') (hname : ValidName n')
    (h : fs.renameat d n d' n' = .ok fs') : fs'.Tree root ∧ ∃ x, fs.view root (p ++ [n]) = some x ∧
      (fs' = fs ∧ fs.view root (p' ++ [n']) = some x ∨
        fs'.view root = Fs.moved (fs.view root) (p ++ [n]) (p' ++ [n']) ∧
        ∀ c q, fs.view root (p' ++ [n'] ++ c :: q) = none) := by
  obtain ⟨i, hi, hdir, hcase⟩ := renameat_moves h
  have hpi : fs.descend root (p ++ [n]) = some i := by rw [descend_snoc, hp, Option.bind_some, hi]
  obtain ⟨k, hk⟩ : ∃ k, fs.sort i = some k := by
    rcases ht.sort_descend hpi with h | h <;> exact ⟨_, h⟩
  rcases hcase with ⟨rfl, hj⟩ | ⟨hover, hmove, hleaf, hout⟩
  · refine ⟨ht, (i, k), view_eq_some.mpr ⟨hpi, hk⟩, .inl ⟨rfl, view_eq_some.mpr ⟨?_, hk⟩⟩⟩
    rw [descend_snoc, hp', Option.bind_some, hj]
  · have hnot := ht.not_isPrefix hpi hp' hdir hout
    refine ⟨ht.moved hp hi hp' hdir hmove hnot hname hover, (i, k), view_eq_some.mpr ⟨hpi, hk⟩,
      .inr ⟨ht.view_moved hp hi hp' hdir hmove hnot hover, fun c q => ?_⟩⟩
    cases hj : fs.lookup d' n' with
    | none =>
      rw [ht.view_eq_none_iff, descend_append, descend_snoc, hp', Option.bind_some, hj]
      rfl
    | some j =>
      exact view_below_leaf (by rw [descend_snoc, hp', Option.bind_some, hj]) (hleaf j hj) c q

end QuicFs.Server.Fs
