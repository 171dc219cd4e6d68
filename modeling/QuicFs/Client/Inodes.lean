import QuicFs.Client.Files

/-!
# The inode table over its whole history

`get_or_alloc`, `remove_path` and `rename_ino` in any order on a fresh table. The two maps
are inverse, equal paths being one, for as long as no rename goes over a path that has an
inode already (`bijective_iff`): `rename_ino` takes the new path away from its old inode in
one map and leaves it in the other (`renamed_over_stays`). The counter only grows, so no
number is allocated twice whatever happens.
-/

namespace QuicFs.Client.InodeTable

open Function

/-- A call on the table. -/
inductive Call where
  | getOrAlloc (path : Path)
  | removePath (path : Path)
  | renameIno (old new : Path)
  deriving DecidableEq, Repr

def Call.exec (t : InodeTable) : Call → InodeTable
  | .getOrAlloc path => (t.getOrAlloc path).2
  | .removePath path => t.removePath path
  | .renameIno old new => t.renameIno old new

def runCalls (t : InodeTable) (calls : List Call) : InodeTable := calls.foldl Call.exec t

def Call.fresh? (t : InodeTable) : Call → Option FuseIno
  | .getOrAlloc path =>
    if t.pathToIno (pathComponents path) = none then some (t.getOrAlloc path).1 else none
  | _ => none

def allocated (t : InodeTable) : List Call → List FuseIno
  | [] => []
  | c :: cs => (c.fresh? t).toList ++ allocated (c.exec t) cs

def keyOf (t : InodeTable) (ino : FuseIno) : Option (List Name) := (t.pathOf ino).map pathComponents

/-- The two maps are inverse and the root inode has the root's path. -/
def Bijective (root : Path) (t : InodeTable) : Prop :=
  (∀ key ino, t.pathToIno key = some ino ↔ t.keyOf ino = some key) ∧
    t.keyOf rootIno = some (pathComponents root)

/-- The call leaves the root alone and moves no path over one that has an inode. -/
def Call.Clear (root : Path) (t : InodeTable) : Call → Prop
  | .getOrAlloc _ => True
  | .removePath path => pathComponents path ≠ pathComponents root
  | .renameIno old new =>
    t.pathToIno (pathComponents old) = none ∨ pathComponents old = pathComponents new ∨
      (t.pathToIno (pathComponents new) = none ∧ pathComponents old ≠ pathComponents root)

/-- Every call of the run is clear in the table it finds. -/
def AllClear (root : Path) (t : InodeTable) : List Call → Prop
  | [] => True
  | c :: cs => c.Clear root t ∧ AllClear root (c.exec t) cs

/-- Numbers from the counter on are unused. -/
structure Bounded (t : InodeTable) : Prop where
  inos : ∀ ino, t.next ≤ ino → t.inoToPath ino = none
  paths : ∀ key ino, t.pathToIno key = some ino → ino < t.next

section
variable {t : InodeTable} {ino : FuseIno} {p : Path} {key : List Name}

theorem keyOf_eq_some :
    t.keyOf ino = some key ↔ ∃ p, t.pathOf ino = some p ∧ pathComponents p = key :=
  Option.map_eq_some_iff

theorem keyOf_of_pathOf (h : t.pathOf ino = some p) : t.keyOf ino = some (pathComponents p) := by
  rw [keyOf, h]
  rfl

theorem keyOf_update (t : InodeTable) (i : FuseIno) (path : Option Path)
    (m : List Name → Option FuseIno) (n : FuseIno) :
    (InodeTable.mk (update t.inoToPath i path) m n).keyOf =
      update t.keyOf i (path.map pathComponents) := by
  funext j
  simp only [keyOf, pathOf, update_apply]
  split <;> rfl

theorem pathOf_getOrAlloc {path : Path} (h : (t.getOrAlloc path).2.pathOf ino = some p) :
    t.pathOf ino = some p ∨ ino = t.next ∧ p = path := by
  unfold getOrAlloc at h
  split at h
  · exact .inl h
  · simp only [pathOf, update_apply] at h
    split at h
    · next e => exact .inr ⟨e, (Option.some.inj h).symm⟩
    · exact .inl h

theorem pathToIno_getOrAlloc_self (t : InodeTable) (path : Path) :
    (t.getOrAlloc path).2.pathToIno (pathComponents path) ≠ none := by
  unfold getOrAlloc
  split
  · next h => simp [h]
  · simp

theorem pathToIno_getOrAlloc (path : Path) (h : t.pathToIno key ≠ none) :
    (t.getOrAlloc path).2.pathToIno key ≠ none := by
  unfold getOrAlloc
  split
  · exact h
  · simp only [update_apply]
    split
    · exact fun e => by cases e
    · exact h

theorem pathOf_removePath {path : Path} (h : (t.removePath path).pathOf ino = some p) :
    t.pathOf ino = some p := by
  unfold removePath at h
  split at h
  · exact h
  · simp only [pathOf, update_apply] at h
    split at h
    · cases h
    · exact h

theorem pathOf_renameIno {old new : Path} (h : (t.renameIno old new).pathOf ino = some p) :
    t.pathOf ino = some p ∨ t.pathToIno (pathComponents old) = some ino ∧ p = new := by
  unfold renameIno at h
  split at h
  · exact .inl h
  · next i hi =>
    simp only [pathOf, update_apply] at h
    split at h
    · next e => exact .inr ⟨by rw [hi, e], (Option.some.inj h).symm⟩
    · exact .inl h

theorem pathToIno_removePath {path : Path} (hne : key ≠ pathComponents path) :
    (t.removePath path).pathToIno key = t.pathToIno key := by
  unfold removePath
  split
  · rfl
  · exact update_of_ne hne ..

theorem pathToIno_renameIno {old new : Path} (hne : key ≠ pathComponents old)
    (h : t.pathToIno key ≠ none) : (t.renameIno old new).pathToIno key ≠ none := by
  unfold renameIno
  split
  · exact h
  · simp only [update_apply, if_neg hne]
    split
    · exact fun e => by cases e
    · exact h

theorem ne_of_pathOf_removePath {root path : Path} (hb : t.Bijective root)
    (h : (t.removePath path).pathOf ino = some p) : pathComponents p ≠ pathComponents path := by
  intro e
  have hp := (hb.1 _ ino).mpr (keyOf_of_pathOf (pathOf_removePath h))
  rw [e] at hp
  unfold removePath at h
  rw [hp] at h
  simp [pathOf] at h

/-- The number of the old path has the new one, the others keep theirs. -/
theorem pathOf_renameIno_of_bijective {root old new : Path} (hb : t.Bijective root)
    (h : (t.renameIno old new).pathOf ino = some p) :
    t.pathOf ino = some p ∧ pathComponents p ≠ pathComponents old ∨
      t.keyOf ino = some (pathComponents old) ∧ p = new := by
  by_cases ho : t.keyOf ino = some (pathComponents old)
  · refine .inr ⟨ho, ?_⟩
    unfold renameIno at h
    rw [(hb.1 _ ino).mpr ho] at h
    simpa [pathOf, eq_comm] using h
  · rcases pathOf_renameIno h with h | ⟨hi, -⟩
    · exact .inl ⟨h, fun e => ho (e ▸ keyOf_of_pathOf h)⟩
    · exact absurd ((hb.1 _ ino).mp hi) ho

end

theorem bounded_new (root : Path) : (new root).Bounded where
  inos ino h := by
    have hne : ino ≠ rootIno := Nat.ne_of_gt h
    simp [new, hne]
  paths key ino h := by
    by_cases e : key = pathComponents root
    · subst e
      obtain rfl : rootIno = ino := by simpa [new] using h
      exact Nat.lt_succ_self _
    · simp [new, e] at h

theorem Bounded.exec {t : InodeTable} (h : t.Bounded) (c : Call) : (c.exec t).Bounded := by
  cases c with
  | getOrAlloc path =>
    simp only [Call.exec, getOrAlloc]
    split
    · exact h
    · constructor
      · intro ino hino
        simp only at hino ⊢
        rw [update_of_ne (Nat.ne_of_gt hino)]
        exact h.inos ino (Nat.le_of_succ_le hino)
      · intro key ino hp
        simp only [update_apply] at hp
        split at hp
        · obtain rfl := Option.some.inj hp
          exact Nat.lt_succ_self _
        · exact Nat.lt_succ_of_lt (h.paths _ _ hp)
  | removePath path =>
    simp only [Call.exec, removePath]
    split
    · exact h
    · refine ⟨fun ino hino => ?_, fun key ino hp => ?_⟩
      · simp only [update_apply]
        split
        · rfl
        · exact h.inos ino hino
      · simp only [update_apply] at hp
        split at hp
        · cases hp
        · exact h.paths _ _ hp
  | renameIno old new =>
    simp only [Call.exec, renameIno]
    split
    · exact h
    · next i hi =>
      refine ⟨fun ino hino => ?_, fun key ino hp => ?_⟩
      · have hne : ino ≠ i := Nat.ne_of_gt (Nat.lt_of_lt_of_le (h.paths _ _ hi) hino)
        simp only [update_of_ne hne]
        exact h.inos ino hino
      · simp only [update_apply] at hp
        split at hp
        · obtain rfl := Option.some.inj hp
          exact h.paths _ _ hi
        · split at hp
          · cases hp
          · exact h.paths _ _ hp

theorem bijective_new (root : Path) : (new root).Bijective root := by
  have hkey : (new root).keyOf = update (fun _ => none) rootIno (some (pathComponents root)) :=
    keyOf_update ⟨fun _ => none, fun _ => none, 0⟩ rootIno (some root) _ _
  refine ⟨fun key ino => ?_, by rw [hkey, update_self]⟩
  rw [hkey]
  simp only [new, update_apply]
  constructor
  · intro h
    split at h
    · next e => cases h; simp [e]
    · cases h
  · intro h
    split at h
    · next e => cases h; simp [e]
    · cases h

theorem bijective_getOrAlloc {root : Path} {t : InodeTable} (hb : t.Bounded) (h : t.Bijective root)
    (path : Path) : (t.getOrAlloc path).2.Bijective root := by
  obtain ⟨hinv, hroot⟩ := h
  have hfree : ∀ ino, t.next ≤ ino → t.keyOf ino = none := fun ino hle => by
    rw [keyOf, pathOf, hb.inos ino hle]
    rfl
  unfold getOrAlloc
  split
  · exact ⟨hinv, hroot⟩
  · next hp =>
    have hne : rootIno ≠ t.next := fun e => by
      rw [hfree rootIno (Nat.le_of_eq e.symm)] at hroot; cases hroot
    simp only [Bijective, keyOf_update]
    refine ⟨fun key ino => ?_, by rw [update_of_ne hne, hroot]⟩
    simp only [update_apply, Option.map_some]
    by_cases e : key = pathComponents path
    · by_cases ei : ino = t.next
      · simp [e, ei]
      · have : t.keyOf ino ≠ some (pathComponents path) := fun hi => by
          rw [(hinv _ ino).mpr hi] at hp; cases hp
        simp [e, ei, this, Ne.symm ei]
    · by_cases ei : ino = t.next
      · have : t.pathToIno key ≠ some t.next := fun hp' => Nat.lt_irrefl _ (hb.paths _ _ hp')
        simp [e, ei, this, Ne.symm e]
      · simp only [e, ei, if_false]
        exact hinv key ino

theorem bijective_removePath_iff {root : Path} {t : InodeTable} (h : t.Bijective root)
    (path : Path) :
    (t.removePath path).Bijective root ↔ pathComponents path ≠ pathComponents root := by
  obtain ⟨hinv, hroot⟩ := h
  unfold removePath
  split
  · next hp =>
    refine ⟨fun _ e => ?_, fun _ => ⟨hinv, hroot⟩⟩
    rw [e, (hinv _ rootIno).mpr hroot] at hp
    cases hp
  · next i hi =>
    have hpi : t.keyOf i = some (pathComponents path) := (hinv _ i).mp hi
    simp only [Bijective, keyOf_update]
    constructor
    · rintro ⟨-, hr⟩ e
      rw [e] at hi
      obtain rfl := Option.some.inj (((hinv _ rootIno).mpr hroot).symm.trans hi)
      simp at hr
    · intro hne
      have hir : rootIno ≠ i := fun e => hne (Option.some.inj (hpi.symm.trans (e ▸ hroot)))
      refine ⟨fun key ino => ?_, by rw [update_of_ne hir, hroot]⟩
      simp only [update_apply, Option.map_none]
      by_cases e : key = pathComponents path
      · by_cases ei : ino = i
        · simp [e, ei]
        · have : t.keyOf ino ≠ some (pathComponents path) := fun hj =>
            ei (Option.some.inj (((hinv _ ino).mpr hj).symm.trans hi))
          simp [e, ei, this]
      · by_cases ei : ino = i
        · have : t.pathToIno key ≠ some i := fun hj =>
            e (Option.some.inj (((hinv key i).mp hj).symm.trans hpi))
          simp [e, ei, this]
        · simp only [e, ei, if_false]
          exact hinv key ino

theorem bijective_renameIno_iff {root : Path} {t : InodeTable} (h : t.Bijective root)
    (old new : Path) :
    (t.renameIno old new).Bijective root ↔ (Call.renameIno old new).Clear root t := by
  have h' := h
  obtain ⟨hinv, hroot⟩ := h
  unfold renameIno
  simp only [Call.Clear]
  split
  · next hp => simp [hp, h']
  · next i hi =>
    have hoi : t.keyOf i = some (pathComponents old) := (hinv _ i).mp hi
    simp only [Bijective, keyOf_update]
    generalize pathComponents old = o at *
    generalize hn : pathComponents new = n at *
    simp only [Option.map_some, hn]
    by_cases heq : o = n
    · -- both maps are written with what they hold
      subst heq
      have h1 : update t.keyOf i (some o) = t.keyOf := by rw [← hoi]; simp
      have h2 : update (update t.pathToIno o none) o (some i) = t.pathToIno := by
        rw [← hi]; simp
      simp only [h1, h2, true_or, or_true, iff_true]
      exact h'
    have hi' : t.pathToIno o ≠ none := by simp [hi]
    simp only [hi', heq, false_or]
    constructor
    · rintro ⟨hinv', hr⟩
      refine ⟨?_, ?_⟩
      · -- the inode that had the new path would keep it
        by_contra hne
        obtain ⟨j, hj⟩ := Option.ne_none_iff_exists'.mp hne
        have hji : j ≠ i := fun e =>
          heq (Option.some.inj (hoi.symm.trans (e ▸ (hinv n j).mp hj)))
        have := (hinv' n j).mpr (by rw [update_of_ne hji]; exact (hinv n j).mp hj)
        simp only [update_self] at this
        exact hji (Option.some.inj this).symm
      · rintro rfl
        obtain rfl := Option.some.inj (((hinv _ rootIno).mpr hroot).symm.trans hi)
        simp only [update_self] at hr
        exact heq (Option.some.inj hr).symm
    · rintro ⟨hnew, hne⟩
      have hir : rootIno ≠ i := fun e => hne (Option.some.inj (hoi.symm.trans (e ▸ hroot)))
      refine ⟨fun key ino => ?_, by rw [update_of_ne hir, hroot]⟩
      simp only [update_apply]
      by_cases ei : ino = i
      · have : t.pathToIno key = some i → key = o := fun hj =>
          Option.some.inj (((hinv key i).mp hj).symm.trans hoi)
        by_cases en : key = n
        · simp [en, ei]
        · by_cases eo : key = o
          · simp [ei, eo, heq, Ne.symm heq]
          · have hno : t.pathToIno key ≠ some i := fun hj => eo (this hj)
            simp [en, ei, eo, hno, Ne.symm en]
      · by_cases en : key = n
        · have : t.keyOf ino ≠ some n := fun hj => by rw [(hinv n ino).mpr hj] at hnew; cases hnew
          simp [en, ei, this, Ne.symm ei]
        · by_cases eo : key = o
          · have : t.keyOf ino ≠ some o := fun hj =>
              ei (Option.some.inj (((hinv o ino).mpr hj).symm.trans hi))
            simp [ei, eo, heq, this]
          · simp only [en, ei, eo, if_false]
            exact hinv key ino

theorem bijective_exec_iff {root : Path} {t : InodeTable} (hb : t.Bounded) (h : t.Bijective root)
    (c : Call) : (c.exec t).Bijective root ↔ c.Clear root t := by
  cases c with
  | getOrAlloc path => exact iff_of_true (bijective_getOrAlloc hb h path) trivial
  | removePath path => exact bijective_removePath_iff h path
  | renameIno old new => exact bijective_renameIno_iff h old new

theorem bijective_runCalls_iff {root : Path} (calls : List Call) : ∀ {t : InodeTable}, t.Bounded →
    t.Bijective root → ((∀ pre, pre <+: calls → (t.runCalls pre).Bijective root) ↔
      AllClear root t calls) := by
  induction calls with
  | nil =>
    intro t hb h
    refine iff_of_true (fun pre hpre => ?_) trivial
    rw [List.prefix_nil.mp hpre]
    exact h
  | cons c cs ih =>
    intro t hb h
    constructor
    · intro hall
      have hc : (c.exec t).Bijective root := hall [c] ⟨cs, rfl⟩
      refine ⟨(bijective_exec_iff hb h c).mp hc, (ih (hb.exec c) hc).mp fun pre hpre => ?_⟩
      exact hall (c :: pre) ((List.prefix_cons_inj c).mpr hpre)
    · rintro ⟨hc, hcs⟩ pre hpre
      have hc' := (bijective_exec_iff hb h c).mpr hc
      rcases List.prefix_cons_iff.mp hpre with rfl | ⟨pre, rfl, hpre'⟩
      · exact h
      · exact (ih (hb.exec c) hc').mpr hcs pre hpre'

theorem next_le_exec (t : InodeTable) (c : Call) : t.next ≤ (c.exec t).next := by
  cases c with
  | getOrAlloc path =>
    simp only [Call.exec, getOrAlloc]
    split
    · exact Nat.le_refl _
    · exact Nat.le_succ _
  | removePath path => simp only [Call.exec, removePath]; split <;> exact Nat.le_refl _
  | renameIno old new => simp only [Call.exec, renameIno]; split <;> exact Nat.le_refl _

theorem fresh?_spec {t : InodeTable} {c : Call} {ino : FuseIno} (h : c.fresh? t = some ino) :
    ino = t.next ∧ (c.exec t).next = t.next + 1 := by
  cases c with
  | getOrAlloc path =>
    simp only [Call.fresh?] at h
    split at h
    · next hp =>
      rw [← Option.some.inj h]
      simp only [Call.exec, getOrAlloc, hp, and_self]
    · cases h
  | removePath path => cases h
  | renameIno old new => cases h

theorem allocated_spec (calls : List Call) : ∀ t : InodeTable,
    (allocated t calls).Nodup ∧ ∀ ino ∈ allocated t calls, t.next ≤ ino := by
  induction calls with
  | nil => intro t; simp [allocated]
  | cons c cs ih =>
    intro t
    obtain ⟨hd, hle⟩ := ih (c.exec t)
    simp only [allocated]
    cases hf : c.fresh? t with
    | none =>
      refine ⟨by simpa using hd, fun ino h => ?_⟩
      exact Nat.le_trans (next_le_exec t c) (hle ino (by simpa using h))
    | some i =>
      obtain ⟨rfl, hnext⟩ := fresh?_spec hf
      simp only [Option.toList_some, List.cons_append, List.nil_append, List.nodup_cons,
        List.mem_cons]
      have hlt : ∀ ino ∈ allocated (c.exec t) cs, t.next < ino := fun ino h =>
        Nat.lt_of_lt_of_le (by rw [hnext]; exact Nat.lt_succ_self _) (hle ino h)
      refine ⟨⟨fun h => Nat.lt_irrefl _ (hlt _ h), hd⟩, ?_⟩
      rintro ino (rfl | h)
      · exact Nat.le_refl _
      · exact Nat.le_of_lt (hlt ino h)

/-- **The table is a bijection in every state of a run exactly when every call of the run is
clear**, and no number is allocated twice in any run. -/
theorem bijective_iff (root : List Char) (calls : List Call) :
    ((∀ pre, pre <+: calls → ((new (normalizeRoot root)).runCalls pre).Bijective
      (normalizeRoot root)) ↔
      AllClear (normalizeRoot root) (new (normalizeRoot root)) calls) ∧
    (rootIno :: allocated (new (normalizeRoot root)) calls).Nodup := by
  refine ⟨bijective_runCalls_iff calls (bounded_new _) (bijective_new _), ?_⟩
  obtain ⟨hd, hle⟩ := allocated_spec calls (new (normalizeRoot root))
  exact List.nodup_cons.mpr ⟨fun h => absurd (hle _ h) (by simp [new]), hd⟩

/-- Two files, one renamed over the other: the inode of the file that is gone still has the
path, which the other map gives to the renamed one. -/
theorem renamed_over_stays :
    let t := (new (normalizeRoot ['/'])).runCalls
      [.getOrAlloc ['/', 'a'], .getOrAlloc ['/', 'b'], .renameIno ['/', 'a'] ['/', 'b']]
    t.pathOf 3 = some ['/', 'b'] ∧ t.pathToIno (pathComponents ['/', 'b']) = some 2 ∧
      ¬t.Bijective ['/'] := by
  refine ⟨rfl, rfl, fun h => ?_⟩
  have : some 2 = some 3 := (h.1 (pathComponents ['/', 'b']) 3).mpr rfl
  simp at this

end QuicFs.Client.InodeTable
