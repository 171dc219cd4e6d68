import Mathlib

/-!
# Paths as text

A path is text that is split at `/`. `components` are the parts that name something, which is
what a path walk goes along; `pathComponents` are the `Path::components` of the standard
library, by which it compares and hashes paths.
-/

namespace QuicFs

/-- A path component. -/
abbrev Name := List Char

/-- Split at `/`. -/
def splitSlash : List Char → List Name
  | [] => [[]]
  | '/' :: cs => [] :: splitSlash cs
  | c :: cs =>
    match splitSlash cs with
    | [] => [[c]]
    | p :: ps => (c :: p) :: ps

def components (path : List Char) : List Name :=
  (splitSlash path).filter fun p => p ≠ [] ∧ p ≠ ['.']

/-- `str::len`: the length in bytes. -/
def utf8Len (s : List Char) : Nat := (s.map Char.utf8Size).sum

/-- The length of the path from `/` with these names. -/
def namesLen (names : List Name) : Nat := (names.map fun c => utf8Len c + 1).sum

/-- `PATH_MAX`: a path that the kernel takes is shorter. -/
def pathMax : Nat := 4096

/-- `PathBuf::push` of a name. -/
def pushName (text : List Char) (name : Name) : List Char :=
  if text = [] ∨ text.getLast? = some '/' then text ++ name else text ++ '/' :: name

theorem splitSlash_cons {c : Char} (hc : c ≠ '/') (s : List Char) : splitSlash (c :: s) =
    match splitSlash s with
    | [] => [[c]]
    | p :: ps => (c :: p) :: ps := splitSlash.eq_3 c s hc

theorem utf8Len_append (s t : List Char) : utf8Len (s ++ t) = utf8Len s + utf8Len t := by
  simp [utf8Len]

theorem intercalate_cons_cons (n m : Name) (ns : List Name) :
    List.intercalate ['/'] (n :: m :: ns) = n ++ '/' :: List.intercalate ['/'] (m :: ns) := by
  simp [List.intercalate]

theorem utf8Len_intercalate (ns : List Name) :
    utf8Len (List.intercalate ['/'] ns) = (ns.map utf8Len).sum + (ns.length - 1) := by
  induction ns with
  | nil => rfl
  | cons n ns ih =>
    cases ns with
    | nil => simp [List.intercalate]
    | cons m ns =>
      have hsep : utf8Len ['/'] = 1 := by decide
      rw [intercalate_cons_cons, show n ++ '/' :: List.intercalate ['/'] (m :: ns) =
        n ++ ['/'] ++ List.intercalate ['/'] (m :: ns)
          by simp, utf8Len_append, utf8Len_append, ih, hsep]
      simp only [List.map_cons, List.sum_cons, List.length_cons]
      omega

theorem utf8Len_intercalate_le (ns : List Name) :
    utf8Len (List.intercalate ['/'] ns) ≤ namesLen ns := by
  have hsum : namesLen ns = (ns.map utf8Len).sum + ns.length := by
    induction ns with
    | nil => rfl
    | cons n ns ih =>
      simp only [namesLen, List.map_cons, List.sum_cons, List.length_cons] at ih ⊢
      omega
  rw [utf8Len_intercalate, hsum]
  omega

theorem utf8Len_pushName (text : List Char) (name : Name) :
    utf8Len text ≤ utf8Len (pushName text name) := by
  unfold pushName
  split <;> rw [utf8Len_append] <;> exact Nat.le_add_right ..

theorem splitSlash_ne_nil (s : List Char) : splitSlash s ≠ [] := by
  cases s with
  | nil => simp [splitSlash]
  | cons c s =>
    by_cases hc : c = '/'
    · simp [hc, splitSlash]
    · rw [splitSlash_cons hc]
      split <;> simp

theorem splitSlash_append_slash (s t : List Char) :
    splitSlash (s ++ '/' :: t) = splitSlash s ++ splitSlash t := by
  induction s with
  | nil => simp [splitSlash]
  | cons c s ih =>
    by_cases hc : c = '/'
    · simp [hc, splitSlash, ih]
    · rw [List.cons_append, splitSlash_cons hc, splitSlash_cons hc, ih]
      cases hs : splitSlash s with
      | nil => exact absurd hs (splitSlash_ne_nil s)
      | cons p ps => rfl

theorem splitSlash_of_not_mem {s : List Char} (h : '/' ∉ s) : splitSlash s = [s] := by
  induction s with
  | nil => rfl
  | cons c s ih =>
    obtain ⟨hc, hs⟩ := not_or.mp (mt List.mem_cons.mpr h)
    rw [splitSlash_cons (Ne.symm hc), ih hs]

theorem components_append_slash (s t : List Char) :
    components (s ++ '/' :: t) = components s ++ components t := by
  rw [components, splitSlash_append_slash, List.filter_append]
  rfl

theorem not_mem_splitSlash (s : List Char) : ∀ c ∈ splitSlash s, '/' ∉ c := by
  induction s with
  | nil => simp [splitSlash]
  | cons x s ih =>
    unfold splitSlash
    split
    · cases ‹_ = _›
    · next h => cases h; simpa using ih
    · next y ys hne h =>
      obtain ⟨rfl, rfl⟩ := List.cons.inj h
      have hx : x ≠ '/' := hne
      split
      · simpa using hx.symm
      · next p ps hp =>
        rw [hp] at ih
        intro c hc
        rcases List.mem_cons.mp hc with rfl | hc
        · simpa [hx.symm] using ih p (List.mem_cons_self ..)
        · exact ih c (List.mem_cons_of_mem _ hc)

def ValidName (name : Name) : Prop :=
  name ≠ [] ∧ name ≠ ['.'] ∧ name ≠ ['.', '.'] ∧ '/' ∉ name

instance (name : Name) : Decidable (ValidName name) := inferInstanceAs (Decidable (_ ∧ _))

theorem components_name {n : Name} (h : ValidName n) : components n = [n] := by
  rw [components, splitSlash_of_not_mem h.2.2.2,
    List.filter_cons_of_pos (by simpa using ⟨h.1, h.2.1⟩)]
  rfl

theorem components_append_name (p : List Char) {n : Name} (h : ValidName n) :
    components (p ++ '/' :: n) = components p ++ [n] := by
  rw [components_append_slash, components_name h]

/-- `Path::components`: `/` for the root, a leading `.` of a relative path, and the parts that
name something. -/
def pathComponents (path : List Char) : List Name :=
  if path.head? = some '/' then ['/'] :: components path
  else if (splitSlash path).head? = some ['.'] then ['.'] :: components path
  else components path

theorem pathComponents_of_absolute {path : List Char} (h : path.head? = some '/') :
    pathComponents path = ['/'] :: components path := if_pos h

theorem components_eq_filter (path : List Char) :
    components path = (pathComponents path).filter fun c => c ≠ ['/'] ∧ c ≠ ['.'] := by
  have hself : (components path).filter (fun c => c ≠ ['/'] ∧ c ≠ ['.']) = components path := by
    refine List.filter_eq_self.mpr fun c hc => ?_
    obtain ⟨hsplit, hdot⟩ := List.mem_filter.mp hc
    have hslash : c ≠ ['/'] := fun e => not_mem_splitSlash path c hsplit (by simp [e])
    simpa [hslash] using (of_decide_eq_true hdot).2
  unfold pathComponents
  split
  · rw [List.filter_cons_of_neg (by simp), hself]
  · split
    · rw [List.filter_cons_of_neg (by simp), hself]
    · exact hself.symm

theorem components_eq_of_pathComponents {p q : List Char}
    (h : pathComponents p = pathComponents q) : components p = components q := by
  rw [components_eq_filter, h, ← components_eq_filter]

end QuicFs
