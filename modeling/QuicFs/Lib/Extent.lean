import Mathlib

/-!
# Extents: sparse files and positioned writes

A file is a list over a type with a zero; `pwrite f off d` places `d` at `off`,
fills a gap past the end with zeros and leaves the rest alone. An `Extent` is one
such write, `applyAll` a list of them in order.

* `hit e p`: the element `e` puts at position `p`, if any; `lastHit es p` is what
  the last extent of `es` covering `p` puts there.
* `getD_applyAll`, `lt_length_applyAll`: a file after `es` is determined by
  `lastHit es`, so two lists of extents with equal `lastHit` write the same file
  (`applyAll_congr`).
* `applyAll_absorb`: writes that stay within what `es` covers do not show once
  `es` has been applied.
* `lastHit_insertionSort`: sorting by offset, stably, replaces the last covering
  extent by the covering extent of greatest offset (`topHit`).
-/

namespace QuicFs.Lib

/-- One positioned write. -/
structure Extent (α : Type) where
  off : Nat
  data : List α
  deriving DecidableEq, Repr

namespace Extent

variable {α : Type}

/-- The element an extent puts at position `p`. -/
def hit (e : Extent α) (p : Nat) : Option α := if e.off ≤ p then e.data[p - e.off]? else none

def stop (e : Extent α) : Nat := e.off + e.data.length

theorem hit_isSome {e : Extent α} {p : Nat} : (e.hit p).isSome ↔ e.off ≤ p ∧ p < e.stop := by
  unfold hit stop
  split
  · rename_i h
    rw [Option.isSome_iff_ne_none, ne_eq, List.getElem?_eq_none_iff]
    omega
  · simp; omega

theorem hit_eq_none {e : Extent α} {p : Nat} (h : p < e.off ∨ e.stop ≤ p) : e.hit p = none := by
  rw [← Option.not_isSome_iff_eq_none, hit_isSome]
  omega

theorem hit_append (off : Nat) (d d' : List α) (p : Nat) :
    hit ⟨off, d ++ d'⟩ p = (hit ⟨off + d.length, d'⟩ p).or (hit ⟨off, d⟩ p) := by
  unfold hit
  simp only
  by_cases h1 : off ≤ p
  · by_cases h2 : off + d.length ≤ p
    · rw [if_pos h1, if_pos h2, if_pos h1, List.getElem?_append_right (by omega)]
      rw [List.getElem?_eq_none (l := d) (by omega), Option.or_none]
      congr 1
      omega
    · rw [if_pos h1, if_neg h2, if_pos h1, List.getElem?_append_left (by omega), Option.none_or]
  · rw [if_neg h1, if_neg (by omega), if_neg h1, Option.or_none]

theorem hit_take {e : Extent α} {n p : Nat} (h : (hit ⟨e.off, e.data.take n⟩ p).isSome) :
    (e.hit p).isSome := by
  rw [hit_isSome] at h ⊢
  simp only [stop, List.length_take] at h ⊢
  omega

end Extent

variable {α : Type}

/-- What the last extent covering `p` puts there. -/
def lastHit (es : List (Extent α)) (p : Nat) : Option α :=
  match es with
  | [] => none
  | e :: es => (lastHit es p).or (e.hit p)

@[simp] theorem lastHit_nil (p : Nat) : lastHit ([] : List (Extent α)) p = none := rfl

@[simp] theorem lastHit_cons (e : Extent α) (es : List (Extent α)) (p : Nat) :
    lastHit (e :: es) p = (lastHit es p).or (e.hit p) := rfl

theorem lastHit_append (es es' : List (Extent α)) (p : Nat) :
    lastHit (es ++ es') p = (lastHit es' p).or (lastHit es p) := by
  induction es with
  | nil => simp
  | cons e es ih => simp [ih, Option.or_assoc]

theorem lastHit_isSome {es : List (Extent α)} {p : Nat} :
    (lastHit es p).isSome ↔ ∃ e ∈ es, (e.hit p).isSome := by
  induction es with
  | nil => simp
  | cons e es ih => rw [lastHit_cons, Option.isSome_or, Bool.or_eq_true, ih]; simp [or_comm]

theorem lastHit_isSome_of_perm {es es' : List (Extent α)} (h : es.Perm es') (p : Nat) :
    (lastHit es p).isSome = (lastHit es' p).isSome := by
  rw [Bool.eq_iff_iff, lastHit_isSome, lastHit_isSome]
  simp only [h.mem_iff]

/-! ## Positioned writes -/

section
variable [Zero α]

/-- `d` placed at `off`; an empty write does nothing. -/
def pwrite (f : List α) (off : Nat) (d : List α) : List α :=
  if d.isEmpty then f else f.takeD off 0 ++ (d ++ f.drop (off + d.length))

/-- The extents of `es` written one after another. -/
def applyAll (f : List α) (es : List (Extent α)) : List α :=
  es.foldl (fun f e => pwrite f e.off e.data) f

@[simp] theorem applyAll_nil (f : List α) : applyAll f [] = f := rfl

@[simp] theorem applyAll_cons (f : List α) (e : Extent α) (es : List (Extent α)) :
    applyAll f (e :: es) = applyAll (pwrite f e.off e.data) es := rfl

theorem applyAll_append (f : List α) (es es' : List (Extent α)) :
    applyAll f (es ++ es') = applyAll (applyAll f es) es' := by
  simp [applyAll]

theorem getD_takeD (f : List α) (n p : Nat) :
    (f.takeD n 0).getD p 0 = if p < n then f.getD p 0 else 0 := by
  induction n generalizing f p with
  | zero => simp
  | succ n ih =>
    cases p with
    | zero => cases f <;> simp
    | succ p =>
      have := ih f.tail p
      cases f <;> simp_all

theorem file_ext {f g : List α} (hl : f.length = g.length) (h : ∀ p, f.getD p 0 = g.getD p 0) :
    f = g := by
  apply List.ext_getElem hl
  intro p h1 h2
  have := h p
  rwa [List.getD_eq_getElem _ _ h1, List.getD_eq_getElem _ _ h2] at this

theorem getD_pwrite (f : List α) (off : Nat) (d : List α) (p : Nat) :
    (pwrite f off d).getD p 0 = ((Extent.mk off d).hit p).getD (f.getD p 0) := by
  unfold pwrite Extent.hit
  simp only
  split
  · rename_i h
    rw [List.isEmpty_iff] at h
    subst h
    simp
  · by_cases h1 : off ≤ p
    · rw [if_pos h1, List.getD_append_right _ _ _ _ (by simpa using h1), List.takeD_length]
      by_cases h2 : p - off < d.length
      · rw [List.getD_append _ _ _ _ h2, List.getElem?_eq_getElem h2, Option.getD_some,
          List.getD_eq_getElem _ _ h2]
      · rw [List.getD_append_right _ _ _ _ (by omega), List.getElem?_eq_none (by omega),
          Option.getD_none]
        simp only [List.getD_eq_getElem?_getD, List.getElem?_drop]
        congr 2
        omega
    · rw [if_neg h1, List.getD_append _ _ _ _ (by simpa using h1), getD_takeD]
      simp [show p < off by omega]

theorem lt_length_pwrite (f : List α) (off : Nat) (d : List α) (p : Nat) :
    p < (pwrite f off d).length ↔ p < f.length ∨ ∃ q, p ≤ q ∧ ((Extent.mk off d).hit q).isSome := by
  unfold pwrite
  simp only [Extent.hit_isSome, Extent.stop]
  split
  · rename_i h
    rw [List.isEmpty_iff] at h
    subst h
    simp only [List.length_nil]
    constructor
    · exact .inl
    · rintro (h | ⟨q, _, _, _⟩) <;> omega
  · rename_i h
    rw [List.isEmpty_iff, ← List.length_eq_zero_iff] at h
    simp only [List.length_append, List.takeD_length, List.length_drop]
    constructor
    · intro hp
      by_cases h2 : p < f.length
      · exact .inl h2
      · exact .inr ⟨off + d.length - 1, by omega, by omega, by omega⟩
    · rintro (hp | ⟨q, _, _, _⟩) <;> omega

theorem length_le_pwrite (f : List α) (off : Nat) (d : List α) :
    f.length ≤ (pwrite f off d).length := by
  by_contra h
  exact Nat.lt_irrefl _ ((lt_length_pwrite f off d _).mpr (.inl (Nat.not_le.mp h)))

theorem stop_le_length_pwrite (f : List α) (off : Nat) {d : List α} (hd : d ≠ []) :
    off + d.length ≤ (pwrite f off d).length := by
  have hpos := List.length_pos_of_ne_nil hd
  have hlast : off + d.length - 1 < (pwrite f off d).length := by
    refine (lt_length_pwrite f off d _).mpr
      (.inr ⟨_, Nat.le_refl _, Extent.hit_isSome.mpr ⟨?_, ?_⟩⟩)
    · change off ≤ off + d.length - 1
      omega
    · change off + d.length - 1 < off + d.length
      omega
  omega

theorem getD_applyAll (f : List α) (es : List (Extent α)) (p : Nat) :
    (applyAll f es).getD p 0 = (lastHit es p).getD (f.getD p 0) := by
  induction es generalizing f with
  | nil => simp
  | cons e es ih =>
    rw [applyAll_cons, ih, getD_pwrite, lastHit_cons]
    cases lastHit es p <;> simp

theorem lt_length_applyAll (f : List α) (es : List (Extent α)) (p : Nat) :
    p < (applyAll f es).length ↔ p < f.length ∨ ∃ q, p ≤ q ∧ (lastHit es q).isSome := by
  induction es generalizing f with
  | nil => simp
  | cons e es ih =>
    rw [applyAll_cons, ih, lt_length_pwrite]
    simp only [lastHit_cons, Option.isSome_or, Bool.or_eq_true, and_or_left, exists_or, or_assoc]
    rw [or_comm (a := ∃ q, p ≤ q ∧ (lastHit es q).isSome)]

theorem length_le_applyAll (f : List α) (es : List (Extent α)) :
    f.length ≤ (applyAll f es).length := by
  by_contra h
  have := (lt_length_applyAll f es (applyAll f es).length).mpr (.inl (by omega))
  omega

omit [Zero α] in
theorem length_eq_of_lt_iff {f g : List α} (h : ∀ p, p < f.length ↔ p < g.length) :
    f.length = g.length := by
  have h1 := h f.length
  have h2 := h g.length
  omega

theorem applyAll_congr (f : List α) {es es' : List (Extent α)}
    (h : ∀ p, lastHit es p = lastHit es' p) : applyAll f es = applyAll f es' := by
  apply file_ext
  · apply length_eq_of_lt_iff
    intro p
    simp only [lt_length_applyAll, h]
  · intro p
    rw [getD_applyAll, getD_applyAll, h]

theorem applyAll_eq_iff (f : List α) {es es' : List (Extent α)}
    (hc : ∀ p, (lastHit es p).isSome = (lastHit es' p).isSome) :
    applyAll f es = applyAll f es' ↔ ∀ p, lastHit es p = lastHit es' p := by
  refine ⟨fun h p => ?_, applyAll_congr f⟩
  have hp : (applyAll f es).getD p 0 = (applyAll f es').getD p 0 := by rw [h]
  have hs := hc p
  rw [getD_applyAll, getD_applyAll] at hp
  cases h1 : lastHit es p <;> cases h2 : lastHit es' p <;> simp_all

theorem pwrite_append (f : List α) (off : Nat) (d d' : List α) :
    pwrite (pwrite f off d) (off + d.length) d' = pwrite f off (d ++ d') := by
  have hhit : ∀ p, lastHit [⟨off, d⟩, ⟨off + d.length, d'⟩] p = lastHit [⟨off, d ++ d'⟩] p := by
    intro p
    simp [Extent.hit_append]
  simpa using applyAll_congr f hhit

theorem pwrite_length (f d : List α) : pwrite f f.length d = f ++ d := by
  unfold pwrite
  split
  · next hd => rw [List.isEmpty_iff.mp hd, List.append_nil]
  · simp [List.takeD_eq_take]

theorem applyAll_absorb (f : List α) {ws es : List (Extent α)}
    (h : ∀ p, (lastHit ws p).isSome → (lastHit es p).isSome) :
    applyAll (applyAll f ws) es = applyAll f es := by
  rw [← applyAll_append]
  apply applyAll_congr
  intro p
  rw [lastHit_append]
  cases h1 : lastHit es p with
  | some a => rfl
  | none =>
    have := h p
    rw [h1] at this
    simpa using this

end

/-! ## Sorting by offset -/

/-- The covering extent of greatest offset, the last one on a tie. -/
def topExtent (es : List (Extent α)) (p : Nat) : Option (Extent α) :=
  match es with
  | [] => none
  | e :: es =>
    match topExtent es p with
    | none => if (e.hit p).isSome then some e else none
    | some d => if (e.hit p).isSome ∧ d.off < e.off then some e else some d

/-- What the covering extent of greatest offset puts at `p`. -/
def topHit (es : List (Extent α)) (p : Nat) : Option α := (topExtent es p).bind (·.hit p)

def lastExtent (es : List (Extent α)) (p : Nat) : Option (Extent α) :=
  match es with
  | [] => none
  | e :: es => (lastExtent es p).or (if (e.hit p).isSome then some e else none)

theorem lastExtent_mem {es : List (Extent α)} {p : Nat} {d : Extent α}
    (h : lastExtent es p = some d) : d ∈ es ∧ (d.hit p).isSome := by
  induction es with
  | nil => cases h
  | cons e es ih =>
    simp only [lastExtent] at h
    cases hl : lastExtent es p with
    | some d' =>
      rw [hl, Option.some_or] at h
      cases h
      exact ⟨List.mem_cons_of_mem _ (ih hl).1, (ih hl).2⟩
    | none =>
      rw [hl, Option.none_or] at h
      split at h
      · cases h
        exact ⟨List.mem_cons_self, ‹_›⟩
      · cases h

theorem lastHit_eq_bind (es : List (Extent α)) (p : Nat) :
    lastHit es p = (lastExtent es p).bind (·.hit p) := by
  induction es with
  | nil => rfl
  | cons e es ih =>
    rw [lastHit_cons, ih, lastExtent]
    cases hl : lastExtent es p with
    | some d =>
      obtain ⟨_, hd⟩ := lastExtent_mem hl
      rw [Option.some_or, Option.bind_some]
      obtain ⟨a, ha⟩ := Option.isSome_iff_exists.mp hd
      rw [ha, Option.some_or]
    | none =>
      split
      · simp
      · rename_i h
        simp only [Bool.not_eq_true, Option.isSome_eq_false_iff, Option.isNone_iff_eq_none] at h
        simp [h]

/-- Inserting an extent before the first one of at least its offset. -/
theorem lastExtent_orderedInsert (e : Extent α) {es : List (Extent α)} (p : Nat)
    (hs : es.Pairwise (fun a b => a.off ≤ b.off)) :
    lastExtent (es.orderedInsert (fun a b => a.off ≤ b.off) e) p =
      match lastExtent es p with
      | none => if (e.hit p).isSome then some e else none
      | some d => if (e.hit p).isSome ∧ d.off < e.off then some e else some d := by
  induction es with
  | nil => simp [lastExtent]
  | cons a es ih =>
    obtain ⟨ha, hs⟩ := List.pairwise_cons.mp hs
    simp only [List.orderedInsert_cons]
    split
    · -- `e` goes first: everything already there is at or past its offset
      rename_i he
      rw [lastExtent]
      cases hl : lastExtent (a :: es) p with
      | none => simp
      | some d =>
        obtain ⟨hd, _⟩ := lastExtent_mem hl
        have : e.off ≤ d.off := by
          rcases List.mem_cons.mp hd with rfl | hd
          · exact he
          · exact Nat.le_trans he (ha d hd)
        simp [Nat.not_lt.mpr this]
    · rename_i he
      rw [lastExtent, ih hs, lastExtent]
      cases hl : lastExtent es p with
      | some d => simp only [Option.some_or]; split <;> simp
      | none =>
        simp only [Option.none_or]
        by_cases hep : (e.hit p).isSome
        · by_cases hap : (a.hit p).isSome
          · simp [hep, hap, show a.off < e.off by omega]
          · simp [hep, hap]
        · by_cases hap : (a.hit p).isSome <;> simp [hep, hap]

/-- In an offset-sorted list the last covering extent is the one of greatest offset. -/
theorem lastExtent_insertionSort (es : List (Extent α)) (p : Nat) :
    lastExtent (es.insertionSort (fun a b => a.off ≤ b.off)) p = topExtent es p := by
  induction es with
  | nil => rfl
  | cons e es ih =>
    have htotal : Std.Total (fun a b : Extent α => a.off ≤ b.off) := ⟨fun a b => Nat.le_total _ _⟩
    have htrans : IsTrans (Extent α) (fun a b => a.off ≤ b.off) := ⟨fun _ _ _ => Nat.le_trans⟩
    rw [List.insertionSort_cons, lastExtent_orderedInsert e p (List.pairwise_insertionSort _ es),
      ih, topExtent]

theorem lastHit_insertionSort (es : List (Extent α)) (p : Nat) :
    lastHit (es.insertionSort (fun a b => a.off ≤ b.off)) p = topHit es p := by
  rw [lastHit_eq_bind, lastExtent_insertionSort, topHit]

end QuicFs.Lib
