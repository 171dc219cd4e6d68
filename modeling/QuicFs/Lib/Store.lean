import Mathlib

/-!
# The store of a cache

A `Store` is a map with a bounded number of items that may drop an item at any operation. Which
one it drops is left to it; `Store.Laws` says that it makes nothing up. `lru` drops the item that
was used least recently.
-/

namespace QuicFs.Lib

theorem lookup_filter_key {K V : Type} [BEq K] [LawfulBEq K] (keep : K → Bool) (k : K)
    (l : List (K × V)) :
    (l.filter fun e => keep e.1).lookup k = if keep k then l.lookup k else none := by
  induction l with
  | nil => simp
  | cons e l ih =>
    by_cases he : keep e.1
    · rw [List.filter_cons_of_pos (by simpa using he), List.lookup_cons, List.lookup_cons, ih]
      by_cases hk : k = e.1
      · simp [hk, he]
      · have hb : (k == e.1) = false := by simpa using hk
        simp [hb]
    · rw [List.filter_cons_of_neg (by simpa using he), ih, List.lookup_cons]
      by_cases hk : k = e.1
      · simp [hk, he]
      · have hb : (k == e.1) = false := by simpa using hk
        simp [hb]

structure Store (K V : Type) where
  Map : Type
  new : (capacity : Nat) → Map
  /-- Look without using. -/
  peek : Map → K → Option V
  get : Map → K → Option V × Map
  put : Map → K → V → Map
  pop : Map → K → Map
  clear : Map → Map

/-- What is in the map was put there for its key, and not taken out since. -/
structure Store.Laws {K V : Type} (L : Store K V) : Prop where
  new : ∀ n k, L.peek (L.new n) k = none
  found : ∀ {m k v}, (L.get m k).1 = some v → L.peek m k = some v
  get : ∀ {m k k' v}, L.peek (L.get m k).2 k' = some v → L.peek m k' = some v
  put : ∀ {m k v k' v'}, L.peek (L.put m k v) k' = some v' →
    k' = k ∧ v' = v ∨ k' ≠ k ∧ L.peek m k' = some v'
  pop : ∀ {m k k' v}, L.peek (L.pop m k) k' = some v → k' ≠ k ∧ L.peek m k' = some v
  clear : ∀ m k, L.peek (L.clear m) k = none

section
variable {K V : Type} [DecidableEq K]

/-- The items, the one used last first, and how many there is room for. -/
def lru : Store K V where
  Map := Nat × List (K × V)
  new n := (n, [])
  peek m k := m.2.lookup k
  get m k :=
    match m.2.lookup k with
    | none => (none, m)
    | some v => (some v, m.1, (k, v) :: m.2.filter (·.1 ≠ k))
  put m k v := (m.1, (k, v) :: (m.2.filter (·.1 ≠ k)).take (m.1 - 1))
  pop m k := (m.1, m.2.filter (·.1 ≠ k))
  clear m := (m.1, [])

theorem mem_of_peek_lru {m : Nat × List (K × V)} {k : K} {v : V} (h : lru.peek m k = some v) :
    k ∈ m.2.map Prod.fst := by
  obtain ⟨l₁, l₂, hl, -⟩ := List.lookup_eq_some_iff.mp h
  simp [hl]

theorem lookup_take {l : List (K × V)} {n : Nat} {k : K} {v : V}
    (h : (l.take n).lookup k = some v) : l.lookup k = some v := by
  rw [← List.take_append_drop n l, List.lookup_append, h]
  rfl

theorem lookup_without {l : List (K × V)} {k k' : K} {v : V}
    (h : (l.filter (·.1 ≠ k)).lookup k' = some v) : k' ≠ k ∧ l.lookup k' = some v := by
  rw [lookup_filter_key (fun x => decide (x ≠ k))] at h
  split at h
  · next hk => exact ⟨of_decide_eq_true hk, h⟩
  · cases h

theorem lookup_front {l l' : List (K × V)} {k k' : K} {v v' : V}
    (hl : ∀ {w}, l'.lookup k' = some w → (l.filter (·.1 ≠ k)).lookup k' = some w)
    (h : ((k, v) :: l').lookup k' = some v') :
    k' = k ∧ v' = v ∨ k' ≠ k ∧ l.lookup k' = some v' := by
  rw [List.lookup_cons] at h
  split at h
  · next hk => exact .inl ⟨by simpa using hk, (Option.some.inj h).symm⟩
  · exact .inr (lookup_without (hl h))

theorem lru_laws : (lru : Store K V).Laws where
  new _ _ := rfl
  found {m k v} h := by
    simp only [lru] at h ⊢
    split at h
    · cases h
    · next hv => rwa [← hv] at h
  get {m k k' v} h := by
    simp only [lru] at h ⊢
    split at h
    · exact h
    · next w hw =>
      rcases lookup_front (fun h => h) h with ⟨rfl, rfl⟩ | ⟨-, h⟩
      · exact hw
      · exact h
  put h := lookup_front lookup_take h
  pop h := lookup_without h
  clear _ _ := rfl

end

end QuicFs.Lib
