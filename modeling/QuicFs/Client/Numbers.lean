import QuicFs.Client.Flights

/-!
# The order of acceptance

Every accepted chunk has a number of its own, and numbers grow with the order in which the chunks
were accepted, over all handles (`Numbered`). `order` lists the chunks of some handles in that
order; a chunk that is accepted comes last in it (`order_push`).
-/

namespace QuicFs.Client.Pool

open QuicFs.Lib

variable {A : Type} {p p' : Pool A} {h k : Fh} {t u : Tag} {hs hs' : List Fh}

/-- The numbers of the accepted chunks. -/
structure Numbered (p : Pool A) : Prop where
  lt : ∀ {h t}, t ∈ p.accepted h → t.1 < p.next
  sorted : ∀ h, (p.accepted h).Pairwise (·.1 < ·.1)
  apart : ∀ {h k t u}, t ∈ p.accepted h → u ∈ p.accepted k → t.1 = u.1 → h = k

theorem numbered_init (buf : WriteBuffer) : (init buf : Pool A).Numbered where
  lt ht := by cases ht
  sorted _ := .nil
  apart ht := by cases ht

theorem Numbered.congr (hn : p.Numbered) (ha : p'.accepted = p.accepted) (hx : p'.next = p.next) :
    p'.Numbered where
  lt ht := by
    rw [ha] at ht
    rw [hx]
    exact hn.lt ht
  sorted := by
    rw [ha]
    exact hn.sorted
  apart ht hu := by
    rw [ha] at ht hu
    exact hn.apart ht hu

theorem mem_accepted_push {off : UInt64} {data : Bytes} {now : Instant} {iter : List Fh}
    (hr : (p.buf.push h off data now iter).1 ≠ .reject) :
    t ∈ (p.push h off data now iter).accepted k ↔
      t ∈ p.accepted k ∨ k = h ∧ t = (p.next, ⟨off, data, now⟩) := by
  rw [push_of_accept hr]
  simp only [Function.update_apply]
  split
  · next e =>
    subst e
    simp
  · next e => simp [e]

theorem numbered_push {off : UInt64} {data : Bytes} {now : Instant} {iter : List Fh}
    (hn : p.Numbered) : (p.push h off data now iter).Numbered := by
  by_cases hr : (p.buf.push h off data now iter).1 = .reject
  · rwa [push_of_reject hr]
  have hnext : (p.push h off data now iter).next = p.next + 1 := by rw [push_of_accept hr]
  refine ⟨fun ht => ?_, fun k => ?_, fun {k k' t u} ht hu e => ?_⟩
  · rw [hnext]
    rcases (mem_accepted_push hr).mp ht with ht | ⟨-, rfl⟩
    · exact Nat.lt_succ_of_lt (hn.lt ht)
    · exact Nat.lt_succ_self _
  · rw [push_of_accept hr]
    simp only [Function.update_apply]
    split
    · rw [List.pairwise_append]
      refine ⟨hn.sorted h, List.pairwise_singleton _ _, fun t ht u hu => ?_⟩
      obtain rfl := List.mem_singleton.mp hu
      exact hn.lt ht
    · exact hn.sorted k
  · rw [mem_accepted_push hr] at ht hu
    rcases ht with ht | ⟨rfl, rfl⟩ <;> rcases hu with hu | ⟨rfl, rfl⟩
    · exact hn.apart ht hu e
    · exact absurd e (Nat.ne_of_lt (hn.lt ht))
    · exact absurd e (Nat.ne_of_gt (hn.lt hu))
    · rfl

theorem numbered_step [DecidableEq A] {op : PoolOp A} (hn : p.Numbered) (hs : p.step op = some p') :
    p'.Numbered := by
  cases op with
  | push h off data now iter =>
    obtain rfl := Option.some.inj hs
    exact numbered_push hn
  | beginFlush a h =>
    simp only [step] at hs
    split at hs
    · obtain rfl := Option.some.inj hs
      rcases guarded_or_free p.buf h with hg | ⟨hg, hq⟩
      · rwa [beginFlush_of_refused hg]
      · rw [beginFlush_of_free hg hq]
        exact hn.congr rfl rfl
    · cases hs
  | ackFlush a =>
    obtain ⟨f, -, rfl⟩ := Option.map_eq_some_iff.mp hs
    exact hn.congr rfl rfl
  | failFlush a =>
    obtain ⟨f, -, rfl⟩ := Option.map_eq_some_iff.mp hs
    exact hn.congr rfl rfl
  | dropHandle a h =>
    obtain rfl := Option.some.inj hs
    exact hn.congr rfl rfl

/-- What is buffered was buffered before, or it has a new number. -/
def Feeds (p p' : Pool A) : Prop :=
  (∀ k, ∀ u ∈ p'.tags k, u ∈ p.tags k ∨ p.next ≤ u.1) ∧ p.next ≤ p'.next

theorem tags_step [DecidableEq A] {op : PoolOp A} (hs : p.step op = some p') : p.Feeds p' := by
  have hsame : p'.tags = p.tags → p'.next = p.next → p.Feeds p' :=
    fun ht hn => ⟨fun k u hu => .inl (ht ▸ hu), hn.ge⟩
  cases op with
  | push h off data now iter =>
    obtain rfl := Option.some.inj hs
    by_cases hr : (p.buf.push h off data now iter).1 = .reject
    · rw [push_of_reject hr] at hsame ⊢
      exact hsame rfl rfl
    · rw [push_of_accept hr]
      refine ⟨fun k u hu => ?_, Nat.le_succ _⟩
      simp only [Function.update_apply] at hu
      split at hu
      · next e =>
        rcases List.mem_append.mp hu with hu | hu
        · exact .inl (e ▸ hu)
        · exact .inr (List.mem_singleton.mp hu ▸ Nat.le_refl _)
      · exact .inl hu
  | beginFlush a h =>
    simp only [step] at hs
    split at hs
    · obtain rfl := Option.some.inj hs
      rcases guarded_or_free p.buf h with hg | ⟨hg, hq⟩
      · rw [beginFlush_of_refused hg] at hsame ⊢
        exact hsame rfl rfl
      · rw [beginFlush_of_free hg hq] at hsame ⊢
        exact hsame rfl rfl
    · cases hs
  | ackFlush a =>
    obtain ⟨f, -, rfl⟩ := Option.map_eq_some_iff.mp hs
    refine ⟨fun k u hu => .inl ?_, Nat.le_refl _⟩
    simp only [ackFlush, Function.update_apply] at hu
    split at hu
    · next e => exact e ▸ List.mem_of_mem_drop hu
    · exact hu
  | failFlush a =>
    obtain ⟨f, -, rfl⟩ := Option.map_eq_some_iff.mp hs
    exact hsame rfl rfl
  | dropHandle a h =>
    obtain rfl := Option.some.inj hs
    refine ⟨fun k u hu => .inl ?_, Nat.le_refl _⟩
    simp only [dropHandle, Function.update_apply] at hu
    split at hu
    · cases hu
    · exact hu

theorem Numbered.eq (hn : p.Numbered) (ht : t ∈ p.accepted h) (hu : u ∈ p.accepted h)
    (e : t.1 = u.1) : t = u := by
  by_contra hne
  have hsym : Std.Symm (fun t u : Tag => t.1 ≠ u.1) := ⟨fun _ _ h => Ne.symm h⟩
  exact List.Pairwise.forall ((hn.sorted h).imp Nat.ne_of_lt) ht hu hne e

/-! ## The chunks of some handles -/

/-- The accepted chunks of the handles, in the order of acceptance. -/
def order (p : Pool A) (hs : List Fh) : List (Fh × Tag) :=
  (hs.flatMap fun h => (p.accepted h).map (h, ·)).insertionSort fun x y => x.2.1 ≤ y.2.1

theorem mem_order : (h, t) ∈ p.order hs ↔ h ∈ hs ∧ t ∈ p.accepted h := by
  unfold order
  rw [(List.perm_insertionSort _ _).mem_iff, List.mem_flatMap]
  constructor
  · rintro ⟨k, hk, ht⟩
    obtain ⟨u, hu, e⟩ := List.mem_map.mp ht
    cases e
    exact ⟨hk, hu⟩
  · rintro ⟨hh, ht⟩
    exact ⟨h, hh, List.mem_map_of_mem ht⟩

theorem order_sorted (hn : p.Numbered) (hd : hs.Nodup) : (p.order hs).Pairwise (·.2.1 < ·.2.1) := by
  have htotal : Std.Total (fun x y : Fh × Tag => x.2.1 ≤ y.2.1) := ⟨fun _ _ => Nat.le_total _ _⟩
  have htrans : IsTrans (Fh × Tag) (fun x y => x.2.1 ≤ y.2.1) := ⟨fun _ _ _ => Nat.le_trans⟩
  have hsym : Std.Symm (fun x y : Fh × Tag => x.2.1 ≠ y.2.1) := ⟨fun _ _ h => Ne.symm h⟩
  have hle := List.pairwise_insertionSort (fun x y : Fh × Tag => x.2.1 ≤ y.2.1)
    (hs.flatMap fun h => (p.accepted h).map (h, ·))
  -- no number comes twice
  have hne : (hs.flatMap fun h => (p.accepted h).map (h, ·)).Pairwise fun x y => x.2.1 ≠ y.2.1 := by
    rw [List.pairwise_flatMap]
    refine ⟨fun h _ => ?_, hd.imp fun {h k} hhk x hx y hy e => ?_⟩
    · rw [List.pairwise_map]
      exact (hn.sorted h).imp Nat.ne_of_lt
    · obtain ⟨t, ht, rfl⟩ := List.mem_map.mp hx
      obtain ⟨u, hu, rfl⟩ := List.mem_map.mp hy
      exact hhk (hn.apart ht hu e)
  have hne' : (p.order hs).Pairwise fun x y => x.2.1 ≠ y.2.1 :=
    (List.perm_insertionSort _ _).pairwise_iff (fun h => Ne.symm h) |>.mpr hne
  exact (hle.and hne').imp fun h => Nat.lt_of_le_of_ne h.1 h.2

theorem eq_of_sorted {xs ys : List (Fh × Tag)} (hx : xs.Pairwise (·.2.1 < ·.2.1))
    (hy : ys.Pairwise (·.2.1 < ·.2.1)) (h : ∀ z, z ∈ xs ↔ z ∈ ys) : xs = ys := by
  have hirrefl : Std.Irrefl (fun x y : Fh × Tag => x.2.1 < y.2.1) := ⟨fun _ => Nat.lt_irrefl _⟩
  have hanti : Std.Antisymm (fun x y : Fh × Tag => x.2.1 < y.2.1) :=
    ⟨fun _ _ h h' => absurd h' (Nat.lt_asymm h)⟩
  exact hx.eq_of_mem_iff hy h

theorem order_congr (hn : p.Numbered) (hn' : p'.Numbered) (hd : hs.Nodup) (hd' : hs'.Nodup)
    (h : ∀ k t, (k ∈ hs' ∧ t ∈ p'.accepted k) ↔ (k ∈ hs ∧ t ∈ p.accepted k)) :
    p'.order hs' = p.order hs := by
  refine eq_of_sorted (order_sorted hn' hd') (order_sorted hn hd) fun ⟨k, t⟩ => ?_
  rw [mem_order, mem_order]
  exact h k t

/-- **An accepted chunk comes last.** -/
theorem order_push {off : UInt64} {data : Bytes} {now : Instant} {iter : List Fh} (hn : p.Numbered)
    (hd : hs.Nodup) (hh : h ∈ hs) (hr : (p.buf.push h off data now iter).1 ≠ .reject) :
    (p.push h off data now iter).order hs = p.order hs ++ [(h, p.next, ⟨off, data, now⟩)] := by
  refine eq_of_sorted (order_sorted (numbered_push hn) hd) ?_ fun ⟨k, t⟩ => ?_
  · rw [List.pairwise_append]
    refine ⟨order_sorted hn hd, List.pairwise_singleton _ _, fun x hx y hy => ?_⟩
    obtain rfl := List.mem_singleton.mp hy
    exact hn.lt (mem_order.mp hx).2
  · rw [mem_order, mem_accepted_push hr, List.mem_append, mem_order, List.mem_singleton]
    constructor
    · rintro ⟨hk, ht | ⟨rfl, rfl⟩⟩
      · exact .inl ⟨hk, ht⟩
      · exact .inr rfl
    · rintro (⟨hk, ht⟩ | hnew)
      · exact ⟨hk, .inl ht⟩
      · obtain ⟨rfl, rfl⟩ := Prod.mk.inj hnew
        exact ⟨hh, .inr ⟨rfl, rfl⟩⟩

end QuicFs.Client.Pool
