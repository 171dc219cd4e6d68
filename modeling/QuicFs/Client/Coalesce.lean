import QuicFs.Client.WriteBuf

/-!
# What a flush batch writes

`beginFlush` sorts the buffered chunks by offset and merges runs that touch. The
merge does not change what is written (`lastHit_coalesce`); the sort does: at each
position the chunk of greatest offset wins instead of the chunk pushed last
(`lastHit_batchOf`). So a batch has the effect of the pushes exactly when these two
chunks carry the same byte at every position (`OffsetOrderAgrees`).
-/

namespace QuicFs.Client

open QuicFs.Lib

def runBytes (rs : List (UInt64 × Bytes)) : Nat := (rs.map (·.2.length)).sum

@[simp] theorem runBytes_nil : runBytes [] = 0 := rfl

@[simp] theorem runBytes_cons (r : UInt64 × Bytes) (rs : List (UInt64 × Bytes)) :
    runBytes (r :: rs) = r.2.length + runBytes rs := by simp [runBytes]

@[simp] theorem runBytes_append (rs rs' : List (UInt64 × Bytes)) :
    runBytes (rs ++ rs') = runBytes rs + runBytes rs' := by simp [runBytes]

/-- The runs as extents. -/
abbrev extentsOf (rs : List (UInt64 × Bytes)) : List (Extent UInt8) := rs.map extentOf

theorem toNat_of_adjacent {o o' : UInt64} {n : Nat} (hle : o ≤ o') (hn : n < 2 ^ 64)
    (h : o + UInt64.ofNat n = o') : o'.toNat = o.toNat + n := by
  have ho := o.toNat_lt
  rw [UInt64.le_iff_toNat_le] at hle
  have := congrArg UInt64.toNat h
  rw [UInt64.toNat_add, UInt64.toNat_ofNat_of_lt' hn] at this
  omega

/-- One round of the merge: the chunk goes on from the last run, or it is a new run. -/
theorem coalesceStep_cases (merged : List (UInt64 × Bytes)) (c : UInt64 × Bytes) :
    (∃ init o d, merged = init ++ [(o, d)] ∧ o + UInt64.ofNat d.length = c.1 ∧
      coalesceStep merged c = init ++ [(o, d ++ c.2)]) ∨
    ((∀ r ∈ merged.getLast?, r.1 + UInt64.ofNat r.2.length ≠ c.1) ∧
      coalesceStep merged c = merged ++ [c]) := by
  unfold coalesceStep
  split
  · next o d hlast =>
    split
    · next heq =>
      obtain ⟨init, rfl⟩ := List.getLast?_eq_some_iff.mp hlast
      exact .inl ⟨init, o, d, rfl, heq, by rw [List.dropLast_concat]⟩
    · next hne =>
      refine .inr ⟨fun r hr => ?_, rfl⟩
      obtain rfl := Option.some.inj (hlast.symm.trans hr)
      exact hne
  · next hlast =>
    refine .inr ⟨fun r hr => ?_, rfl⟩
    cases (hlast.symm.trans hr : none = some r)

/-- One round of the merge writes what appending the chunk would. -/
theorem lastHit_coalesceStep {merged : List (UInt64 × Bytes)} {c : UInt64 × Bytes}
    (hle : ∀ r ∈ merged.getLast?, r.1 ≤ c.1) (hn : ∀ r ∈ merged.getLast?, r.2.length < 2 ^ 64)
    (p : Nat) :
    lastHit (extentsOf (coalesceStep merged c)) p = lastHit (extentsOf (merged ++ [c])) p := by
  rcases coalesceStep_cases merged c with ⟨init, o, d, rfl, heq, e⟩ | ⟨-, e⟩
  · have hlast : (o, d) ∈ (init ++ [(o, d)]).getLast? := List.getLast?_concat ..
    have hadj := toNat_of_adjacent (hle _ hlast) (hn _ hlast) heq
    rw [e]
    simp only [extentsOf, List.map_append, List.map_cons, List.map_nil, lastHit_append,
      lastHit_cons, lastHit_nil,
      Option.none_or, extentOf, hadj, Extent.hit_append, Option.or_assoc]
  · rw [e]

theorem runBytes_coalesceStep (merged : List (UInt64 × Bytes)) (c : UInt64 × Bytes) :
    runBytes (coalesceStep merged c) = runBytes merged + c.2.length := by
  rcases coalesceStep_cases merged c with ⟨init, o, d, rfl, -, e⟩ | ⟨-, e⟩
  · rw [e]; simp; omega
  · rw [e]; simp

def runData (rs : List (UInt64 × Bytes)) : Bytes := rs.flatMap Prod.snd

theorem runData_coalesceStep (merged : List (UInt64 × Bytes)) (c : UInt64 × Bytes) :
    runData (coalesceStep merged c) = runData merged ++ c.2 := by
  unfold runData
  rcases coalesceStep_cases merged c with ⟨init, o, d, rfl, -, e⟩ | ⟨-, e⟩ <;> rw [e] <;> simp

/-- **The merge keeps the bytes in their order.** -/
theorem runData_coalesce (pairs : List (UInt64 × Bytes)) :
    runData (coalesce pairs) = runData pairs := by
  have hfold : ∀ merged, runData (pairs.foldl coalesceStep merged) = runData merged ++
      runData pairs := by
    induction pairs with
    | nil => intro merged; simp [runData]
    | cons c pairs ih =>
      intro merged
      rw [List.foldl_cons, ih, runData_coalesceStep, List.append_assoc]
      rfl
  exact hfold []

theorem coalesceStep_ne_nil {merged : List (UInt64 × Bytes)} {c : UInt64 × Bytes}
    (h : ∀ r ∈ merged, r.2 ≠ []) (hc : c.2 ≠ []) : ∀ r ∈ coalesceStep merged c, r.2 ≠ [] := by
  rcases coalesceStep_cases merged c with ⟨init, o, d, rfl, -, e⟩ | ⟨-, e⟩ <;> rw [e] <;>
    intro r hr <;>
    rcases List.mem_append.mp hr with hr | hr
  · exact h r (List.mem_append_left _ hr)
  · rw [List.mem_singleton.mp hr]
    exact List.append_ne_nil_of_right_ne_nil _ hc
  · exact h r hr
  · rwa [List.mem_singleton.mp hr]

theorem coalesce_ne_nil {pairs : List (UInt64 × Bytes)} (h : ∀ c ∈ pairs, c.2 ≠ []) :
    ∀ r ∈ coalesce pairs, r.2 ≠ [] := by
  have hfold : ∀ merged : List (UInt64 × Bytes), (∀ r ∈ merged, r.2 ≠ []) →
      ∀ r ∈ pairs.foldl coalesceStep merged, r.2 ≠ [] := by
    induction pairs with
    | nil => exact fun merged hm => hm
    | cons c pairs ih =>
      intro merged hm
      exact ih (fun d hd => h d (List.mem_cons_of_mem _ hd)) _
        (coalesceStep_ne_nil hm (h c (List.mem_cons_self ..)))
  exact hfold [] (by simp)

theorem getLast?_coalesceStep {merged : List (UInt64 × Bytes)} {c r : UInt64 × Bytes}
    (hle : ∀ r ∈ merged.getLast?, r.1 ≤ c.1) (hr : r ∈ (coalesceStep merged c).getLast?) :
    r.1 ≤ c.1 := by
  rcases coalesceStep_cases merged c with ⟨init, o, d, rfl, -, e⟩ | ⟨-, e⟩ <;>
    rw [e, List.getLast?_concat] at hr <;> obtain rfl := Option.some.inj hr
  · exact hle (o, d) (List.getLast?_concat ..)
  · exact UInt64.le_refl _

/-- The rounds together, while a bound `I` keeps the last run within 64 bits. -/
theorem lastHit_foldl_coalesceStep {I : List (UInt64 × Bytes) → List (UInt64 × Bytes) → Prop}
    (hlen : ∀ {merged c pairs}, I merged (c :: pairs) → ∀ r ∈ merged.getLast?, r.2.length < 2 ^ 64)
    (hstep : ∀ {merged c pairs}, I merged (c :: pairs) → (∀ r ∈ merged.getLast?, r.1 ≤ c.1) →
      I (coalesceStep merged c) pairs) {pairs : List (UInt64 × Bytes)} :
    ∀ (merged : List (UInt64 × Bytes)), pairs.Pairwise (fun a b => a.1 ≤ b.1) →
      (∀ r ∈ merged.getLast?, ∀ c ∈ pairs, r.1 ≤ c.1) → I merged pairs → ∀ p,
      lastHit (extentsOf (pairs.foldl coalesceStep merged)) p =
        lastHit (extentsOf (merged ++ pairs)) p := by
  induction pairs with
  | nil => intro merged _ _ _ p; simp
  | cons c pairs ih =>
    intro merged hs hle hI p
    obtain ⟨hc, hs⟩ := List.pairwise_cons.mp hs
    have hle' : ∀ r ∈ merged.getLast?, r.1 ≤ c.1 := fun r hr => hle r hr c List.mem_cons_self
    rw [List.foldl_cons, ih _ hs]
    · rw [extentsOf, List.map_append, lastHit_append, lastHit_coalesceStep hle' (hlen hI)]
      simp only [extentsOf, List.map_append, List.map_cons, List.map_nil, lastHit_append,
        lastHit_cons, lastHit_nil, Option.none_or, Option.or_assoc]
    · intro r hr d hd
      exact UInt64.le_trans (getLast?_coalesceStep hle' hr) (hc d hd)
    · exact hstep hI hle'

theorem length_le_runBytes {rs : List (UInt64 × Bytes)} {r : UInt64 × Bytes} (h : r ∈ rs) :
    r.2.length ≤ runBytes rs := List.le_sum_of_mem (List.mem_map_of_mem h)

/-- **The merge is exact**: on sorted chunks the runs write what the chunks write. -/
theorem lastHit_coalesce {pairs : List (UInt64 × Bytes)}
    (hs : pairs.Pairwise (fun a b => a.1 ≤ b.1)) (hn : runBytes pairs < 2 ^ 64) (p : Nat) :
    lastHit (extentsOf (coalesce pairs)) p = lastHit (extentsOf pairs) p := by
  refine lastHit_foldl_coalesceStep
    (I := fun merged pairs => runBytes merged + runBytes pairs < 2 ^ 64)
    (fun hI r hr => ?_) (fun hI _ => ?_) [] hs (by simp) (by simpa using hn) p
  · have := length_le_runBytes (List.mem_of_getLast? hr)
    omega
  · rw [runBytes_cons] at hI
    rw [runBytes_coalesceStep]
    omega

/-! ### Runs that end within the offsets -/

def Fits (r : UInt64 × Bytes) : Prop := r.1.toNat + r.2.length < 2 ^ 64

/-- The runs end at offsets, and none where the next one starts. -/
structure Apart (rs : List (UInt64 × Bytes)) : Prop where
  fits : ∀ r ∈ rs, Fits r
  apart : rs.IsChain fun r r' => r.1.toNat + r.2.length ≠ r'.1.toNat

theorem apart_coalesceStep {merged : List (UInt64 × Bytes)} {c : UInt64 × Bytes} (h : Apart merged)
    (hc : Fits c) (hle : ∀ r ∈ merged.getLast?, r.1 ≤ c.1) : Apart (coalesceStep merged c) := by
  rcases coalesceStep_cases merged c with ⟨init, o, d, rfl, heq, e⟩ | ⟨hne, e⟩ <;> rw [e]
  · have hlast : (o, d) ∈ (init ++ [(o, d)]).getLast? := List.getLast?_concat ..
    have hfit : o.toNat + d.length < 2 ^ 64 :=
      h.fits _ (List.mem_append_right _ (List.mem_singleton_self _))
    have hadj : c.1.toNat = o.toNat + d.length := toNat_of_adjacent (hle _ hlast) (by omega) heq
    refine ⟨fun r hr => ?_, ?_⟩
    · rcases List.mem_append.mp hr with hr | hr
      · exact h.fits r (List.mem_append_left _ hr)
      · -- the longer run ends where the chunk does
        rw [List.mem_singleton.mp hr]
        unfold Fits at hc ⊢
        simp only [List.length_append]
        omega
    · obtain ⟨hinit, -, hbetween⟩ := List.isChain_append.mp h.apart
      refine List.isChain_append.mpr ⟨hinit, .singleton _, fun r hr r' hr' => ?_⟩
      obtain rfl := Option.some.inj hr'
      exact hbetween r hr (o, d) rfl
  · refine ⟨fun r hr => ?_, List.isChain_append.mpr ⟨h.apart, .singleton _, fun r hr r' hr' => ?_⟩⟩
    · rcases List.mem_append.mp hr with hr | hr
      · exact h.fits r hr
      · exact List.mem_singleton.mp hr ▸ hc
    · obtain rfl := Option.some.inj hr'
      intro heq
      have hfit : r.1.toNat + r.2.length < 2 ^ 64 := h.fits r (List.mem_of_getLast? hr)
      refine hne r hr (UInt64.toNat_inj.mp ?_)
      have hlen : r.2.length < 2 ^ 64 := by omega
      rw [UInt64.toNat_add, UInt64.toNat_ofNat_of_lt' hlen, heq]
      exact Nat.mod_eq_of_lt c.1.toNat_lt

theorem apart_foldl_coalesceStep {pairs : List (UInt64 × Bytes)} :
    ∀ {merged : List (UInt64 × Bytes)},
    pairs.Pairwise (fun a b => a.1 ≤ b.1) → (∀ r ∈ merged.getLast?, ∀ c ∈ pairs, r.1 ≤ c.1) →
    (∀ c ∈ pairs, Fits c) → Apart merged → Apart (pairs.foldl coalesceStep merged) := by
  induction pairs with
  | nil => exact fun _ _ _ h => h
  | cons c pairs ih =>
    intro merged hs hle hfit h
    obtain ⟨hc, hs⟩ := List.pairwise_cons.mp hs
    have hle' : ∀ r ∈ merged.getLast?, r.1 ≤ c.1 := fun r hr => hle r hr c List.mem_cons_self
    refine ih hs (fun r hr d hd => ?_) (fun d hd => hfit d (List.mem_cons_of_mem _ hd))
      (apart_coalesceStep h (hfit c List.mem_cons_self) hle')
    exact UInt64.le_trans (getLast?_coalesceStep hle' hr) (hc d hd)

/-- **The merge is exact and maximal**: on sorted chunks that end within the offsets the runs
write what the chunks write, hold their bytes in order, and no run ends where the next starts. -/
theorem coalesce_maximal {pairs : List (UInt64 × Bytes)} (hs : pairs.Pairwise fun a b => a.1 ≤ b.1)
    (hfit : ∀ c ∈ pairs, c.1.toNat + c.2.length < 2 ^ 64) :
    (∀ F, applyAll F (extentsOf (coalesce pairs)) = applyAll F (extentsOf pairs)) ∧
      (coalesce pairs).flatMap Prod.snd = pairs.flatMap Prod.snd ∧
      (coalesce pairs).IsChain fun r r' => r.1.toNat + r.2.length ≠ r'.1.toNat := by
  have hnil : Apart [] := ⟨nofun, .nil⟩
  refine ⟨fun F => applyAll_congr F fun p => ?_, runData_coalesce pairs,
    (apart_foldl_coalesceStep hs (by simp) hfit hnil).apart⟩
  refine lastHit_foldl_coalesceStep (I := fun merged pairs => Apart merged ∧ ∀ c ∈ pairs, Fits c)
    (fun hI r hr => ?_) (fun hI hle => ?_) [] hs (by simp) ⟨hnil, hfit⟩ p
  · have := hI.1.fits r (List.mem_of_getLast? hr)
    unfold Fits at this
    omega
  · exact ⟨apart_coalesceStep hI.1 (hI.2 _ List.mem_cons_self) hle,
      fun d hd => hI.2 d (List.mem_cons_of_mem _ hd)⟩

/-- An overlap, an offset that occurs twice and an empty chunk. -/
theorem coalesce_maximal_overlapping :
    coalesce [(0, [1, 2]), (1, [3]), (1, [4, 5]), (2, []), (2, [6])] =
      [(0, [1, 2]), (1, [3]), (1, [4, 5]), (2, [6])] ∧
    applyAll [] (extentsOf (coalesce [(0, [1, 2]), (1, [3]), (1, [4, 5]), (2, []), (2, [6])])) =
      applyAll [] (extentsOf [(0, [1, 2]), (1, [3]), (1, [4, 5]), (2, []), (2, [6])]) :=
  ⟨by decide, (coalesce_maximal (by decide) (by decide)).1 []⟩

theorem sortByOffset_sorted (pairs : List (UInt64 × Bytes)) :
    (sortByOffset pairs).Pairwise (fun a b => a.1 ≤ b.1) := by
  have htotal : Std.Total (fun a b : UInt64 × Bytes => a.1 ≤ b.1) :=
    ⟨fun a b => UInt64.le_total _ _⟩
  have htrans : IsTrans (UInt64 × Bytes) (fun a b => a.1 ≤ b.1) := ⟨fun _ _ _ => UInt64.le_trans⟩
  exact List.pairwise_insertionSort _ pairs

theorem extentsOf_sortByOffset (pairs : List (UInt64 × Bytes)) :
    extentsOf (sortByOffset pairs) = (extentsOf pairs).insertionSort (fun a b => a.off ≤ b.off) :=
  List.map_insertionSort _ _ _ _ fun _ _ _ _ => UInt64.le_iff_toNat_le

theorem runBytes_sortByOffset (pairs : List (UInt64 × Bytes)) :
    runBytes (sortByOffset pairs) = runBytes pairs :=
  ((List.perm_insertionSort _ pairs).map _).sum_nat

theorem runBytes_pairsOf (ws : List PendingWrite) : runBytes (pairsOf ws) = byteCount ws := by
  simp [runBytes, pairsOf, byteCount, Function.comp_def]

/-- The chunks of a queue as extents, in push order. -/
abbrev chunkExtents (ws : List PendingWrite) : List (Extent UInt8) := ws.map PendingWrite.extent

theorem extentsOf_pairsOf (ws : List PendingWrite) : extentsOf (pairsOf ws) = chunkExtents ws := by
  simp only [extentsOf, pairsOf, chunkExtents, List.map_map]
  rfl

/-- **A batch writes, at each position, the chunk of greatest offset.** -/
theorem lastHit_batchOf {ws : List PendingWrite} (hn : byteCount ws < 2 ^ 64) (p : Nat) :
    lastHit (extentsOf (WriteBuffer.batchOf ws).chunks) p = topHit (chunkExtents ws) p := by
  rw [WriteBuffer.batchOf, lastHit_coalesce (sortByOffset_sorted _)
    (by rw [runBytes_sortByOffset, runBytes_pairsOf]; exact hn), extentsOf_sortByOffset,
    lastHit_insertionSort, extentsOf_pairsOf]

theorem batchOf_covers {ws : List PendingWrite} (hn : byteCount ws < 2 ^ 64) (p : Nat) :
    (lastHit (extentsOf (WriteBuffer.batchOf ws).chunks) p).isSome =
      (lastHit (chunkExtents ws) p).isSome := by
  rw [lastHit_batchOf hn, ← lastHit_insertionSort]
  exact lastHit_isSome_of_perm (List.perm_insertionSort _ _) p

/-! ## Where a chunk goes -/

def Within (c r : UInt64 × Bytes) : Prop :=
  ∃ before after, r.2 = before ++ c.2 ++ after ∧ c.1.toNat = r.1.toNat + before.length

theorem Within.refl (c : UInt64 × Bytes) : Within c c := ⟨[], [], by simp, rfl⟩

theorem within_coalesceStep {merged : List (UInt64 × Bytes)} {c : UInt64 × Bytes}
    (hle : ∀ r ∈ merged.getLast?, r.1 ≤ c.1) (hn : ∀ r ∈ merged.getLast?, r.2.length < 2 ^ 64)
    {x : UInt64 × Bytes} (hx : x = c ∨ ∃ r ∈ merged, Within x r) :
    ∃ r ∈ coalesceStep merged c, Within x r := by
  rcases coalesceStep_cases merged c with ⟨init, o, d, rfl, heq, e⟩ | ⟨-, e⟩ <;> rw [e]
  · have hlast : (o, d) ∈ (init ++ [(o, d)]).getLast? := List.getLast?_concat ..
    have hadj := toNat_of_adjacent (hle _ hlast) (hn _ hlast) heq
    have hnew : (o, d ++ c.2) ∈ init ++ [(o, d ++ c.2)] :=
      List.mem_append_right _ (List.mem_singleton_self _)
    rcases hx with rfl | ⟨r, hr, hw⟩
    · exact ⟨_, hnew, d, [], by simp, hadj⟩
    · rcases List.mem_append.mp hr with hr | hr
      · exact ⟨r, List.mem_append_left _ hr, hw⟩
      · obtain rfl := List.mem_singleton.mp hr
        obtain ⟨before, after, hd, ho⟩ := hw
        exact ⟨_, hnew, before, after ++ c.2, by simp [show d = _ from hd], ho⟩
  · rcases hx with rfl | ⟨r, hr, hw⟩
    · exact ⟨x, List.mem_append_right _ (List.mem_singleton_self _), .refl x⟩
    · exact ⟨r, List.mem_append_left _ hr, hw⟩

theorem within_foldl_coalesceStep {pairs : List (UInt64 × Bytes)} :
    ∀ {merged : List (UInt64 × Bytes)},
    pairs.Pairwise (fun a b => a.1 ≤ b.1) → (∀ r ∈ merged.getLast?, ∀ c ∈ pairs, r.1 ≤ c.1) →
    runBytes merged + runBytes pairs < 2 ^ 64 → ∀ {x}, (x ∈ pairs ∨ ∃ r ∈ merged, Within x r) →
      ∃ r ∈ pairs.foldl coalesceStep merged, Within x r := by
  induction pairs with
  | nil => exact fun _ _ _ _ hx => hx.resolve_left (List.not_mem_nil)
  | cons c pairs ih =>
    intro merged hs hle hn x hx
    obtain ⟨hc, hs⟩ := List.pairwise_cons.mp hs
    rw [runBytes_cons] at hn
    have hle' : ∀ r ∈ merged.getLast?, r.1 ≤ c.1 := fun r hr => hle r hr c List.mem_cons_self
    have hlen : ∀ r ∈ merged.getLast?, r.2.length < 2 ^ 64 := by
      intro r hr
      have := length_le_runBytes (List.mem_of_getLast? hr)
      omega
    refine ih hs (fun r hr d hd => UInt64.le_trans (getLast?_coalesceStep hle' hr) (hc d hd)) ?_ ?_
    · rw [runBytes_coalesceStep]
      omega
    · rcases hx with hx | hx
      · rcases List.mem_cons.mp hx with rfl | hx
        · exact .inr (within_coalesceStep hle' hlen (.inl rfl))
        · exact .inl hx
      · exact .inr (within_coalesceStep hle' hlen (.inr hx))

/-- **A batch carries every chunk in one piece.** -/
theorem within_batchOf {ws : List PendingWrite} (hn : byteCount ws < 2 ^ 64) {x : PendingWrite}
    (hx : x ∈ ws) : ∃ r ∈ (WriteBuffer.batchOf ws).chunks, Within (x.offset, x.data) r := by
  have hmem : (x.offset, x.data) ∈ sortByOffset (pairsOf ws) :=
    (List.perm_insertionSort _ _).mem_iff.mpr (List.mem_map_of_mem hx)
  refine within_foldl_coalesceStep (sortByOffset_sorted _) (by simp) ?_ (.inl hmem)
  rw [runBytes_nil, runBytes_sortByOffset, runBytes_pairsOf, Nat.zero_add]
  exact hn

/-! ## Write-back against write-through -/

/-- At every position the chunk pushed last among those covering it and the chunk of
greatest offset among them (the later push on a tie) carry the same byte. -/
def OffsetOrderAgrees (es : List (Extent UInt8)) : Prop :=
  ∀ p d e, lastExtent es p = some d → topExtent es p = some e → d.hit p = e.hit p

theorem topExtent_isSome (es : List (Extent UInt8)) (p : Nat) :
    (topExtent es p).isSome = (lastExtent es p).isSome := by
  induction es with
  | nil => rfl
  | cons e es ih =>
    rw [topExtent, lastExtent]
    cases h1 : topExtent es p <;> cases h2 : lastExtent es p <;> simp_all
    split <;> rfl

theorem offsetOrderAgrees_iff {es : List (Extent UInt8)} :
    OffsetOrderAgrees es ↔ ∀ p, topHit es p = lastHit es p := by
  unfold OffsetOrderAgrees
  refine forall_congr' fun p => ?_
  have hs := topExtent_isSome es p
  rw [topHit, lastHit_eq_bind]
  cases h1 : topExtent es p <;> cases h2 : lastExtent es p
  · simp
  · simp_all
  · simp_all
  · simp only [Option.some.injEq, Option.bind_some]
    exact ⟨fun h => (h _ _ rfl rfl).symm, by rintro h _ _ rfl rfl; exact h.symm⟩

/-- A call of `push` on one handle: its arguments, the clock and the map's iteration order. -/
structure Push where
  offset : UInt64
  data : Bytes
  now : Instant
  iter : List Fh

def Push.chunk (c : Push) : PendingWrite := ⟨c.offset, c.data, c.now⟩

/-- A sequence of pushes on one handle, `none` as soon as one is refused. -/
def WriteBuffer.pushAll (wb : WriteBuffer) (h : Fh) : List Push → Option WriteBuffer
  | [] => some wb
  | c :: cs =>
    match wb.push h c.offset c.data c.now c.iter with
    | (.reject, _) => none
    | (_, wb) => wb.pushAll h cs

theorem pushAll_cons {wb wb' : WriteBuffer} {h : Fh} {c : Push} {cs : List Push}
    (hp : wb.pushAll h (c :: cs) = some wb') :
    (wb.push h c.offset c.data c.now c.iter).1 ≠ .reject ∧
      (wb.push h c.offset c.data c.now c.iter).2.pushAll h cs = some wb' := by
  rw [WriteBuffer.pushAll] at hp
  split at hp
  · cases hp
  · rename_i hd
    rw [hd]
    exact ⟨fun hr => by simp_all, hp⟩

/-- The accepted pushes are the new end of the queue and fit the hard bound. -/
theorem queue_pushAll {h : Fh} {cs : List Push} : ∀ {wb wb' : WriteBuffer},
    wb.pushAll h cs = some wb' →
      wb'.queue h = wb.queue h ++ cs.map Push.chunk ∧
        wb'.hardTotalBytes = wb.hardTotalBytes ∧
        (cs ≠ [] → wb.totalBytes + byteCount (cs.map Push.chunk) ≤ wb.hardTotalBytes) := by
  induction cs with
  | nil => intro wb wb' hp; cases hp; simp
  | cons c cs ih =>
    intro wb wb' hp
    obtain ⟨ha, hp⟩ := pushAll_cons hp
    obtain ⟨hq, hh, hb⟩ := ih hp
    rw [WriteBuffer.queue_push ha, if_pos rfl] at hq
    rw [WriteBuffer.hardTotalBytes_push] at hh hb
    rw [WriteBuffer.totalBytes_push ha] at hb
    have hle := mt WriteBuffer.push_reject_iff.mpr ha
    refine ⟨by simpa [Push.chunk] using hq, hh, fun _ => ?_⟩
    by_cases hcs : cs = []
    · subst hcs; simp [byteCount, Push.chunk]; omega
    · have := hb hcs
      simp only [byteCount, List.map_cons, List.sum_cons, Push.chunk] at this ⊢
      omega

theorem guarded_pushAll {h : Fh} {cs : List Push} : ∀ {wb wb' : WriteBuffer},
    wb.pushAll h cs = some wb' → wb'.guarded h = wb.guarded h := by
  induction cs with
  | nil => intro wb wb' hp; cases hp; rfl
  | cons c cs ih =>
    intro wb wb' hp
    obtain ⟨-, hp⟩ := pushAll_cons hp
    rw [ih hp, WriteBuffer.guarded_push]

theorem exists_pushAll {h : Fh} {cs : List Push} : ∀ {wb : WriteBuffer},
    wb.totalBytes + byteCount (cs.map Push.chunk) ≤ wb.hardTotalBytes →
      ∃ wb', wb.pushAll h cs = some wb' := by
  induction cs with
  | nil => intro wb _; exact ⟨wb, rfl⟩
  | cons c cs ih =>
    intro wb hfit
    simp only [byteCount, List.map_cons, List.sum_cons, Push.chunk] at hfit ih
    have ha : (wb.push h c.offset c.data c.now c.iter).1 ≠ .reject :=
      mt WriteBuffer.push_reject_iff.mp (by omega)
    obtain ⟨wb', hwb'⟩ : ∃ wb',
        (wb.push h c.offset c.data c.now c.iter).2.pushAll h cs = some wb' := by
      refine ih ?_
      rw [WriteBuffer.totalBytes_push ha, WriteBuffer.hardTotalBytes_push]
      omega
    refine ⟨wb', ?_⟩
    rw [WriteBuffer.pushAll]
    split
    · next he => exact absurd (congrArg Prod.fst he) ha
    · next he => rwa [he] at hwb'

theorem byteCount_lt_of_pushAll {h : Fh} {cs : List Push} {wb wb' : WriteBuffer}
    (hp : wb.pushAll h cs = some wb') : byteCount (cs.map Push.chunk) < 2 ^ 64 := by
  obtain ⟨_, _, hb⟩ := queue_pushAll hp
  have hmax := wb.hardTotal_le
  simp only [usizeMax] at hmax
  by_cases hcs : cs = []
  · subst hcs; simp [byteCount]
  · have := hb hcs; omega

/-- **Write-back against write-through.** After any accepted pushes on a handle, the
batch written in order leaves the file the pushes would have left, exactly when the
offset order and the push order agree on every byte. -/
theorem flush_eq_pushes_iff {wb wb' : WriteBuffer} {h : Fh} {cs : List Push} {b : FlushBatch}
    (h0 : wb.queue h = []) (hp : wb.pushAll h cs = some wb') (hb : (wb'.beginFlush h).1 = some b)
    (F : Bytes) :
    applyAll F (extentsOf b.chunks) = applyAll F (chunkExtents (cs.map Push.chunk)) ↔
      OffsetOrderAgrees (chunkExtents (cs.map Push.chunk)) := by
  obtain ⟨hq, -, -⟩ := queue_pushAll hp
  rw [h0, List.nil_append] at hq
  obtain ⟨-, -, rfl⟩ := WriteBuffer.beginFlush_eq_some.mp hb
  have hn := byteCount_lt_of_pushAll hp
  rw [hq, applyAll_eq_iff F (batchOf_covers hn), offsetOrderAgrees_iff]
  simp only [lastHit_batchOf hn]

/-- Three chunks pushed out of order, two of them touching. -/
theorem flush_eq_pushes_iff_scattered :
    ∃ wb' b, (WriteBuffer.new 10000 100000 60000).pushAll 1
        [⟨2, [3, 4], 0, []⟩, ⟨0, [1, 2], 0, []⟩, ⟨9, [5], 0, []⟩] = some wb' ∧
      (wb'.beginFlush 1).1 = some b ∧
      (applyAll [] (extentsOf b.chunks) =
          applyAll [] (chunkExtents [⟨2, [3, 4], 0⟩, ⟨0, [1, 2], 0⟩, ⟨9, [5], 0⟩]) ↔
        OffsetOrderAgrees (chunkExtents [⟨2, [3, 4], 0⟩, ⟨0, [1, 2], 0⟩, ⟨9, [5], 0⟩])) := by
  have hrun : ∃ wb' b, (WriteBuffer.new 10000 100000 60000).pushAll 1
      [⟨2, [3, 4], 0, []⟩, ⟨0, [1, 2], 0, []⟩, ⟨9, [5], 0, []⟩] = some wb' ∧
      (wb'.beginFlush 1).1 = some b := ⟨_, _, rfl, rfl⟩
  obtain ⟨wb', b, hpush, hbegin⟩ := hrun
  exact ⟨wb', b, hpush, hbegin, flush_eq_pushes_iff rfl hpush hbegin []⟩

/-- A later push at a lower offset that overlaps an earlier one: the flush puts the
earlier bytes back on top. -/
theorem overlap_flushed_out_of_order :
    ∃ wb' b, (WriteBuffer.new 10000 100000 60000).pushAll 1
        [⟨10, [1, 1, 1, 1], 0, []⟩, ⟨8, [2, 2, 2, 2], 0, []⟩] = some wb' ∧
      (wb'.beginFlush 1).1 = some b ∧
      applyAll [] (extentsOf b.chunks) ≠
        applyAll [] (chunkExtents [⟨10, [1, 1, 1, 1], 0⟩, ⟨8, [2, 2, 2, 2], 0⟩]) :=
  ⟨_, _, rfl, rfl, by decide⟩

end QuicFs.Client
