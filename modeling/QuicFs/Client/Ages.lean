import QuicFs.Client.Accounting

/-!
# The age of the buffered chunks

`older_than` looks at the first chunk of each handle only. That is enough as long as the chunks
of a handle lie in the order they were pushed in, the oldest first. No call breaks this order
while the clock does not go back (`aged_runOps`), so `older_than` finds a handle exactly if any
of its chunks has waited long enough (`mem_olderThan_runOps`).
-/

namespace QuicFs.Client

def BufOp.now? : BufOp → Option Instant
  | .push _ _ _ now _ => some now
  | _ => none

namespace WriteBuffer

/-- Each queue has its oldest chunk first, and no chunk is younger than `t`. -/
structure Aged (t : Instant) (wb : WriteBuffer) : Prop where
  ordered : ∀ h, (wb.queue h).Pairwise fun w w' => w.queuedAt ≤ w'.queuedAt
  le : ∀ h, ∀ w ∈ wb.queue h, w.queuedAt ≤ t

variable {wb : WriteBuffer} {t : Instant}

theorem aged_new (a b w : Nat) : Aged t (new a b w) := ⟨fun _ => .nil, fun _ _ hw => by cases hw⟩

theorem Aged.sublist {wb' : WriteBuffer} (ha : Aged t wb)
    (h : ∀ k, (wb'.queue k).Sublist (wb.queue k)) : Aged t wb' :=
  ⟨fun k => (ha.ordered k).sublist (h k), fun k w hw => ha.le k w ((h k).subset hw)⟩

theorem aged_push {h : Fh} {off : UInt64} {data : Bytes} {now : Instant} {iter : List Fh}
    (ha : Aged t wb) (hnow : t ≤ now) : Aged now (wb.push h off data now iter).2 := by
  have hlater : Aged now wb := ⟨ha.ordered, fun k w hw => (ha.le k w hw).trans hnow⟩
  by_cases hr : (wb.push h off data now iter).1 = .reject
  · rwa [push_of_reject hr]
  · refine ⟨fun k => ?_, fun k w hw => ?_⟩
    · rw [queue_push hr]
      split
      · refine List.pairwise_append.mpr
          ⟨ha.ordered h, List.pairwise_singleton .., fun w hw w' hw' => ?_⟩
        rw [List.mem_singleton.mp hw']
        exact hlater.le h w hw
      · exact ha.ordered k
    · rw [queue_push hr] at hw
      split at hw
      · rcases List.mem_append.mp hw with hw | hw
        · exact hlater.le h w hw
        · rw [List.mem_singleton.mp hw]
      · exact hlater.le k w hw

theorem aged_run (op : BufOp) (ha : Aged t wb) (hnow : ∀ now ∈ op.now?, t ≤ now) :
    Aged (op.now?.getD t) (op.run wb) := by
  cases op with
  | push h off data now iter => exact aged_push ha (hnow now rfl)
  | beginFlush h => exact ha.sublist fun k => by rw [BufOp.run, queue_beginFlush]
  | failFlush h => exact ha.sublist fun k => by rw [BufOp.run, queue_failFlush]
  | ackFlush h n =>
    refine ha.sublist fun k => ?_
    rw [BufOp.run, queue_ackFlush]
    split
    · next e => exact e ▸ List.drop_sublist n _
    · exact .refl _
  | dropHandle h =>
    refine ha.sublist fun k => ?_
    rw [BufOp.run, queue_dropHandle]
    split
    · exact List.nil_sublist _
    · exact .refl _

/-- **The oldest chunk stays first** through any calls, while the clock does not go back. -/
theorem aged_runOps {now : Instant} (ops : List BufOp) :
    ∀ {wb : WriteBuffer} {t : Instant}, Aged t wb →
    (t :: ops.filterMap BufOp.now? ++ [now]).Pairwise (· ≤ ·) → Aged now (wb.runOps ops) := by
  induction ops with
  | nil =>
    intro wb t ha hclock
    have hle : t ≤ now := by simpa using hclock
    exact ⟨ha.ordered, fun h w hw => (ha.le h w hw).trans hle⟩
  | cons op ops ih =>
    intro wb t ha hclock
    rw [runOps, List.foldl_cons]
    cases hop : op.now? with
    | none =>
      rw [List.filterMap_cons_none hop] at hclock
      have hstep := aged_run op ha (by simp [hop])
      rw [hop] at hstep
      exact ih hstep hclock
    | some s =>
      rw [List.filterMap_cons_some hop] at hclock
      obtain ⟨hle, hclock⟩ := List.pairwise_cons.mp hclock
      have hstep := aged_run op ha fun s' hs' => by
        obtain rfl := Option.some.inj (hop.symm.trans hs')
        exact hle s (List.mem_cons_self ..)
      rw [hop] at hstep
      exact ih hstep hclock

theorem mem_olderThan {d now : Nat} {h : Fh} :
    h ∈ wb.olderThan d now ↔ ∃ w ∈ (wb.queue h).head?, d ≤ now - w.queuedAt := by
  unfold olderThan queue
  rw [List.mem_filter, ← AList.mem_keys]
  cases hl : wb.perHandle.lookup h with
  | none => simp
  | some hb =>
    have hmem : h ∈ wb.perHandle := AList.lookup_isSome.mp (by rw [hl]; rfl)
    simp only [hmem, true_and, Option.bind_some, Option.map_some, Option.getD_some]
    cases hb.chunks.head? <;> simp

theorem Aged.mem_olderThan_iff {d now : Nat} {h : Fh} (ha : Aged now wb) :
    h ∈ wb.olderThan d now ↔ ∃ w ∈ wb.queue h, d ≤ now - w.queuedAt := by
  rw [mem_olderThan]
  have hord := ha.ordered h
  cases hq : wb.queue h with
  | nil => simp
  | cons first ws =>
    rw [hq] at hord
    constructor
    · rintro ⟨w, hw, hd⟩
      exact ⟨w, List.mem_of_head? hw, hd⟩
    · rintro ⟨w, hw, hd⟩
      refine ⟨first, rfl, ?_⟩
      rcases List.mem_cons.mp hw with rfl | hw
      · exact hd
      · exact hd.trans (Nat.sub_le_sub_left ((List.pairwise_cons.mp hord).1 w hw) now)

/-- **`older_than` sees every old chunk**: after any calls under a clock that does not go back it
names a handle exactly if one of its chunks has waited at least `d`, and names it once. -/
theorem mem_olderThan_runOps (maxPerHandle maxTotal windowMs : Nat) {ops : List BufOp}
    {now : Instant} (hclock : (ops.filterMap BufOp.now? ++ [now]).Pairwise (· ≤ ·)) (d : Nat) :
    (((new maxPerHandle maxTotal windowMs).runOps ops).olderThan d now).Nodup ∧
      ∀ h, h ∈ ((new maxPerHandle maxTotal windowMs).runOps ops).olderThan d now ↔
        ∃ w ∈ ((new maxPerHandle maxTotal windowMs).runOps ops).queue h, d ≤ now - w.queuedAt := by
  have hzero : ((0 : Nat) :: ops.filterMap BufOp.now? ++ [now]).Pairwise (· ≤ ·) :=
    List.pairwise_cons.mpr ⟨fun _ _ => Nat.zero_le _, hclock⟩
  have ha := aged_runOps ops (aged_new maxPerHandle maxTotal windowMs) hzero
  exact ⟨(AList.keys_nodup _).filter _, fun h => ha.mem_olderThan_iff⟩

/-- The first of two chunks is acknowledged; the other has waited long enough by then. -/
theorem mem_olderThan_runOps_acked :
    (((new 100 100 10).runOps
      [.push 1 0 [1] 3 [], .push 1 1 [2] 5 [], .push 2 0 [3] 9 [], .beginFlush 1,
        .ackFlush 1 1]).olderThan 4 9).Nodup ∧
      ∀ h, h ∈ ((new 100 100 10).runOps [.push 1 0 [1] 3 [], .push 1 1 [2] 5 [], .push 2 0 [3] 9 [],
        .beginFlush 1, .ackFlush 1 1]).olderThan 4 9 ↔
        ∃ w ∈ ((new 100 100 10).runOps [.push 1 0 [1] 3 [], .push 1 1 [2] 5 [], .push 2 0 [3] 9 [],
          .beginFlush 1, .ackFlush 1 1]).queue h, 4 ≤ 9 - w.queuedAt :=
  mem_olderThan_runOps 100 100 10 (by decide) 4

end WriteBuffer

end QuicFs.Client
