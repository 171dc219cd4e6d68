import QuicFs.Client.WriteBuf

/-!
# The byte count of the write buffer

`runOps` is any sequence of calls on a `WriteBuffer`, with any arguments. Along it the
byte count stays the sum over the buffered chunks and within the hard limit
(`accounted_runOps`), so that the chunks of one handle always fit a `usize`
(`byteCount_queue_lt`), and no handle keeps an entry without chunks (`occupied_runOps`).
`exact_runOps` is what a caller can rely on after any such sequence.
-/

namespace QuicFs.Client

/-- A call on the buffer. -/
inductive BufOp where
  | push (h : Fh) (offset : UInt64) (data : Bytes) (now : Instant) (iter : List Fh)
  | beginFlush (h : Fh)
  | ackFlush (h : Fh) (sentCount : Nat)
  | failFlush (h : Fh)
  | dropHandle (h : Fh)
  deriving Repr

def BufOp.run (wb : WriteBuffer) : BufOp → WriteBuffer
  | .push h offset data now iter => (wb.push h offset data now iter).2
  | .beginFlush h => (wb.beginFlush h).2
  | .ackFlush h n => wb.ackFlush h n
  | .failFlush h => wb.failFlush h
  | .dropHandle h => (wb.dropHandle h).2

namespace WriteBuffer

def runOps (wb : WriteBuffer) (ops : List BufOp) : WriteBuffer := ops.foldl BufOp.run wb

def mapBytes (m : AList (fun _ : Fh => HandleBuf)) : Nat := (m.entries.map fun e => e.2.bytes).sum

/-- The byte count is exact and within the hard limit. -/
structure Accounted (wb : WriteBuffer) : Prop where
  total_eq : wb.totalBytes = mapBytes wb.perHandle
  total_le : wb.totalBytes ≤ wb.hardTotalBytes

theorem sum_kerase (h : Fh) (l : List (Sigma fun _ : Fh => HandleBuf)) :
    (l.map fun e => e.2.bytes).sum =
      ((l.dlookup h).map HandleBuf.bytes).getD 0 + ((l.kerase h).map fun e => e.2.bytes).sum := by
  induction l with
  | nil => rfl
  | cons e l ih =>
    obtain ⟨k, hb⟩ := e
    by_cases hk : h = k
    · subst hk; simp [List.kerase_cons_eq]
    · rw [List.dlookup_cons_ne _ _ hk, List.kerase_cons_ne (by simpa using hk)]
      simp only [List.map_cons, List.sum_cons, ih]
      omega

theorem mapBytes_erase (h : Fh) (m : AList (fun _ : Fh => HandleBuf)) :
    mapBytes m = ((m.lookup h).map HandleBuf.bytes).getD 0 + mapBytes (m.erase h) :=
  sum_kerase h m.entries

theorem mapBytes_insert (h : Fh) (hb : HandleBuf) (m : AList (fun _ : Fh => HandleBuf)) :
    mapBytes (m.insert h hb) = hb.bytes + mapBytes (m.erase h) := by
  simp [mapBytes, AList.erase]

theorem mapBytes_replace {h : Fh} {old : HandleBuf} {m : AList (fun _ : Fh => HandleBuf)}
    (hb : HandleBuf) (hl : m.lookup h = some old) :
    mapBytes (m.insert h hb) + old.bytes = mapBytes m + hb.bytes := by
  have := mapBytes_erase h m
  rw [hl] at this
  simp only [Option.map_some, Option.getD_some] at this
  rw [mapBytes_insert]
  omega

theorem bytes_take_add_drop (ws : List PendingWrite) (n : Nat) :
    byteCount (ws.take n) + byteCount (ws.drop n) = byteCount ws := by
  simp only [byteCount]
  rw [← List.sum_append, ← List.map_append, List.take_append_drop]

theorem accounted_new (a b w : Nat) : (new a b w).Accounted := ⟨rfl, Nat.zero_le _⟩

variable {wb : WriteBuffer}

theorem accounted_push {h : Fh} {off : UInt64} {data : Bytes} {now : Instant} {iter : List Fh}
    (ha : wb.Accounted) : (wb.push h off data now iter).2.Accounted := by
  by_cases hr : (wb.push h off data now iter).1 = .reject
  · rwa [push_of_reject hr]
  · have hle := mt push_reject_iff.mpr hr
    rw [push_of_accept hr]
    refine ⟨?_, by simpa using hle⟩
    simp only [mapBytes_insert]
    rw [ha.total_eq, mapBytes_erase h wb.perHandle]
    cases wb.perHandle.lookup h <;> simp [HandleBuf.bytes, byteCount] <;> omega

theorem accounted_beginFlush {h : Fh} (ha : wb.Accounted) : (wb.beginFlush h).2.Accounted := by
  unfold beginFlush
  cases hl : wb.perHandle.lookup h with
  | none => exact ha
  | some hb =>
    simp only
    split
    · exact ha
    · refine ⟨?_, ha.total_le⟩
      have := mapBytes_replace { hb with sending := true } hl
      simp only [HandleBuf.bytes] at this
      simp only [ha.total_eq]
      omega

theorem accounted_ackFlush {h : Fh} {n : Nat} (ha : wb.Accounted) :
    (wb.ackFlush h n).Accounted := by
  unfold ackFlush
  cases hl : wb.perHandle.lookup h with
  | none => exact ha
  | some hb =>
    have hsplit := bytes_take_add_drop hb.chunks (min n hb.chunks.length)
    have herase := mapBytes_erase h wb.perHandle
    rw [hl] at herase
    simp only [Option.map_some, Option.getD_some, HandleBuf.bytes] at herase
    refine ⟨?_, Nat.le_trans (Nat.sub_le _ _) ha.total_le⟩
    simp only [ha.total_eq]
    split
    · rename_i hem
      rw [List.isEmpty_iff] at hem
      rw [hem] at hsplit
      have : byteCount [] = 0 := rfl
      omega
    · rw [mapBytes_insert]
      simp only [HandleBuf.bytes]
      omega

theorem accounted_failFlush {h : Fh} (ha : wb.Accounted) : (wb.failFlush h).Accounted := by
  unfold failFlush
  cases hl : wb.perHandle.lookup h with
  | none => exact ha
  | some hb =>
    refine ⟨?_, ha.total_le⟩
    have := mapBytes_replace { hb with sending := false } hl
    simp only [HandleBuf.bytes] at this
    simp only [ha.total_eq]
    omega

theorem accounted_dropHandle {h : Fh} (ha : wb.Accounted) : (wb.dropHandle h).2.Accounted := by
  unfold dropHandle
  cases hl : wb.perHandle.lookup h with
  | none => exact ha
  | some hb =>
    refine ⟨?_, Nat.le_trans (Nat.sub_le _ _) ha.total_le⟩
    have := mapBytes_erase h wb.perHandle
    rw [hl] at this
    simp only [ha.total_eq, Option.map_some, Option.getD_some] at this ⊢
    omega

theorem accounted_run (op : BufOp) (ha : wb.Accounted) : (op.run wb).Accounted := by
  cases op with
  | push => exact accounted_push ha
  | beginFlush => exact accounted_beginFlush ha
  | ackFlush => exact accounted_ackFlush ha
  | failFlush => exact accounted_failFlush ha
  | dropHandle => exact accounted_dropHandle ha

/-- **The byte count stays exact** along any sequence of calls. -/
theorem accounted_runOps (ops : List BufOp) (ha : wb.Accounted) : (wb.runOps ops).Accounted := by
  induction ops generalizing wb with
  | nil => exact ha
  | cons op ops ih => exact ih (accounted_run op ha)

theorem byteCount_queue (h : Fh) :
    byteCount (wb.queue h) = ((wb.perHandle.lookup h).map HandleBuf.bytes).getD 0 := by
  unfold queue
  cases wb.perHandle.lookup h <;> rfl

theorem Accounted.byteCount_queue_lt (ha : wb.Accounted) (h : Fh) :
    byteCount (wb.queue h) < 2 ^ 64 := by
  have hle := ha.total_le
  have heq := ha.total_eq
  have hmax := wb.hardTotal_le
  simp only [usizeMax] at hmax
  rw [mapBytes_erase h, ← byteCount_queue] at heq
  omega

/-! ## Entries and limits -/

def Occupied (wb : WriteBuffer) : Prop := ∀ h, ∀ hb ∈ wb.perHandle.lookup h, hb.chunks ≠ []

theorem occupied_new (a b w : Nat) : (new a b w).Occupied := by
  intro h hb hl
  cases hl

theorem Occupied.insert (ho : wb.Occupied) {h : Fh} {hb : HandleBuf}
    (hne : hb.chunks ≠ []) {n : Nat} :
    Occupied { wb with perHandle := wb.perHandle.insert h hb, totalBytes := n } := by
  intro k hb' hl
  by_cases e : k = h
  · subst e
    rw [AList.lookup_insert] at hl
    cases hl
    exact hne
  · rw [AList.lookup_insert_ne e] at hl
    exact ho k hb' hl

theorem occupied_run (op : BufOp) (ho : wb.Occupied) : (op.run wb).Occupied := by
  cases op with
  | push h off data now iter =>
    change (wb.push h off data now iter).2.Occupied
    by_cases hr : (wb.push h off data now iter).1 = .reject
    · rwa [push_of_reject hr]
    · rw [push_of_accept hr]
      exact ho.insert (by simp)
  | beginFlush h =>
    change (wb.beginFlush h).2.Occupied
    unfold beginFlush
    cases hl : wb.perHandle.lookup h with
    | none => exact ho
    | some hb =>
      simp only
      split
      · exact ho
      · refine ho.insert ?_
        exact ho h hb hl
  | ackFlush h n =>
    intro k hb hl
    rw [BufOp.run, lookup_ackFlush] at hl
    split at hl
    · -- an acknowledged entry stays only with what is left of its queue
      obtain ⟨old, -, hif⟩ := Option.bind_eq_some_iff.mp hl
      split at hif
      · cases hif
      · next hne =>
        cases hif
        simpa using hne
    · exact ho k hb hl
  | failFlush h =>
    intro k hb hl
    rw [BufOp.run, lookup_failFlush] at hl
    split at hl
    · obtain ⟨old, hold, rfl⟩ := Option.map_eq_some_iff.mp hl
      exact ho h old hold
    · exact ho k hb hl
  | dropHandle h =>
    intro k hb hl
    rw [BufOp.run, lookup_dropHandle] at hl
    split at hl
    · cases hl
    · exact ho k hb hl

theorem occupied_runOps (ops : List BufOp) (ho : wb.Occupied) : (wb.runOps ops).Occupied := by
  induction ops generalizing wb with
  | nil => exact ho
  | cons op ops ih => exact ih (occupied_run op ho)

def limits (wb : WriteBuffer) : Nat × Nat × Nat :=
  (wb.maxPerHandleBytes, wb.maxTotalBytes, wb.hardTotalBytes)

theorem limits_run (op : BufOp) : (op.run wb).limits = wb.limits := by
  cases op with
  | push h off data now iter =>
    change (wb.push h off data now iter).2.limits = wb.limits
    by_cases hr : (wb.push h off data now iter).1 = .reject
    · rw [push_of_reject hr]
    · rw [push_of_accept hr]
      rfl
  | beginFlush h =>
    change (wb.beginFlush h).2.limits = wb.limits
    unfold beginFlush
    cases wb.perHandle.lookup h with
    | none => rfl
    | some hb => simp only; split <;> rfl
  | ackFlush h n =>
    change (wb.ackFlush h n).limits = wb.limits
    unfold ackFlush
    cases wb.perHandle.lookup h <;> rfl
  | failFlush h =>
    change (wb.failFlush h).limits = wb.limits
    unfold failFlush
    cases wb.perHandle.lookup h <;> rfl
  | dropHandle h =>
    change (wb.dropHandle h).2.limits = wb.limits
    unfold dropHandle
    cases wb.perHandle.lookup h <;> rfl

theorem limits_runOps (ops : List BufOp) : (wb.runOps ops).limits = wb.limits := by
  induction ops generalizing wb with
  | nil => rfl
  | cons op ops ih => exact ih.trans (limits_run op)

/-- A push that asks for no flush leaves both soft limits unreached. -/
theorem push_buffered {h : Fh} {off : UInt64} {data : Bytes} {now : Instant} {iter : List Fh}
    (hb : (wb.push h off data now iter).1 = .buffered) :
    (wb.push h off data now iter).2.bytesOf h < wb.maxPerHandleBytes ∧
      (wb.push h off data now iter).2.totalBytes < wb.maxTotalBytes := by
  have ha : (wb.push h off data now iter).1 ≠ .reject := by simp [hb]
  have hle := mt push_reject_iff.mpr ha
  unfold push at hb
  simp only [if_neg hle] at hb
  split at hb
  · cases hb
  · next hthis =>
    split at hb
    · cases hb
    · next htotal =>
      rw [push_of_accept ha]
      refine ⟨?_, Nat.lt_of_not_le htotal⟩
      simpa [bytesOf] using hthis

/-- What a caller can rely on in a buffer made with the given soft limits. -/
structure Exact (maxPerHandle maxTotal : Nat) (wb : WriteBuffer) : Prop where
  total_eq : wb.totalBytes = mapBytes wb.perHandle
  /-- No subtraction of the byte count saturates. -/
  take_le : ∀ h n, byteCount ((wb.queue h).take n) ≤ wb.totalBytes
  total_le : wb.totalBytes ≤ wb.hardTotalBytes
  hard_eq : wb.hardTotalBytes = maxTotal * 2
  occupied : wb.Occupied
  drop_frees : ∀ h, (wb.dropHandle h).1 = byteCount (wb.queue h) ∧
    (wb.dropHandle h).2.totalBytes + (wb.dropHandle h).1 = wb.totalBytes
  reject_iff : ∀ h off data now iter,
    (wb.push h off data now iter).1 = .reject ↔ wb.hardTotalBytes < wb.totalBytes + data.length
  reject_eq : ∀ h off data now iter,
    (wb.push h off data now iter).1 = .reject → (wb.push h off data now iter).2 = wb
  buffered_lt : ∀ h off data now iter, (wb.push h off data now iter).1 = .buffered →
    (wb.push h off data now iter).2.bytesOf h < maxPerHandle ∧
      (wb.push h off data now iter).2.totalBytes < maxTotal

theorem Accounted.byteCount_queue_le (ha : wb.Accounted) (h : Fh) :
    byteCount (wb.queue h) ≤ wb.totalBytes := by
  rw [ha.total_eq, mapBytes_erase h, byteCount_queue]
  omega

theorem totalBytes_dropHandle (ha : wb.Accounted) (h : Fh) :
    (wb.dropHandle h).2.totalBytes + (wb.dropHandle h).1 = wb.totalBytes := by
  have hle := ha.byteCount_queue_le h
  rw [← dropHandle_fst] at hle
  unfold dropHandle at hle ⊢
  cases hl : wb.perHandle.lookup h with
  | none => simp
  | some hb =>
    simp only [hl] at hle ⊢
    omega

theorem Accounted.exact {a b : Nat} (ha : wb.Accounted) (ho : wb.Occupied)
    (hl : wb.limits = (a, b, b * 2)) : Exact a b wb := by
  simp only [limits, Prod.mk.injEq] at hl
  obtain ⟨hper, htotal, hhard⟩ := hl
  refine ⟨ha.total_eq, fun h n => ?_, ha.total_le, hhard, ho,
    fun h => ⟨dropHandle_fst, totalBytes_dropHandle ha h⟩, fun h off data now iter =>
      push_reject_iff,
    fun h off data now iter => push_of_reject, fun h off data now iter hb => ?_⟩
  · have hsplit := bytes_take_add_drop (wb.queue h) n
    have hle := ha.byteCount_queue_le h
    omega
  · rw [← hper, ← htotal]
    exact push_buffered hb

/-- **The byte count never drifts**: after any sequence of calls it is the sum over the buffered
chunks, within the hard limit, with no empty entry, and the results of `push` and `dropHandle`
say exactly what happened to it. -/
theorem exact_runOps (maxPerHandle maxTotal windowMs : Nat) (hfit : maxTotal * 2 ≤ usizeMax)
    (ops : List BufOp) :
    Exact maxPerHandle maxTotal ((new maxPerHandle maxTotal windowMs).runOps ops) := by
  have ha := accounted_runOps ops (accounted_new maxPerHandle maxTotal windowMs)
  have ho := occupied_runOps ops (occupied_new maxPerHandle maxTotal windowMs)
  refine ha.exact ho ?_
  rw [limits_runOps]
  simp only [limits, new, Nat.min_eq_left hfit]

/-- An unmatched acknowledgement, a drop and a push at the hard limit. -/
theorem exact_runOps_unmatched :
    Exact 8 4 ((new 8 4 0).runOps [.push 1 0 [1, 2, 3] 0 [], .push 2 0 [4, 5, 6, 7, 8] 0 [],
      .push 2 9 [0] 0 [], .beginFlush 1, .ackFlush 1 7, .ackFlush 2 0, .dropHandle 2]) :=
  exact_runOps 8 4 0 (by decide) _

end WriteBuffer

end QuicFs.Client
