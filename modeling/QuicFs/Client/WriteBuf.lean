import Mathlib
import QuicFs.Common.Frames

/-!
# The coalescing write buffer

`WriteBuffer` of `client/src/writebuf.rs`: per open handle a queue of chunks that
stay until their flush is acknowledged, a `sending` guard, and a byte count over
all handles. `Instant` is the value of a monotone clock.

A `HashMap` is an association list with distinct keys; where the code iterates one,
the order is an argument (`iter`), since Rust leaves it unspecified.

`queue` and `guarded` read a buffer handle by handle. The lemmas say what each
operation does to them; later modules use these and never unfold the operations.
-/

namespace QuicFs.Client

open QuicFs.Lib

/-- The kernel-facing handle of an open file. -/
abbrev Fh := Nat

abbrev Instant := Nat

/-- One deferred write chunk. -/
structure PendingWrite where
  offset : UInt64
  data : Bytes
  queuedAt : Instant
  deriving DecidableEq, Repr

def PendingWrite.extent (w : PendingWrite) : Extent UInt8 := extentOf (w.offset, w.data)

/-- Per-handle queue plus the single-sender guard. -/
structure HandleBuf where
  chunks : List PendingWrite := []
  sending : Bool := false
  deriving DecidableEq, Repr

def byteCount (ws : List PendingWrite) : Nat := (ws.map (·.data.length)).sum

def HandleBuf.bytes (hb : HandleBuf) : Nat := byteCount hb.chunks

/-- `usize::MAX` on a 64-bit client. -/
def usizeMax : Nat := 2 ^ 64 - 1

structure WriteBuffer where
  perHandle : AList (fun _ : Fh => HandleBuf)
  totalBytes : Nat
  /-- Soft per-handle limit. -/
  maxPerHandleBytes : Nat
  /-- Soft global limit. -/
  maxTotalBytes : Nat
  /-- Hard global limit: `push` refuses to enqueue past it. -/
  hardTotalBytes : Nat
  /-- Coalesce window. -/
  window : Nat
  hardTotal_le : hardTotalBytes ≤ usizeMax

/-- A coalesced snapshot to transmit for one handle. -/
structure FlushBatch where
  chunks : List (UInt64 × Bytes)
  sentCount : Nat
  deriving DecidableEq, Repr

inductive PushDecision where
  | buffered
  | flushThis (h : Fh)
  | flushOther (h : Fh)
  | reject
  deriving DecidableEq, Repr

/-- `Iterator::max_by_key`: the last of the greatest elements. -/
def maxByKey {α : Type} (key : α → Nat) : List α → Option α
  | [] => none
  | a :: l => some (l.foldl (fun m b => if key m ≤ key b then b else m) a)

/-- One round of the coalescing loop: extend the last run or start a new one. -/
def coalesceStep (merged : List (UInt64 × Bytes)) (c : UInt64 × Bytes) : List (UInt64 × Bytes) :=
  match merged.getLast? with
  | some (lastOff, lastData) =>
    if lastOff + UInt64.ofNat lastData.length = c.1 then
      merged.dropLast ++ [(lastOff, lastData ++ c.2)]
    else merged ++ [c]
  | none => merged ++ [c]

def coalesce (pairs : List (UInt64 × Bytes)) : List (UInt64 × Bytes) := pairs.foldl coalesceStep []

/-- `sort_by_key` on the offset, which is stable. -/
def sortByOffset (pairs : List (UInt64 × Bytes)) : List (UInt64 × Bytes) :=
  pairs.insertionSort (fun a b => a.1 ≤ b.1)

def pairsOf (ws : List PendingWrite) : List (UInt64 × Bytes) := ws.map fun w => (w.offset, w.data)

namespace WriteBuffer

def new (maxPerHandleBytes maxTotalBytes windowMs : Nat) : WriteBuffer where
  perHandle := ∅
  totalBytes := 0
  maxPerHandleBytes := maxPerHandleBytes
  maxTotalBytes := maxTotalBytes
  hardTotalBytes := min (maxTotalBytes * 2) usizeMax
  window := windowMs
  hardTotal_le := Nat.min_le_right _ _

def bytesOf (wb : WriteBuffer) (h : Fh) : Nat :=
  ((wb.perHandle.lookup h).map HandleBuf.bytes).getD 0

/-- The handle `push` asks to flush at the global limit, for a given iteration order. -/
def biggest (wb : WriteBuffer) (iter : List Fh) (handle : Fh) : Fh :=
  (maxByKey wb.bytesOf iter).getD handle

/-- Buffer a write chunk, or refuse it at the hard memory bound. -/
def push (wb : WriteBuffer) (handle : Fh) (offset : UInt64) (data : Bytes) (now : Instant)
    (iter : List Fh) : PushDecision × WriteBuffer :=
  let n := data.length
  if wb.totalBytes + n > wb.hardTotalBytes then (.reject, wb)
  else
    let entry := (wb.perHandle.lookup handle).getD {}
    let entry := { entry with chunks := entry.chunks ++ [⟨offset, data, now⟩] }
    let wb := { wb with
      perHandle := wb.perHandle.insert handle entry
      totalBytes := wb.totalBytes + n }
    if entry.bytes ≥ wb.maxPerHandleBytes then (.flushThis handle, wb)
    else if wb.totalBytes ≥ wb.maxTotalBytes then (.flushOther (wb.biggest iter handle), wb)
    else (.buffered, wb)

/-- Mark `handle` sending and take a coalesced snapshot of its chunks. -/
def beginFlush (wb : WriteBuffer) (handle : Fh) : Option FlushBatch × WriteBuffer :=
  match wb.perHandle.lookup handle with
  | none => (none, wb)
  | some hb =>
    if hb.sending || hb.chunks.isEmpty then (none, wb)
    else
      (some ⟨coalesce (sortByOffset (pairsOf hb.chunks)), hb.chunks.length⟩,
        { wb with perHandle := wb.perHandle.insert handle { hb with sending := true } })

/-- The flush of `handle` was acknowledged: drop the first `sentCount` chunks. -/
def ackFlush (wb : WriteBuffer) (handle : Fh) (sentCount : Nat) : WriteBuffer :=
  match wb.perHandle.lookup handle with
  | none => wb
  | some hb =>
    let take := min sentCount hb.chunks.length
    let removed := byteCount (hb.chunks.take take)
    let hb := { hb with chunks := hb.chunks.drop take, sending := false }
    { wb with
      totalBytes := wb.totalBytes - removed
      perHandle :=
        if hb.chunks.isEmpty then wb.perHandle.erase handle else wb.perHandle.insert handle hb }

/-- The flush of `handle` failed: clear the guard, keep the chunks. -/
def failFlush (wb : WriteBuffer) (handle : Fh) : WriteBuffer :=
  match wb.perHandle.lookup handle with
  | none => wb
  | some hb => { wb with perHandle := wb.perHandle.insert handle { hb with sending := false } }

/-- Drop all of `handle`'s chunks and return the bytes freed. -/
def dropHandle (wb : WriteBuffer) (handle : Fh) : Nat × WriteBuffer :=
  match wb.perHandle.lookup handle with
  | none => (0, wb)
  | some hb =>
    (hb.bytes, { wb with
      perHandle := wb.perHandle.erase handle
      totalBytes := wb.totalBytes - hb.bytes })

/-- Handles whose oldest chunk has waited at least `deadline`. -/
def olderThan (wb : WriteBuffer) (deadline : Nat) (now : Instant) : List Fh :=
  wb.perHandle.keys.filter fun h =>
    match (wb.perHandle.lookup h).bind (·.chunks.head?) with
    | some w => decide (now - w.queuedAt ≥ deadline)
    | none => false

def expiredHandles (wb : WriteBuffer) (now : Instant) : List Fh := wb.olderThan wb.window now

def handles (wb : WriteBuffer) : List Fh := wb.perHandle.keys

def hasBuffered (wb : WriteBuffer) (handle : Fh) : Bool :=
  ((wb.perHandle.lookup handle).map fun hb => !hb.chunks.isEmpty).getD false

/-! ## The buffer handle by handle -/

/-- The chunks buffered for a handle, in push order. -/
def queue (wb : WriteBuffer) (h : Fh) : List PendingWrite :=
  ((wb.perHandle.lookup h).map HandleBuf.chunks).getD []

def guarded (wb : WriteBuffer) (h : Fh) : Bool :=
  ((wb.perHandle.lookup h).map HandleBuf.sending).getD false

variable {wb : WriteBuffer} {h k : Fh} {off : UInt64} {data : Bytes} {now : Instant}
    {iter : List Fh}
  {n : Nat}

@[simp] theorem queue_new (a b w : Nat) : (new a b w).queue h = [] := rfl

@[simp] theorem guarded_new (a b w : Nat) : (new a b w).guarded h = false := rfl

theorem hasBuffered_eq : wb.hasBuffered h = !(wb.queue h).isEmpty := by
  unfold hasBuffered queue
  cases wb.perHandle.lookup h <;> rfl

theorem push_reject_iff :
    (wb.push h off data now iter).1 = .reject ↔
    wb.hardTotalBytes < wb.totalBytes + data.length := by
  unfold push
  simp only
  split
  · simpa using ‹_›
  · rename_i hle
    split
    · simpa using hle
    · split <;> simpa using hle

theorem push_of_reject (hr : (wb.push h off data now iter).1 = .reject) :
    (wb.push h off data now iter).2 = wb := by
  unfold push
  simp only
  rw [if_pos (push_reject_iff.mp hr)]

/-- The buffer an accepted push leaves, whatever it decided. -/
theorem push_of_accept (ha : (wb.push h off data now iter).1 ≠ .reject) :
    (wb.push h off data now iter).2 = { wb with
      perHandle := wb.perHandle.insert h
        { ((wb.perHandle.lookup h).getD {}) with
          chunks := ((wb.perHandle.lookup h).getD {}).chunks ++ [⟨off, data, now⟩] }
      totalBytes := wb.totalBytes + data.length } := by
  have hle := mt push_reject_iff.mpr ha
  unfold push
  simp only
  rw [if_neg hle]
  split
  · rfl
  · split <;> rfl

theorem queue_push (ha : (wb.push h off data now iter).1 ≠ .reject) :
    (wb.push h off data now iter).2.queue k =
      if k = h then wb.queue h ++ [⟨off, data, now⟩] else wb.queue k := by
  rw [push_of_accept ha]
  unfold queue
  split
  · next e => subst e; cases wb.perHandle.lookup k <;> simp
  · next e => simp [AList.lookup_insert_ne e]

theorem guarded_push : (wb.push h off data now iter).2.guarded k = wb.guarded k := by
  by_cases ha : (wb.push h off data now iter).1 = .reject
  · rw [push_of_reject ha]
  · rw [push_of_accept ha]
    unfold guarded
    by_cases e : k = h
    · subst e; cases wb.perHandle.lookup k <;> simp
    · simp [AList.lookup_insert_ne e]

theorem hardTotalBytes_push :
    (wb.push h off data now iter).2.hardTotalBytes = wb.hardTotalBytes := by
  by_cases ha : (wb.push h off data now iter).1 = .reject
  · rw [push_of_reject ha]
  · rw [push_of_accept ha]

theorem totalBytes_push (ha : (wb.push h off data now iter).1 ≠ .reject) :
    (wb.push h off data now iter).2.totalBytes = wb.totalBytes + data.length := by
  rw [push_of_accept ha]

/-- What a flush of the queue `ws` transmits. -/
def batchOf (ws : List PendingWrite) : FlushBatch :=
  ⟨coalesce (sortByOffset (pairsOf ws)), ws.length⟩

theorem beginFlush_fst :
    (wb.beginFlush h).1 =
      if wb.guarded h ∨ wb.queue h = [] then none else some (batchOf (wb.queue h)) := by
  unfold beginFlush guarded queue
  cases e : wb.perHandle.lookup h with
  | none => simp
  | some hb => cases hs : hb.sending <;> cases hc : hb.chunks <;> simp [hs, hc, batchOf]

theorem beginFlush_eq_some {b : FlushBatch} :
    (wb.beginFlush h).1 = some b ↔
      wb.guarded h = false ∧ wb.queue h ≠ [] ∧ b = batchOf (wb.queue h) := by
  rw [beginFlush_fst]
  split
  · simp only [reduceCtorEq, false_iff]
    rintro ⟨h1, h2, -⟩
    simp_all
  · rename_i hn
    simp only [not_or, Bool.not_eq_true] at hn
    simp [hn, eq_comm]

theorem beginFlush_of_none (hn : (wb.beginFlush h).1 = none) : (wb.beginFlush h).2 = wb := by
  unfold beginFlush at hn ⊢
  cases e : wb.perHandle.lookup h with
  | none => rfl
  | some hb =>
    simp only [e] at hn ⊢
    split
    · rfl
    · rename_i hfree
      rw [if_neg hfree] at hn
      cases hn

theorem queue_beginFlush : (wb.beginFlush h).2.queue k = wb.queue k := by
  unfold beginFlush
  cases e : wb.perHandle.lookup h with
  | none => rfl
  | some hb =>
    simp only
    split
    · rfl
    · unfold queue
      by_cases ek : k = h
      · subst ek; simp [e]
      · simp [AList.lookup_insert_ne ek]

theorem guarded_beginFlush :
    (wb.beginFlush h).2.guarded k =
      if k = h ∧ (wb.beginFlush h).1.isSome then true else wb.guarded k := by
  unfold beginFlush
  cases e : wb.perHandle.lookup h with
  | none => simp
  | some hb =>
    simp only
    split
    · simp
    · unfold guarded
      by_cases ek : k = h
      · subst ek; simp
      · simp [AList.lookup_insert_ne ek, ek]

theorem lookup_ackFlush :
    (wb.ackFlush h n).perHandle.lookup k =
      if k = h then (wb.perHandle.lookup h).bind fun hb =>
        if (hb.chunks.drop n).isEmpty then none else some ⟨hb.chunks.drop n, false⟩
      else wb.perHandle.lookup k := by
  unfold ackFlush
  cases e : wb.perHandle.lookup h with
  | none =>
    by_cases ek : k = h
    · subst ek; simp [e]
    · simp [ek]
  | some hb =>
    have hd : hb.chunks.drop (min n hb.chunks.length) = hb.chunks.drop n := by
      rcases Nat.le_total n hb.chunks.length with hn | hn
      · rw [Nat.min_eq_left hn]
      · rw [Nat.min_eq_right hn, List.drop_length, List.drop_eq_nil_of_le hn]
    simp only [hd, Option.bind_some]
    by_cases ek : k = h
    · subst ek; rw [if_pos rfl]; split <;> simp
    · rw [if_neg ek]; split <;> simp only [AList.lookup_insert_ne ek, AList.lookup_erase_ne ek]

theorem lookup_failFlush :
    (wb.failFlush h).perHandle.lookup k =
      if k = h then (wb.perHandle.lookup h).map ({ · with sending := false })
      else wb.perHandle.lookup k := by
  unfold failFlush
  cases e : wb.perHandle.lookup h with
  | none =>
    by_cases ek : k = h
    · subst ek; simp [e]
    · simp [ek]
  | some hb =>
    by_cases ek : k = h
    · subst ek; simp
    · simp [ek, AList.lookup_insert_ne ek]

theorem lookup_dropHandle :
    (wb.dropHandle h).2.perHandle.lookup k = if k = h then none else wb.perHandle.lookup k := by
  unfold dropHandle
  cases e : wb.perHandle.lookup h with
  | none =>
    by_cases ek : k = h
    · subst ek; simp [e]
    · simp [ek]
  | some hb =>
    by_cases ek : k = h
    · subst ek; simp
    · simp [ek, AList.lookup_erase_ne ek]

theorem queue_ackFlush :
    (wb.ackFlush h n).queue k = if k = h then (wb.queue h).drop n else wb.queue k := by
  unfold queue
  rw [lookup_ackFlush]
  split
  · cases wb.perHandle.lookup h with
    | none => simp
    | some hb =>
      simp only [Option.bind_some, Option.map_some, Option.getD_some]
      split
      · next hem => simp [List.isEmpty_iff.mp hem]
      · simp
  · rfl

theorem guarded_ackFlush :
    (wb.ackFlush h n).guarded k = if k = h then false else wb.guarded k := by
  unfold guarded
  rw [lookup_ackFlush]
  split
  · cases wb.perHandle.lookup h with
    | none => rfl
    | some hb => simp only [Option.bind_some]; split <;> rfl
  · rfl

theorem queue_failFlush : (wb.failFlush h).queue k = wb.queue k := by
  unfold queue
  rw [lookup_failFlush]
  split
  · next ek => subst ek; cases wb.perHandle.lookup k <;> rfl
  · rfl

theorem guarded_failFlush : (wb.failFlush h).guarded k = if k = h then false else wb.guarded k := by
  unfold guarded
  rw [lookup_failFlush]
  split
  · cases wb.perHandle.lookup h <;> rfl
  · rfl

theorem queue_dropHandle : (wb.dropHandle h).2.queue k = if k = h then [] else wb.queue k := by
  unfold queue
  rw [lookup_dropHandle]
  split <;> rfl

theorem guarded_dropHandle :
    (wb.dropHandle h).2.guarded k = if k = h then false else wb.guarded k := by
  unfold guarded
  rw [lookup_dropHandle]
  split <;> rfl

theorem dropHandle_fst : (wb.dropHandle h).1 = byteCount (wb.queue h) := by
  unfold dropHandle queue
  cases wb.perHandle.lookup h <;> rfl

end WriteBuffer

end QuicFs.Client
