import QuicFs.Client.Accounting
import QuicFs.Client.Coalesce
import QuicFs.Client.Conn
import QuicFs.Server.Data

/-!
# Sending a batch again

The send loop of `flush_one` against the server's Write handler, on one file with no
other writer. An attempt may stop anywhere: frames that never arrive, a frame the
operating system writes only in part, a reply that is lost. The chunks then stay
buffered and the next attempt sends a batch of them and of what was pushed since.

Everything a failed attempt left behind lies where the later batch writes
(`sendRuns_within`), so a complete attempt hides it (`replay_idempotent`).
-/

namespace QuicFs.System

open Lib Client Server

/-- How far an attempt gets: for each run that is sent, the operating system's answers to
the frames that arrive. The runs past the end of the list are never sent. -/
abbrev Delivery := List (List OsWrite)

/-- Send the runs of a batch one after another until one is not acknowledged. -/
def sendRuns (chunkSize : UInt32) (handle : ServerHandle) (file : Bytes) :
    List (UInt64 × Bytes) → Delivery → Bytes × Bool
  | [], _ => (file, true)
  | _ :: _, [] => (file, false)
  | (offset, data) :: runs, oss :: rest =>
    match handleWrite false ⟨file, 0⟩ ((writeFrames chunkSize handle offset data).zip oss) with
    | (some (.ok, _), st) => sendRuns chunkSize handle st.file runs rest
    | (_, st) => (st.file, false)

variable {chunkSize : UInt32} {handle : ServerHandle}

theorem sendRuns_within (runs : List (UInt64 × Bytes)) : ∀ (file : Bytes) (d : Delivery),
    ∃ es, (sendRuns chunkSize handle file runs d).1 = applyAll file es ∧
      ∀ p, (lastHit es p).isSome → (lastHit (extentsOf runs) p).isSome := by
  induction runs with
  | nil => intro file d; exact ⟨[], by cases d <;> rfl, by simp⟩
  | cons r runs ih =>
    intro file d
    obtain ⟨offset, data⟩ := r
    cases d with
    | nil => exact ⟨[], rfl, by simp⟩
    | cons oss rest =>
      have hrun := handleWrite_within ⟨file, 0⟩ oss
        (writeFrames_chained chunkSize handle offset data)
      rw [payload_writeFrames] at hrun
      obtain ⟨es, hes, hcov⟩ := hrun
      have hfirst : ∀ p, (lastHit es p).isSome →
          (lastHit (extentsOf ((offset, data) :: runs)) p).isSome := by
        intro p hp
        rw [extentsOf, List.map_cons, lastHit_cons, Option.isSome_or]
        simp [extentOf, hcov p hp]
      rw [sendRuns]
      split
      · rename_i st he
        rw [he] at hes
        obtain ⟨es', hes', hcov'⟩ := ih st.file rest
        refine ⟨es ++ es', by rw [hes', applyAll_append, ← hes], fun p hp => ?_⟩
        rw [lastHit_append, Option.isSome_or, Bool.or_eq_true] at hp
        rcases hp with hp | hp
        · rw [extentsOf, List.map_cons, lastHit_cons, Option.isSome_or, hcov' p hp, Bool.true_or]
        · exact hfirst p hp
      · rename_i st _ he
        rw [he] at hes
        exact ⟨es, hes, hfirst⟩

theorem sendRuns_complete {runs : List (UInt64 × Bytes)} : ∀ {file : Bytes} {d : Delivery},
    (sendRuns chunkSize handle file runs d).2 = true →
      ∀ file', sendRuns chunkSize handle file' runs d =
      (applyAll file' (extentsOf runs), true) := by
  induction runs with
  | nil => intro file d _ file'; cases d <;> rfl
  | cons r runs ih =>
    intro file d h file'
    obtain ⟨offset, data⟩ := r
    cases d with
    | nil => cases h
    | cons oss rest =>
      rw [sendRuns] at h
      split at h
      · rename_i total st he
        have hreply : (handleWrite false ⟨file', 0⟩
            ((writeFrames chunkSize handle offset data).zip oss)).1 = some (.ok, total) := by
          rw [handleWrite_congr _ ⟨file', 0⟩ ⟨file, 0⟩ rfl, he]
        have hfile := handleWrite_ok (writeFrames_chained chunkSize handle offset data) hreply
        rw [payload_writeFrames] at hfile
        rw [sendRuns]
        rcases e : handleWrite false ⟨file', 0⟩ ((writeFrames chunkSize handle offset data).zip oss)
          with ⟨reply, st'⟩
        rw [e] at hreply hfile
        simp only at hreply hfile
        subst hreply
        simp only [ih h, hfile]
        rfl
      · cases h

/-- One attempt at flushing a handle: the calls that led to the buffer it starts from,
the batch `begin_flush` gave, the server handle it is sent on and how far it gets. -/
structure Attempt where
  ops : List BufOp
  batch : FlushBatch
  handle : ServerHandle
  delivery : Delivery

def resend (chunkSize : UInt32) (file : Bytes) (tries : List Attempt) : Bytes :=
  tries.foldl (fun f a => (sendRuns chunkSize a.handle f a.batch.chunks a.delivery).1) file

/-- What failed attempts leave lies within any extents that cover their batches. -/
theorem resend_within {tries : List Attempt} {cover : List (Extent UInt8)} : ∀ (file : Bytes),
    (∀ a ∈ tries, ∀ p, (lastHit (extentsOf a.batch.chunks) p).isSome → (lastHit cover p).isSome) →
    ∃ es, resend chunkSize file tries = applyAll file es ∧
      ∀ p, (lastHit es p).isSome → (lastHit cover p).isSome := by
  induction tries with
  | nil => intro file _; exact ⟨[], rfl, by simp⟩
  | cons a tries ih =>
    intro file h
    obtain ⟨es, hes, hcov⟩ := sendRuns_within a.batch.chunks file a.delivery
    obtain ⟨es', hes', hcov'⟩ := ih (sendRuns chunkSize a.handle file a.batch.chunks
      a.delivery).1 fun b hb => h b (List.mem_cons_of_mem _ hb)
    refine ⟨es ++ es', by rw [applyAll_append, ← hes]; exact hes', fun p hp => ?_⟩
    rw [lastHit_append, Option.isSome_or, Bool.or_eq_true] at hp
    exact hp.elim (hcov' p) fun hp => h a List.mem_cons_self p (hcov p hp)

theorem batchOf_covers_prefix {ws ws' : List PendingWrite} (hpre : ws <+: ws')
    (hn : byteCount ws' < 2 ^ 64) {p : Nat}
    (hp : (lastHit (extentsOf (WriteBuffer.batchOf ws).chunks) p).isSome) :
    (lastHit (extentsOf (WriteBuffer.batchOf ws').chunks) p).isSome := by
  obtain ⟨more, rfl⟩ := hpre
  have hn' : byteCount ws < 2 ^ 64 := by
    simp only [byteCount, List.map_append, List.sum_append] at hn ⊢
    omega
  rw [batchOf_covers hn'] at hp
  rw [batchOf_covers hn, chunkExtents, List.map_append, lastHit_append, Option.isSome_or, hp,
    Bool.or_true]

section
variable {perHandle total window : Nat} {h : Fh}

/-- The buffer an attempt starts from. -/
abbrev Attempt.buffer (perHandle total window : Nat) (a : Attempt) : WriteBuffer :=
  (WriteBuffer.new perHandle total window).runOps a.ops

/-- The chunks buffered for `h` at `a` are a prefix of those at `b`. -/
def Grows (perHandle total window : Nat) (h : Fh) (a b : Attempt) : Prop :=
  (a.buffer perHandle total window).queue h <+: (b.buffer perHandle total window).queue h

instance : Trans (Grows perHandle total window h) (Grows perHandle total window h)
    (Grows perHandle total window h) := ⟨List.IsPrefix.trans⟩

/-- **Replay is idempotent.** After any number of failed attempts whose buffers grow, a
complete attempt leaves the file it would have left alone. -/
theorem replay_idempotent {tries : List Attempt} {last : Attempt} {F G : Bytes}
    (hbegin : ∀ a ∈ tries ++ [last],
      ((a.buffer perHandle total window).beginFlush h).1 = some a.batch)
    (hgrow : (tries ++ [last]).IsChain (Grows perHandle total window h))
    (hlast : sendRuns chunkSize last.handle (resend chunkSize F tries) last.batch.chunks
      last.delivery = (G, true)) :
    sendRuns chunkSize last.handle F last.batch.chunks last.delivery = (G, true) := by
  have hn := (WriteBuffer.accounted_runOps last.ops
    (WriteBuffer.accounted_new perHandle total window)).byteCount_queue_lt h
  have hbatch : ∀ a ∈ tries ++ [last],
      a.batch = WriteBuffer.batchOf ((a.buffer perHandle total window).queue h) :=
    fun a ha => (WriteBuffer.beginFlush_eq_some.mp (hbegin a ha)).2.2
  have hcover : ∀ a ∈ tries, ∀ p, (lastHit (extentsOf a.batch.chunks) p).isSome →
      (lastHit (extentsOf last.batch.chunks) p).isSome := by
    intro a ha p hp
    rw [hbatch a (by simp [ha])] at hp
    rw [hbatch last (by simp)]
    exact batchOf_covers_prefix ((List.pairwise_append.mp hgrow.pairwise).2.2 a ha last (by simp))
      hn hp
  obtain ⟨es, hes, hcov⟩ := resend_within F hcover
  have hdone := sendRuns_complete (congrArg Prod.snd hlast)
  have hG := hdone (resend chunkSize F tries)
  rw [hlast, Prod.mk.injEq] at hG
  rw [hdone F, hG.1, hes, applyAll_absorb F hcov]

/-- An attempt whose second frame stops after one byte. -/
def tornAttempt : Attempt :=
  ⟨[.push 1 0 [1, 2, 3, 4] 0 []], ⟨[(0, [1, 2, 3, 4])], 1⟩, 5, [[⟨9, .other⟩, ⟨1, .other⟩]]⟩

/-- The attempt after it, with a push over part of the first chunk; every frame lands. -/
def secondAttempt : Attempt :=
  ⟨[.push 1 0 [1, 2, 3, 4] 0 [], .beginFlush 1, .failFlush 1, .push 1 1 [9] 0 []],
    ⟨[(0, [1, 2, 3, 4]), (1, [9])], 2⟩, 6, [[⟨9, .other⟩, ⟨9, .other⟩], [⟨9, .other⟩]]⟩

theorem replay_idempotent_torn_frame :
    sendRuns 2 6 [7, 7, 7, 7, 7, 7] secondAttempt.batch.chunks secondAttempt.delivery =
      ([1, 9, 3, 4, 7, 7], true) := by
  have hbegin : ∀ a ∈ [tornAttempt] ++ [secondAttempt],
      ((a.buffer 10000 100000 60000).beginFlush 1).1 = some a.batch := by
    intro a ha
    rcases List.mem_append.mp ha with ha | ha <;> obtain rfl := List.mem_singleton.mp ha <;> rfl
  have hgrow : ([tornAttempt] ++ [secondAttempt]).IsChain (Grows 10000 100000 60000 1) :=
    .cons_cons ⟨[⟨1, [9], 0⟩], rfl⟩ (.singleton _)
  exact replay_idempotent hbegin hgrow (by decide)

end

end QuicFs.System
