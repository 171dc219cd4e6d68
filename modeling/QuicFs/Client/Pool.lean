import Mathlib
import QuicFs.Lib.Run
import QuicFs.Client.WriteBuf

/-!
# The write buffer shared by interleaved actors

A `WriteBuffer` under its lock, called by any number of actors. An actor whose
`begin_flush` succeeds is in flight until it calls `ack_flush` with the batch's count,
`fail_flush`, or `drop_handle` on the handle it is sending. `step` is one call.

What the code does not record is kept beside the buffer: every accepted chunk gets a
number (`Tag`), `tags h` are the numbered chunks buffered for `h`, a flight remembers its
snapshot, and `accepted` and `acked` list the chunks pushed and the chunks of the
acknowledged batches.

* `Fenced`, `Sound`, `sound_step`: as long as no chunk is pushed while a flush whose chunks
  were dropped is unfinished, every flight's snapshot is still in front of its handle's
  queue or gone with it.
* `Ordered`, `ordered_step`: in every run, a chunk of an acknowledged batch is older than
  whatever its handle still buffers.
-/

namespace QuicFs.Client

open Function

/-- An accepted chunk and its number in order of acceptance. -/
abbrev Tag := Nat × PendingWrite

/-- A flush between its `begin_flush` and its end. -/
structure Flight where
  handle : Fh
  batch : FlushBatch
  snapshot : List Tag
  deriving DecidableEq, Repr

structure Pool (A : Type) where
  buf : WriteBuffer
  flight : A → Option Flight
  tags : Fh → List Tag
  accepted : Fh → List Tag
  acked : Fh → List Tag
  next : Nat

/-- A call on the shared buffer, with the actor where it matters. -/
inductive PoolOp (A : Type) where
  | push (h : Fh) (offset : UInt64) (data : Bytes) (now : Instant) (iter : List Fh)
  | beginFlush (a : A) (h : Fh)
  | ackFlush (a : A)
  | failFlush (a : A)
  | dropHandle (a : A) (h : Fh)

namespace Pool

variable {A : Type}

def init (buf : WriteBuffer) : Pool A where
  buf := buf
  flight _ := none
  tags _ := []
  accepted _ := []
  acked _ := []
  next := 0

def push (p : Pool A) (h : Fh) (offset : UInt64) (data : Bytes) (now : Instant) (iter : List Fh) :
    Pool A :=
  match p.buf.push h offset data now iter with
  | (.reject, buf) => { p with buf }
  | (_, buf) =>
    let tag : Tag := (p.next, ⟨offset, data, now⟩)
    { p with
      buf
      tags := update p.tags h (p.tags h ++ [tag])
      accepted := update p.accepted h (p.accepted h ++ [tag])
      next := p.next + 1 }

variable [DecidableEq A]

def beginFlush (p : Pool A) (a : A) (h : Fh) : Pool A :=
  match p.buf.beginFlush h with
  | (none, buf) => { p with buf }
  | (some batch, buf) =>
    { p with buf, flight := update p.flight a (some ⟨h, batch, p.tags h⟩) }

def ackFlush (p : Pool A) (a : A) (f : Flight) : Pool A :=
  { p with
    buf := p.buf.ackFlush f.handle f.batch.sentCount
    flight := update p.flight a none
    tags := update p.tags f.handle ((p.tags f.handle).drop f.batch.sentCount)
    acked := update p.acked f.handle (p.acked f.handle ++ f.snapshot) }

def failFlush (p : Pool A) (a : A) (f : Flight) : Pool A :=
  { p with buf := p.buf.failFlush f.handle, flight := update p.flight a none }

/-- The actor's own flush of the handle, if any, ends with the drop. -/
def dropHandle (p : Pool A) (a : A) (h : Fh) : Pool A :=
  { p with
    buf := (p.buf.dropHandle h).2
    flight := update p.flight a ((p.flight a).filter (·.handle ≠ h))
    tags := update p.tags h [] }

/-- One call; `none` if the actor is not where it can make it. -/
def step (p : Pool A) : PoolOp A → Option (Pool A)
  | .push h offset data now iter => some (p.push h offset data now iter)
  | .beginFlush a h => if p.flight a = none then some (p.beginFlush a h) else none
  | .ackFlush a => (p.flight a).map (p.ackFlush a)
  | .failFlush a => (p.flight a).map (p.failFlush a)
  | .dropHandle a h => some (p.dropHandle a h)

variable {p p' : Pool A} {a b : A} {h k : Fh} {off : UInt64} {data : Bytes} {now : Instant}
  {iter : List Fh} {f g : Flight} {op : PoolOp A}

omit [DecidableEq A] in
theorem push_of_reject (hr : (p.buf.push h off data now iter).1 = .reject) :
    p.push h off data now iter = p := by
  have hbuf := WriteBuffer.push_of_reject hr
  unfold push
  rcases e : p.buf.push h off data now iter with ⟨d, buf⟩
  rw [e] at hr hbuf
  simp only at hr hbuf
  subst hr hbuf
  rfl

omit [DecidableEq A] in
theorem push_of_accept (ha : (p.buf.push h off data now iter).1 ≠ .reject) :
    p.push h off data now iter = { p with
      buf := (p.buf.push h off data now iter).2
      tags := update p.tags h (p.tags h ++ [(p.next, ⟨off, data, now⟩)])
      accepted := update p.accepted h (p.accepted h ++ [(p.next, ⟨off, data, now⟩)])
      next := p.next + 1 } := by
  unfold push
  rcases e : p.buf.push h off data now iter with ⟨d, buf⟩
  rw [e] at ha
  cases d <;> first | rfl | exact absurd rfl ha

omit [DecidableEq A] in
@[simp] theorem flight_push (p : Pool A) (h : Fh) (off : UInt64) (data : Bytes) (now : Instant)
    (iter : List Fh) : (p.push h off data now iter).flight = p.flight := by
  by_cases hr : (p.buf.push h off data now iter).1 = .reject
  · rw [push_of_reject hr]
  · rw [push_of_accept hr]

theorem beginFlush_of_refused (hr : p.buf.guarded h = true ∨ p.buf.queue h = []) :
    p.beginFlush a h = p := by
  have hn : (p.buf.beginFlush h).1 = none := by rw [WriteBuffer.beginFlush_fst, if_pos hr]
  have hbuf := WriteBuffer.beginFlush_of_none hn
  unfold beginFlush
  rcases e : p.buf.beginFlush h with ⟨o, buf⟩
  rw [e] at hn hbuf
  simp only at hn hbuf
  subst hn hbuf
  rfl

theorem beginFlush_of_free (hg : p.buf.guarded h = false) (hq : p.buf.queue h ≠ []) :
    p.beginFlush a h = { p with
      buf := (p.buf.beginFlush h).2
      flight := update p.flight a
        (some ⟨h, WriteBuffer.batchOf (p.buf.queue h), p.tags h⟩) } := by
  have hs := WriteBuffer.beginFlush_eq_some.mpr ⟨hg, hq, rfl⟩
  unfold beginFlush
  rcases e : p.buf.beginFlush h with ⟨o, buf⟩
  rw [e] at hs
  simp only at hs
  subst hs
  rfl

theorem guarded_or_free (buf : WriteBuffer) (h : Fh) : (buf.guarded h = true ∨ buf.queue h = []) ∨
    (buf.guarded h = false ∧ buf.queue h ≠ []) := by
  cases buf.guarded h <;> simp [em]

/-! ## The numbered chunks -/

/-- The numbers belong to the buffered chunks and are all used up to `next`. -/
structure Tagged (p : Pool A) : Prop where
  queue : ∀ h, (p.tags h).map Prod.snd = p.buf.queue h
  tags_lt : ∀ h, ∀ t ∈ p.tags h, t.1 < p.next
  flight_ok : ∀ {a f}, p.flight a = some f → f.batch.sentCount = f.snapshot.length ∧
    f.snapshot ≠ [] ∧ ∀ t ∈ f.snapshot, t.1 < p.next

/-- Chunks leave in order: whatever is still buffered for a handle is newer than the
chunks of its acknowledged batches, and so it will be after each flush in flight. -/
structure Ordered (p : Pool A) : Prop extends Tagged p where
  sorted : ∀ h, (p.tags h).Pairwise (·.1 < ·.1)
  behind : ∀ {a f}, p.flight a = some f →
    ∀ s ∈ f.snapshot, ∀ t ∈ (p.tags f.handle).drop f.batch.sentCount, s.1 < t.1
  acked_lt : ∀ h, ∀ s ∈ p.acked h, s.1 < p.next ∧ ∀ t ∈ p.tags h, s.1 < t.1

omit [DecidableEq A] in
theorem ordered_init {buf : WriteBuffer} (hq : ∀ h, buf.queue h = []) :
    (init buf : Pool A).Ordered where
  queue h := (hq h).symm
  tags_lt _ t ht := by cases ht
  flight_ok hf := by cases hf
  sorted _ := .nil
  behind hf := by cases hf
  acked_lt _ s hs := by cases hs

omit [DecidableEq A] in
theorem ordered_push (ho : p.Ordered) : (p.push h off data now iter).Ordered := by
  by_cases hr : (p.buf.push h off data now iter).1 = .reject
  · rwa [push_of_reject hr]
  rw [push_of_accept hr]
  refine ⟨⟨fun k => ?_, fun k t ht => ?_, fun hf => ?_⟩, fun k => ?_, fun hf s hs t ht => ?_,
    fun k s hs => ?_⟩
  · simp only [WriteBuffer.queue_push hr, update_apply]
    split
    · rw [List.map_append, ho.queue]; rfl
    · exact ho.queue k
  · simp only [update_apply] at ht ⊢
    split at ht
    · rcases List.mem_append.mp ht with ht | ht
      · have := ho.tags_lt h t ht; omega
      · obtain rfl := List.mem_singleton.mp ht; omega
    · have := ho.tags_lt k t ht; omega
  · obtain ⟨h1, h2, h3⟩ := ho.flight_ok hf
    exact ⟨h1, h2, fun t ht => Nat.lt_succ_of_lt (h3 t ht)⟩
  · simp only [update_apply]
    split
    · rw [List.pairwise_append]
      refine ⟨ho.sorted h, List.pairwise_singleton _ _, fun s hs t ht => ?_⟩
      obtain rfl := List.mem_singleton.mp ht
      exact ho.tags_lt h s hs
    · exact ho.sorted k
  · simp only [update_apply] at ht
    split at ht
    · rename_i e
      rw [← e] at ht
      rw [List.drop_append] at ht
      rcases List.mem_append.mp ht with ht | ht
      · exact ho.behind hf s hs t ht
      · obtain rfl := List.mem_singleton.mp (List.mem_of_mem_drop ht)
        exact (ho.flight_ok hf).2.2 s hs
    · exact ho.behind hf s hs t ht
  · obtain ⟨h1, h2⟩ := ho.acked_lt k s hs
    refine ⟨Nat.lt_succ_of_lt h1, fun t ht => ?_⟩
    simp only [update_apply] at ht
    split at ht
    · rename_i e
      subst e
      rcases List.mem_append.mp ht with ht | ht
      · exact h2 t ht
      · obtain rfl := List.mem_singleton.mp ht; exact h1
    · exact h2 t ht

theorem ordered_beginFlush (ho : p.Ordered) : (p.beginFlush a h).Ordered := by
  rcases guarded_or_free p.buf h with hr | ⟨hg, hq⟩
  · rwa [beginFlush_of_refused hr]
  rw [beginFlush_of_free hg hq]
  refine ⟨⟨fun k => ?_, ho.tags_lt, fun {b f} hf => ?_⟩, ho.sorted, fun {b f} hf => ?_, ho.acked_lt⟩
  · rw [WriteBuffer.queue_beginFlush]; exact ho.queue k
  all_goals
    simp only [update_apply] at hf
    split at hf
  · obtain rfl := Option.some.inj hf
    have hlen := congrArg List.length (ho.queue h)
    rw [List.length_map] at hlen
    refine ⟨hlen.symm, fun hnil => hq ?_, ho.tags_lt h⟩
    rw [← ho.queue h]
    exact List.map_eq_nil_iff.mpr hnil
  · exact ho.flight_ok hf
  · obtain rfl := Option.some.inj hf
    have hlen := congrArg List.length (ho.queue h)
    rw [List.length_map] at hlen
    simp [WriteBuffer.batchOf, ← hlen]
  · exact ho.behind hf

theorem flight_of_update {x : Option Flight} (hx : ∀ f, x = some f → p.flight a = some f)
    (hf : update p.flight a x b = some f) : p.flight b = some f := by
  rw [update_apply] at hf
  split at hf
  · next e => subst e; exact hx f hf
  · exact hf

theorem ordered_ackFlush (ho : p.Ordered) (hf : p.flight a = some f) :
    (p.ackFlush a f).Ordered := by
  have hold : ∀ {b g}, (p.ackFlush a f).flight b = some g → p.flight b = some g :=
    fun hg => flight_of_update (by simp) hg
  have hsub : ∀ k, ∀ t ∈ (p.ackFlush a f).tags k, t ∈ p.tags k := by
    intro k t ht
    simp only [ackFlush, update_apply] at ht
    split at ht
    · next e => subst e; exact List.mem_of_mem_drop ht
    · exact ht
  refine ⟨⟨fun k => ?_, fun k t ht => ho.tags_lt k t (hsub k t ht),
    fun hg => ho.flight_ok (hold hg)⟩,
    fun k => ?_, fun {b g} hg s hs t ht => ?_, fun k s hs => ?_⟩
  · simp only [ackFlush, WriteBuffer.queue_ackFlush, update_apply]
    split
    · rw [List.map_drop, ho.queue]
    · exact ho.queue k
  · simp only [ackFlush, update_apply]
    split
    · exact (ho.sorted _).sublist (List.drop_sublist _ _)
    · exact ho.sorted k
  · refine ho.behind (hold hg) s hs t ?_
    simp only [ackFlush, update_apply] at ht
    split at ht
    · next e =>
      rw [List.drop_drop, Nat.add_comm, ← List.drop_drop, ← e] at ht
      exact List.mem_of_mem_drop ht
    · exact ht
  · simp only [ackFlush, update_apply] at hs
    split at hs
    · next e =>
      subst e
      rcases List.mem_append.mp hs with hs | hs
      · obtain ⟨h1, h2⟩ := ho.acked_lt _ s hs
        exact ⟨h1, fun t ht => h2 t (hsub _ t ht)⟩
      · refine ⟨(ho.flight_ok hf).2.2 s hs, fun t ht => ?_⟩
        simp only [ackFlush, update_self] at ht
        exact ho.behind hf s hs t ht
    · obtain ⟨h1, h2⟩ := ho.acked_lt k s hs
      exact ⟨h1, fun t ht => h2 t (hsub k t ht)⟩

theorem ordered_failFlush (ho : p.Ordered) : (p.failFlush a f).Ordered := by
  have hold : ∀ {b g}, (p.failFlush a f).flight b = some g → p.flight b = some g :=
    fun hg => flight_of_update (by simp) hg
  refine ⟨⟨fun k => ?_, ho.tags_lt, fun hg => ho.flight_ok (hold hg)⟩, ho.sorted,
    fun hg => ho.behind (hold hg), ho.acked_lt⟩
  simp only [failFlush, WriteBuffer.queue_failFlush]
  exact ho.queue k

theorem ordered_dropHandle (ho : p.Ordered) : (p.dropHandle a h).Ordered := by
  have hold : ∀ {b g}, (p.dropHandle a h).flight b = some g → p.flight b = some g :=
    fun hg => flight_of_update (fun f hf => (Option.filter_eq_some_iff.mp hf).1) hg
  have hsub : ∀ k, (p.dropHandle a h).tags k <:+ p.tags k := by
    intro k
    simp only [dropHandle, update_apply]
    split
    · exact List.nil_suffix
    · exact List.suffix_rfl
  refine ⟨⟨fun k => ?_, fun k t ht => ho.tags_lt k t ((hsub k).subset ht),
    fun hg => ho.flight_ok (hold hg)⟩, fun k => (ho.sorted k).sublist (hsub k).sublist,
    fun hg s hs t ht => ?_, fun k s hs => ?_⟩
  · simp only [dropHandle, WriteBuffer.queue_dropHandle, update_apply]
    split
    · rfl
    · exact ho.queue k
  · refine ho.behind (hold hg) s hs t ?_
    simp only [dropHandle, update_apply] at ht
    split at ht
    · simp at ht
    · exact ht
  · obtain ⟨h1, h2⟩ := ho.acked_lt k s hs
    exact ⟨h1, fun t ht => h2 t ((hsub k).subset ht)⟩

/-- **Chunks leave in order, whatever the actors do.** -/
theorem ordered_step (ho : p.Ordered) (hs : p.step op = some p') : p'.Ordered := by
  cases op with
  | push => obtain rfl := Option.some.inj hs; exact ordered_push ho
  | beginFlush a h =>
    rw [step] at hs
    split at hs
    · obtain rfl := Option.some.inj hs; exact ordered_beginFlush ho
    · cases hs
  | ackFlush a =>
    obtain ⟨f, hf, rfl⟩ := Option.map_eq_some_iff.mp hs
    exact ordered_ackFlush ho hf
  | failFlush a =>
    obtain ⟨f, -, rfl⟩ := Option.map_eq_some_iff.mp hs
    exact ordered_failFlush ho
  | dropHandle => obtain rfl := Option.some.inj hs; exact ordered_dropHandle ho

/-! ## Accepted chunks -/

/-- Everything buffered, in flight or acknowledged was accepted, and a flush sends the
coalesced runs of its snapshot. -/
structure Recorded (p : Pool A) : Prop where
  tags : ∀ h, ∀ t ∈ p.tags h, t ∈ p.accepted h
  flight : ∀ {a f}, p.flight a = some f → ∀ t ∈ f.snapshot, t ∈ p.accepted f.handle
  acked : ∀ h, ∀ t ∈ p.acked h, t ∈ p.accepted h
  batch : ∀ {a f}, p.flight a = some f → f.batch = WriteBuffer.batchOf (f.snapshot.map Prod.snd)

omit [DecidableEq A] in
theorem recorded_init (buf : WriteBuffer) : (init buf : Pool A).Recorded where
  tags _ t ht := by cases ht
  flight hf := by cases hf
  acked _ t ht := by cases ht
  batch hf := by cases hf

theorem accepted_step (hs : p.step op = some p') :
    (∀ h, ∀ t ∈ p.accepted h, t ∈ p'.accepted h) ∧ ∀ h, ∀ t ∈ p'.accepted h, t ∈ p.accepted h ∨
      ∃ o d n i, op = .push h o d n i ∧ t = (p.next, ⟨o, d, n⟩) := by
  cases op with
  | push k off data now iter =>
    obtain rfl := Option.some.inj hs
    by_cases hr : (p.buf.push k off data now iter).1 = .reject
    · rw [push_of_reject hr]; exact ⟨fun _ _ ht => ht, fun _ _ ht => .inl ht⟩
    rw [push_of_accept hr]
    refine ⟨fun h t ht => ?_, fun h t ht => ?_⟩
    · simp only [update_apply]
      split
      · next e => subst e; exact List.mem_append_left _ ht
      · exact ht
    · simp only [update_apply] at ht
      split at ht
      · next e =>
        subst e
        rcases List.mem_append.mp ht with ht | ht
        · exact .inl ht
        · exact .inr ⟨off, data, now, iter, rfl, List.mem_singleton.mp ht⟩
      · exact .inl ht
  | beginFlush a k =>
    rw [step] at hs
    split at hs
    · obtain rfl := Option.some.inj hs
      rcases guarded_or_free p.buf k with hr | ⟨hg, hq⟩
      · rw [beginFlush_of_refused hr]; exact ⟨fun _ _ ht => ht, fun _ _ ht => .inl ht⟩
      · rw [beginFlush_of_free hg hq]; exact ⟨fun _ _ ht => ht, fun _ _ ht => .inl ht⟩
    · cases hs
  | ackFlush a =>
    obtain ⟨f, -, rfl⟩ := Option.map_eq_some_iff.mp hs
    exact ⟨fun _ _ ht => ht, fun _ _ ht => .inl ht⟩
  | failFlush a =>
    obtain ⟨f, -, rfl⟩ := Option.map_eq_some_iff.mp hs
    exact ⟨fun _ _ ht => ht, fun _ _ ht => .inl ht⟩
  | dropHandle a k =>
    obtain rfl := Option.some.inj hs; exact ⟨fun _ _ ht => ht, fun _ _ ht => .inl ht⟩

theorem recorded_step (ht : p.Tagged) (hr : p.Recorded) (hs : p.step op = some p') :
    p'.Recorded := by
  have hacc := (accepted_step hs).1
  cases op with
  | push k off data now iter =>
    obtain rfl := Option.some.inj hs
    by_cases hrej : (p.buf.push k off data now iter).1 = .reject
    · rwa [push_of_reject hrej]
    rw [push_of_accept hrej] at hacc ⊢
    refine ⟨fun h t ht => ?_, fun hf t ht => hacc _ _ (hr.flight hf t ht),
      fun h t ht => hacc _ _ (hr.acked h t ht), hr.batch⟩
    simp only [update_apply] at ht ⊢
    split at ht
    · next e =>
      subst e
      rw [if_pos rfl]
      rcases List.mem_append.mp ht with ht | ht
      · exact List.mem_append_left _ (hr.tags h t ht)
      · exact List.mem_append_right _ ht
    · next e => rw [if_neg e]; exact hr.tags h t ht
  | beginFlush a k =>
    rw [step] at hs
    split at hs
    · obtain rfl := Option.some.inj hs
      rcases guarded_or_free p.buf k with href | ⟨hg, hq⟩
      · rwa [beginFlush_of_refused href]
      rw [beginFlush_of_free hg hq]
      refine ⟨hr.tags, fun {b f} hf t ht => ?_, hr.acked, fun {b f} hf => ?_⟩
      · simp only [update_apply] at hf
        split at hf
        · obtain rfl := Option.some.inj hf; exact hr.tags k t ht
        · exact hr.flight hf t ht
      · simp only [update_apply] at hf
        split at hf
        · obtain rfl := Option.some.inj hf; rw [ht.queue]
        · exact hr.batch hf
    · cases hs
  | ackFlush a =>
    obtain ⟨f, hf, rfl⟩ := Option.map_eq_some_iff.mp hs
    refine ⟨fun h t ht => ?_, fun hg t ht => hr.flight (flight_of_update (by simp) hg) t ht,
      fun h t ht => ?_, fun hg => hr.batch (flight_of_update (by simp) hg)⟩
    · simp only [ackFlush, update_apply] at ht
      split at ht
      · next e => subst e; exact hr.tags _ t (List.mem_of_mem_drop ht)
      · exact hr.tags h t ht
    · simp only [ackFlush, update_apply] at ht
      split at ht
      · next e =>
        subst e
        rcases List.mem_append.mp ht with ht | ht
        · exact hr.acked _ t ht
        · exact hr.flight hf t ht
      · exact hr.acked h t ht
  | failFlush a =>
    obtain ⟨f, hf, rfl⟩ := Option.map_eq_some_iff.mp hs
    exact ⟨hr.tags, fun hg t ht => hr.flight (flight_of_update (by simp) hg) t ht, hr.acked,
      fun hg => hr.batch (flight_of_update (by simp) hg)⟩
  | dropHandle a k =>
    obtain rfl := Option.some.inj hs
    have hold : ∀ {b g}, (p.dropHandle a k).flight b = some g → p.flight b = some g :=
      fun hg => flight_of_update (fun f hf => (Option.filter_eq_some_iff.mp hf).1) hg
    refine ⟨fun h t ht => ?_, fun hg t ht => hr.flight (hold hg) t ht, hr.acked,
      fun hg => hr.batch (hold hg)⟩
    simp only [dropHandle, update_apply] at ht
    split at ht
    · cases ht
    · exact hr.tags h t ht

/-! ## Flushes in flight -/

/-- No chunk is pushed on a handle while a flush of it is in flight whose chunks have been
dropped: every such flush still has its snapshot at the front of the queue. -/
def Fenced (p : Pool A) : PoolOp A → Prop
  | .push h .. => ∀ a, ∀ f ∈ p.flight a, f.handle = h → f.snapshot <+: p.tags h
  | _ => True

instance [Fintype A] : ∀ (p : Pool A) (op : PoolOp A), Decidable (p.Fenced op)
  | p, .push h .. =>
    inferInstanceAs (Decidable (∀ a, ∀ f ∈ p.flight a, f.handle = h → f.snapshot <+: p.tags h))
  | _, .beginFlush .. | _, .ackFlush .. | _, .failFlush .. | _, .dropHandle .. => .isTrue trivial

/-- A flush in flight has its snapshot at the front of its queue and holds the guard, or
nothing is buffered for its handle; no handle has two. -/
structure Sound (p : Pool A) : Prop extends Ordered p where
  live : ∀ {a f}, p.flight a = some f → p.tags f.handle ≠ [] →
    f.snapshot <+: p.tags f.handle ∧ p.buf.guarded f.handle = true
  guard_ne : ∀ {h}, p.buf.guarded h = true → p.tags h ≠ []
  one : ∀ {a b f g}, p.flight a = some f → p.flight b = some g → f.handle = g.handle → a = b

omit [DecidableEq A] in
theorem sound_init (m t w : Nat) : (init (WriteBuffer.new m t w) : Pool A).Sound :=
  { ordered_init (A := A) fun _ => rfl with
    live := fun hf => by cases hf
    guard_ne := fun hg => by cases hg
    one := fun hf => by cases hf }

omit [DecidableEq A] in
theorem sound_push (hs : p.Sound) (hfence : p.Fenced (.push h off data now iter)) :
    (p.push h off data now iter).Sound := by
  by_cases hr : (p.buf.push h off data now iter).1 = .reject
  · rwa [push_of_reject hr]
  have ho : (p.push h off data now iter).Ordered := ordered_push hs.toOrdered
  rw [push_of_accept hr] at ho ⊢
  refine { ho with live := fun {a f} hf hne => ?_, guard_ne := fun {k} hg => ?_, one := hs.one }
  · simp only [WriteBuffer.guarded_push, update_apply] at hne ⊢
    by_cases e : f.handle = h
    · have hpre := hfence a f hf e
      have hbuf : p.tags f.handle ≠ [] := by
        rw [e]
        rintro hnil
        rw [hnil, List.prefix_nil] at hpre
        exact (hs.flight_ok hf).2.1 hpre
      rw [if_pos e]
      exact ⟨hpre.trans (List.prefix_append _ _), (hs.live hf hbuf).2⟩
    · rw [if_neg e] at hne ⊢
      exact hs.live hf hne
  · simp only [WriteBuffer.guarded_push] at hg
    simp only [update_apply]
    split
    · simp
    · exact hs.guard_ne hg

theorem sound_beginFlush (hs : p.Sound) : (p.beginFlush a h).Sound := by
  rcases guarded_or_free p.buf h with hr | ⟨hg, hq⟩
  · rwa [beginFlush_of_refused hr]
  have hstart := WriteBuffer.beginFlush_eq_some.mpr ⟨hg, hq, rfl⟩
  have hne : p.tags h ≠ [] := by
    intro hnil
    rw [← hs.queue h, hnil] at hq
    exact hq rfl
  -- no other flush of this handle: it would hold the guard
  have hnone : ∀ b f, p.flight b = some f → f.handle ≠ h := by
    rintro b f hf rfl
    rw [(hs.live hf hne).2] at hg
    cases hg
  have hguard : ∀ k, p.buf.guarded k = true → (p.buf.beginFlush h).2.guarded k = true := by
    intro k hk
    rw [WriteBuffer.guarded_beginFlush]
    split
    · rfl
    · exact hk
  have ho : (p.beginFlush a h).Ordered := ordered_beginFlush hs.toOrdered
  rw [beginFlush_of_free hg hq] at ho ⊢
  refine { ho with live := fun {b f} hf hne' => ?_, guard_ne := fun {k} hk => ?_,
                   one := fun {b c f g} hf hg' he => ?_ }
  · simp only [update_apply] at hf
    split at hf
    · obtain rfl := Option.some.inj hf
      exact ⟨List.prefix_rfl, by simp [WriteBuffer.guarded_beginFlush, hstart]⟩
    · obtain ⟨h1, h2⟩ := hs.live hf hne'
      exact ⟨h1, hguard _ h2⟩
  · simp only [WriteBuffer.guarded_beginFlush] at hk
    split at hk
    · next e => rw [e.1]; exact hne
    · exact hs.guard_ne hk
  · simp only [update_apply] at hf hg'
    split at hf
    · obtain rfl := Option.some.inj hf
      split at hg'
      · simp_all
      · exact absurd he.symm (hnone _ _ hg')
    · split at hg'
      · obtain rfl := Option.some.inj hg'
        exact absurd he (hnone _ _ hf)
      · exact hs.one hf hg' he

theorem ne_handle_of_flight (hs : p.Sound) (hf : p.flight a = some f)
    (hg : update p.flight a none b = some g) : p.flight b = some g ∧ g.handle ≠ f.handle := by
  rw [update_apply] at hg
  split at hg
  · cases hg
  · rename_i hne
    exact ⟨hg, fun e => hne (hs.one hg hf e)⟩

theorem sound_ackFlush (hs : p.Sound) (hf : p.flight a = some f) : (p.ackFlush a f).Sound := by
  refine { ordered_ackFlush hs.toOrdered hf with
    live := fun {b g} hg hne => ?_, guard_ne := fun {k} hk => ?_, one := fun hg hg' he => ?_ }
  · obtain ⟨hg, hgf⟩ := ne_handle_of_flight hs hf hg
    simp only [ackFlush, WriteBuffer.guarded_ackFlush, update_apply, if_neg hgf] at hne ⊢
    exact hs.live hg hne
  · simp only [ackFlush, WriteBuffer.guarded_ackFlush] at hk
    split at hk
    · cases hk
    · rename_i hne
      simp only [ackFlush, update_apply, if_neg hne]
      exact hs.guard_ne hk
  · exact hs.one (ne_handle_of_flight hs hf hg).1 (ne_handle_of_flight hs hf hg').1 he

theorem sound_failFlush (hs : p.Sound) (hf : p.flight a = some f) : (p.failFlush a f).Sound := by
  refine { ordered_failFlush hs.toOrdered with
    live := fun {b g} hg hne => ?_, guard_ne := fun {k} hk => ?_, one := fun hg hg' he => ?_ }
  · obtain ⟨hg, hgf⟩ := ne_handle_of_flight hs hf hg
    simp only [failFlush, WriteBuffer.guarded_failFlush, if_neg hgf]
    exact hs.live hg hne
  · simp only [failFlush, WriteBuffer.guarded_failFlush] at hk
    split at hk
    · cases hk
    · exact hs.guard_ne hk
  · exact hs.one (ne_handle_of_flight hs hf hg).1 (ne_handle_of_flight hs hf hg').1 he

theorem sound_dropHandle (hs : p.Sound) : (p.dropHandle a h).Sound := by
  have hold : ∀ {b g}, (p.dropHandle a h).flight b = some g → p.flight b = some g :=
    fun hg => flight_of_update (fun f hf => (Option.filter_eq_some_iff.mp hf).1) hg
  refine { ordered_dropHandle hs.toOrdered with
    live := fun {b g} hg hne => ?_, guard_ne := fun {k} hk => ?_,
    one := fun hg hg' he => hs.one (hold hg) (hold hg') he }
  · simp only [dropHandle, WriteBuffer.guarded_dropHandle, update_apply] at hne ⊢
    split at hne
    · exact absurd rfl hne
    · next e => rw [if_neg e, if_neg e]; exact hs.live (hold hg) hne
  · simp only [dropHandle, WriteBuffer.guarded_dropHandle] at hk
    split at hk
    · cases hk
    · next e => simp only [dropHandle, update_apply, if_neg e]; exact hs.guard_ne hk

theorem sound_step (hs : p.Sound) (hfence : p.Fenced op) (hstep : p.step op = some p') :
    p'.Sound := by
  cases op with
  | push => obtain rfl := Option.some.inj hstep; exact sound_push hs hfence
  | beginFlush a h =>
    rw [step] at hstep
    split at hstep
    · obtain rfl := Option.some.inj hstep; exact sound_beginFlush hs
    · cases hstep
  | ackFlush a =>
    obtain ⟨f, hf, rfl⟩ := Option.map_eq_some_iff.mp hstep
    exact sound_ackFlush hs hf
  | failFlush a =>
    obtain ⟨f, hf, rfl⟩ := Option.map_eq_some_iff.mp hstep
    exact sound_failFlush hs hf
  | dropHandle => obtain rfl := Option.some.inj hstep; exact sound_dropHandle hs

end Pool

end QuicFs.Client
