import QuicFs.Client.Pool

/-!
# What the flushes of interleaved actors guarantee

Two results over the runs of `Pool.step`.

* `keep_until_acked`: with no `drop_handle`, the acknowledged batches followed by the
  buffered chunks are the accepted pushes, in order; a chunk pushed during a send
  survives its acknowledgement; no handle has two flushes in flight.
* `drop_keeps_accounting`: with drops, a chunk leaves the buffer only by a drop or by the
  acknowledgement of a flush that sent it, in the runs that are `Fenced`. In others it
  does not: `late_ack_steals`.
-/

namespace QuicFs.Client.Pool

open QuicFs.Lib Function

variable {A : Type} [DecidableEq A] {p p' : Pool A} {a b : A} {f g : Flight} {op : PoolOp A}
  {m t w : Nat}

/-! ## Without drops -/

/-- The call is not a `drop_handle`. -/
def NoDrop (_ : Pool A) : PoolOp A → Prop
  | .dropHandle .. => False
  | _ => True

instance : ∀ (p : Pool A) (op : PoolOp A), Decidable (NoDrop p op)
  | _, .dropHandle .. => .isFalse id
  | _, .push .. | _, .beginFlush .. | _, .ackFlush .. | _, .failFlush .. => .isTrue trivial

/-- A sound pool whose flushes all still have their chunks buffered and whose queues are
first in, first out. -/
structure Lossless (p : Pool A) : Prop extends Sound p where
  buffered : ∀ {a f}, p.flight a = some f → p.tags f.handle ≠ []
  fifo : ∀ h, p.acked h ++ p.tags h = p.accepted h

omit [DecidableEq A] in
theorem Lossless.fenced (hl : p.Lossless) (op : PoolOp A) : p.Fenced op := by
  cases op with
  | push h off data now iter =>
    rintro a f hf rfl
    exact (hl.live hf (hl.buffered hf)).1
  | _ => trivial

omit [DecidableEq A] in
theorem lossless_init : (init (WriteBuffer.new m t w) : Pool A).Lossless :=
  { sound_init m t w with
    buffered := fun hf => by cases hf
    fifo := fun _ => rfl }

omit [DecidableEq A] in
theorem lossless_push {h : Fh} {off : UInt64} {data : Bytes} {now : Instant} {iter : List Fh}
    (hl : p.Lossless) : (p.push h off data now iter).Lossless := by
  have hs : (p.push h off data now iter).Sound := sound_push hl.toSound (hl.fenced _)
  by_cases hr : (p.buf.push h off data now iter).1 = .reject
  · rwa [push_of_reject hr]
  rw [push_of_accept hr] at hs ⊢
  refine { hs with buffered := fun {a f} hf => ?_, fifo := fun k => ?_ }
  · simp only [update_apply]
    split
    · simp
    · exact hl.buffered hf
  · simp only [update_apply]
    split
    · next e => subst e; rw [← List.append_assoc, hl.fifo]
    · exact hl.fifo k

theorem lossless_beginFlush {h : Fh} (hl : p.Lossless) : (p.beginFlush a h).Lossless := by
  rcases guarded_or_free p.buf h with hr | ⟨hg, hq⟩
  · rwa [beginFlush_of_refused hr]
  have hs : (p.beginFlush a h).Sound := sound_beginFlush hl.toSound
  rw [beginFlush_of_free hg hq] at hs ⊢
  refine { hs with buffered := fun {b f} hf => ?_, fifo := hl.fifo }
  simp only [update_apply] at hf
  split at hf
  · obtain rfl := Option.some.inj hf
    intro hnil
    simp only at hnil
    rw [← hl.queue h, hnil] at hq
    exact hq rfl
  · exact hl.buffered hf

omit [DecidableEq A] in
theorem Lossless.tags_eq (hl : p.Lossless) (hf : p.flight a = some f) :
    p.tags f.handle = f.snapshot ++ (p.tags f.handle).drop f.batch.sentCount := by
  obtain ⟨rest, hrest⟩ := (hl.live hf (hl.buffered hf)).1
  rw [(hl.flight_ok hf).1, ← hrest, List.drop_left]

theorem lossless_ackFlush (hl : p.Lossless) (hf : p.flight a = some f) :
    (p.ackFlush a f).Lossless := by
  refine { sound_ackFlush hl.toSound hf with buffered := fun {b g} hg => ?_, fifo := fun k => ?_ }
  · obtain ⟨hg, hne⟩ := ne_handle_of_flight hl.toSound hf hg
    simp only [ackFlush, update_apply, if_neg hne]
    exact hl.buffered hg
  · simp only [ackFlush, update_apply]
    split
    · next e => rw [List.append_assoc, ← hl.tags_eq hf, e]; exact hl.fifo _
    · exact hl.fifo k

theorem lossless_failFlush (hl : p.Lossless) (hf : p.flight a = some f) :
    (p.failFlush a f).Lossless :=
  { sound_failFlush hl.toSound hf with
    buffered := fun hg => hl.buffered (ne_handle_of_flight hl.toSound hf hg).1
    fifo := hl.fifo }

theorem lossless_dropHandle {h : Fh} (hl : p.Lossless) (he : p.tags h = []) :
    (p.dropHandle a h).Lossless := by
  have hold : ∀ {b g}, (p.dropHandle a h).flight b = some g → p.flight b = some g :=
    fun hg => flight_of_update (fun f hf => (Option.filter_eq_some_iff.mp hf).1) hg
  have htags : (p.dropHandle a h).tags = p.tags := update_eq_self_iff.mpr he.symm
  refine { sound_dropHandle hl.toSound with buffered := fun hg => ?_, fifo := fun k => ?_ }
  · rw [htags]
    exact hl.buffered (hold hg)
  · rw [htags]
    exact hl.fifo k

theorem lossless_step (hl : p.Lossless) (hnd : NoDrop p op) (hstep : p.step op = some p') :
    p'.Lossless := by
  cases op with
  | push => obtain rfl := Option.some.inj hstep; exact lossless_push hl
  | beginFlush a h =>
    rw [step] at hstep
    split at hstep
    · obtain rfl := Option.some.inj hstep; exact lossless_beginFlush hl
    · cases hstep
  | ackFlush a =>
    obtain ⟨f, hf, rfl⟩ := Option.map_eq_some_iff.mp hstep
    exact lossless_ackFlush hl hf
  | failFlush a =>
    obtain ⟨f, hf, rfl⟩ := Option.map_eq_some_iff.mp hstep
    exact lossless_failFlush hl hf
  | dropHandle => exact hnd.elim

/-- **Keep-until-acked is a lossless queue.** In every run without a drop, for every handle:
the chunks of the acknowledged batches and then the buffered ones are the accepted pushes in
push order, the chunks pushed during a send survive its acknowledgement, and no two flushes
are in flight. -/
theorem keep_until_acked (hreach : Reach step NoDrop (init (WriteBuffer.new m t w)) p) :
    (∀ h, p.acked h ++ p.tags h = p.accepted h ∧ (p.tags h).map Prod.snd = p.buf.queue h) ∧
    (∀ a f, p.flight a = some f → ∀ p', p.step (.ackFlush a) = some p' →
      ∀ c ∈ p.tags f.handle, c ∉ f.snapshot → c ∈ p'.tags f.handle) ∧
    ∀ a b f g, p.flight a = some f → p.flight b = some g → f.handle = g.handle → a = b := by
  have hl : p.Lossless := hreach.invariant lossless_init lossless_step
  refine ⟨fun h => ⟨hl.fifo h, hl.queue h⟩, ?_, fun a b f g => hl.one⟩
  intro a f hf p' hstep c hc hnot
  simp only [step, hf, Option.map_some, Option.some.injEq] at hstep
  subst hstep
  rw [hl.tags_eq hf] at hc
  simpa [ackFlush, hnot] using hc

/-- A push during a send: the first chunk is acknowledged, the second stays. -/
theorem keep_until_acked_push_during_send : ∃ p : Pool Bool,
    execBy step NoDrop (init (WriteBuffer.new 10000 100000 60000))
      [.push 1 0 [1] 0 [], .beginFlush true 1, .push 1 1 [2] 0 [], .ackFlush true] = some p ∧
    p.acked 1 = [(0, ⟨0, [1], 0⟩)] ∧ p.tags 1 = [(1, ⟨1, [2], 0⟩)] ∧
    p.acked 1 ++ p.tags 1 = p.accepted 1 := by
  have hrun : ∃ p : Pool Bool, execBy step NoDrop (init (WriteBuffer.new 10000 100000 60000))
      [.push 1 0 [1] 0 [], .beginFlush true 1, .push 1 1 [2] 0 [], .ackFlush true] = some p ∧
      p.acked 1 = [(0, ⟨0, [1], 0⟩)] ∧ p.tags 1 = [(1, ⟨1, [2], 0⟩)] := ⟨_, rfl, rfl, rfl⟩
  obtain ⟨p, hp, hacked, htags⟩ := hrun
  exact ⟨p, hp, hacked, htags, ((keep_until_acked (Reach.of_execBy .refl hp)).1 1).1⟩

/-! ## With drops -/

/-- A chunk leaves the buffer by a drop of its handle or by an acknowledgement of a flush
of it that had the chunk at the front of the queue. -/
theorem leaves_by (hs : p.Sound) (hstep : p.step op = some p') {h : Fh} {c : Tag}
    (hc : c ∈ p.tags h) (hgone : c ∉ p'.tags h) : (∃ a, op = .dropHandle a h) ∨
      ∃ a f, op = .ackFlush a ∧ p.flight a = some f ∧ f.handle = h ∧ c ∈ f.snapshot := by
  cases op with
  | push k off data now iter =>
    obtain rfl := Option.some.inj hstep
    by_cases hr : (p.buf.push k off data now iter).1 = .reject
    · rw [push_of_reject hr] at hgone; exact absurd hc hgone
    · rw [push_of_accept hr] at hgone
      simp only [update_apply] at hgone
      split at hgone
      · next e => subst e; exact absurd (List.mem_append_left _ hc) hgone
      · exact absurd hc hgone
  | beginFlush a k =>
    rw [step] at hstep
    split at hstep
    · obtain rfl := Option.some.inj hstep
      rcases guarded_or_free p.buf k with hr | ⟨hg, hq⟩
      · rw [beginFlush_of_refused hr] at hgone; exact absurd hc hgone
      · rw [beginFlush_of_free hg hq] at hgone; exact absurd hc hgone
    · cases hstep
  | ackFlush a =>
    obtain ⟨f, hf, rfl⟩ := Option.map_eq_some_iff.mp hstep
    simp only [ackFlush, update_apply] at hgone
    split at hgone
    · next e =>
      subst e
      refine .inr ⟨a, f, rfl, hf, rfl, ?_⟩
      obtain ⟨rest, hrest⟩ := (hs.live hf (List.ne_nil_of_mem hc)).1
      rw [(hs.flight_ok hf).1, ← hrest, List.drop_left] at hgone
      rw [← hrest] at hc
      exact (List.mem_append.mp hc).resolve_right hgone
    · exact absurd hc hgone
  | failFlush a =>
    obtain ⟨f, hf, rfl⟩ := Option.map_eq_some_iff.mp hstep
    exact absurd hc hgone
  | dropHandle a k =>
    obtain rfl := Option.some.inj hstep
    simp only [dropHandle, update_apply] at hgone
    split at hgone
    · next e => subst e; exact .inl ⟨a, rfl⟩
    · exact absurd hc hgone

/-- The guard of a handle is cleared by a drop of the handle or by the end of the flush that
holds it. -/
theorem unguards_by (hs : p.Sound) (hstep : p.step op = some p') {h : Fh}
    (hg : p.buf.guarded h = true) (hg' : p'.buf.guarded h = false) :
    (∃ a, op = .dropHandle a h) ∨ ∃ a f, (op = .ackFlush a ∨ op = .failFlush a) ∧
      p.flight a = some f ∧ f.handle = h ∧ f.snapshot <+: p.tags h := by
  cases op with
  | push k off data now iter =>
    obtain rfl := Option.some.inj hstep
    by_cases hr : (p.buf.push k off data now iter).1 = .reject
    · rw [push_of_reject hr, hg] at hg'; cases hg'
    · rw [push_of_accept hr] at hg'
      simp only [WriteBuffer.guarded_push, hg] at hg'
      cases hg'
  | beginFlush a k =>
    rw [step] at hstep
    split at hstep
    · obtain rfl := Option.some.inj hstep
      rcases guarded_or_free p.buf k with hr | ⟨hfree, hq⟩
      · rw [beginFlush_of_refused hr, hg] at hg'; cases hg'
      · rw [beginFlush_of_free hfree hq] at hg'
        simp [WriteBuffer.guarded_beginFlush, hg] at hg'
    · cases hstep
  | ackFlush a =>
    obtain ⟨f, hf, rfl⟩ := Option.map_eq_some_iff.mp hstep
    simp only [ackFlush, WriteBuffer.guarded_ackFlush] at hg'
    split at hg'
    · next e => subst e; exact .inr ⟨a, f, .inl rfl, hf, rfl, (hs.live hf (hs.guard_ne hg)).1⟩
    · rw [hg] at hg'; cases hg'
  | failFlush a =>
    obtain ⟨f, hf, rfl⟩ := Option.map_eq_some_iff.mp hstep
    simp only [failFlush, WriteBuffer.guarded_failFlush] at hg'
    split at hg'
    · next e => subst e; exact .inr ⟨a, f, .inr rfl, hf, rfl, (hs.live hf (hs.guard_ne hg)).1⟩
    · rw [hg] at hg'; cases hg'
  | dropHandle a k =>
    obtain rfl := Option.some.inj hstep
    simp only [dropHandle, WriteBuffer.guarded_dropHandle] at hg'
    split at hg'
    · next e => subst e; exact .inl ⟨a, rfl⟩
    · rw [hg] at hg'; cases hg'

/-- **A drop keeps the accounting of the flushes in flight**, in every fenced run: no two
flushes of a handle are in flight, and whatever call comes next, a chunk leaves the buffer
only by a drop or by the acknowledgement of a flush whose snapshot contained it, and a guard
is cleared only by a drop or by the flush that holds it. -/
theorem drop_keeps_accounting (hreach : Reach step Fenced (init (WriteBuffer.new m t w)) p) :
    (∀ a b f g, p.flight a = some f → p.flight b = some g → f.handle = g.handle → a = b) ∧
    ∀ op p', p.step op = some p' → ∀ h,
      (∀ c ∈ p.tags h, c ∉ p'.tags h → (∃ a, op = .dropHandle a h) ∨
        ∃ a f, op = .ackFlush a ∧ p.flight a = some f ∧ f.handle = h ∧ c ∈ f.snapshot) ∧
      (p.buf.guarded h = true → p'.buf.guarded h = false → (∃ a, op = .dropHandle a h) ∨
        ∃ a f, (op = .ackFlush a ∨ op = .failFlush a) ∧ p.flight a = some f ∧ f.handle = h ∧
          f.snapshot <+: p.tags h) := by
  have hs : p.Sound := hreach.invariant (sound_init m t w) sound_step
  exact ⟨fun a b f g => hs.one, fun op p' hstep h =>
    ⟨fun c hc hgone => leaves_by hs hstep hc hgone, fun hg hg' => unguards_by hs hstep hg hg'⟩⟩

/-- The drop comes while the flush is in flight, the next push after the flush has ended. -/
theorem drop_keeps_accounting_push_after_ack : ∃ p : Pool Bool,
    execBy step Fenced (init (WriteBuffer.new 10000 100000 60000))
      [.push 1 0 [1] 0 [], .beginFlush true 1, .dropHandle false 1, .ackFlush true,
        .push 1 0 [2] 0 [], .beginFlush false 1] = some p ∧
    p.tags 1 = [(1, ⟨0, [2], 0⟩)] ∧
    ∀ a b f g, p.flight a = some f → p.flight b = some g → f.handle = g.handle → a = b := by
  have hrun : ∃ p : Pool Bool, execBy step Fenced (init (WriteBuffer.new 10000 100000 60000))
      [.push 1 0 [1] 0 [], .beginFlush true 1, .dropHandle false 1, .ackFlush true,
        .push 1 0 [2] 0 [], .beginFlush false 1] = some p ∧
      p.tags 1 = [(1, ⟨0, [2], 0⟩)] := ⟨_, rfl, rfl⟩
  obtain ⟨p, hp, htags⟩ := hrun
  exact ⟨p, hp, htags, (drop_keeps_accounting (Reach.of_execBy .refl hp)).1⟩

/-- A push between the drop and the late acknowledgement: the acknowledgement removes the new
chunk, which no flush has sent, and before it a second flush of the handle can start. -/
theorem late_ack_steals : ∃ p p' q : Pool Bool,
    execBy step anyLabel (init (WriteBuffer.new 10000 100000 60000))
      [.push 1 0 [1] 0 [], .beginFlush true 1, .dropHandle false 1, .push 1 0 [2] 0 []] = some p ∧
    p.tags 1 = [(1, ⟨0, [2], 0⟩)] ∧
    (p.flight true).map (·.snapshot) = some [(0, ⟨0, [1], 0⟩)] ∧
    p.step (.ackFlush true) = some p' ∧ p'.tags 1 = [] ∧
    p.step (.beginFlush false 1) = some q ∧
    (q.flight true).map (·.handle) = some 1 ∧ (q.flight false).map (·.handle) = some 1 :=
  ⟨_, _, _, rfl, rfl, rfl, rfl, rfl, rfl, rfl, rfl⟩

end QuicFs.Client.Pool
