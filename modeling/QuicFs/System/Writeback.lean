import QuicFs.System.Flying

/-!
# The file behind the buffer

In the runs in which flushes begin in order, only empty queues are dropped, no Write is given up and
the bindings are steady, the server's file is `Behind` the writes accepted for it, in the order of
acceptance over all handles of the mount: it shows them except where one is buffered (`Mirror`).
When every handle of the file has been flushed it is what the writes leave in that order
(`flushed_in_order`). In others it is not, since the handles are flushed in any order:
`older_flushed_last`.
-/

namespace QuicFs.System

open Lib Client Server Function

def World.writes (w : World) : List (Fh × Tag) := w.buf.pool.order (List.range w.files.next)

/-- The accepted writes to one file, from the number `m` on. -/
def World.writesTo (w : World) (i : Ino) (m : Nat) : List Tag :=
  (w.writes.filter fun x => w.files.home x.1 = some i ∧ m ≤ x.2.1).map Prod.snd

def World.extentsTo (w : World) (i : Ino) (m : Nat) : List (Extent UInt8) :=
  (w.writesTo i m).map fun t => t.2.extent

def World.Buffered (w : World) (i : Ino) (q : Nat) : Prop :=
  ∃ fh, w.files.home fh = some i ∧ ∃ t ∈ w.buf.pool.tags fh, (t.2.extent.hit q).isSome

/-- After its first `k` calls the server has only written to the file at given positions. -/
def World.Positioned (w : World) (i : Ino) (k : Nat) : Prop :=
  ∀ e ∈ w.hist.log.drop k, e.act.resizes? e.answer ≠ some i ∧ e.act.appends? ≠ some i

instance (w : World) (i : Ino) (k : Nat) : Decidable (w.Positioned i k) :=
  inferInstanceAs (Decidable (∀ e ∈ w.hist.log.drop k, _))

/-- Nothing older than the number `m` is buffered for the file. -/
structure World.Fresh (w : World) (i : Ino) (m : Nat) : Prop where
  start : m ≤ w.buf.pool.next
  tags : ∀ {fh}, w.files.home fh = some i → ∀ t ∈ w.buf.pool.tags fh, m ≤ t.1

def Rpc.part (rpc : Rpc) (l : StreamPhase) : Extent UInt8 := ⟨rpc.run.1.toNat, payload l.wrote⟩

/-- The file `i` is behind the writes from the number `m` on, which were made on top of `base`, and
has what the flushes have sent. -/
structure Mirror (base : Bytes) (i : Ino) (m : Nat) (w : World) (p : Clients) (s : Streams) :
    Prop where
  behind : Behind base (w.extentsTo i m) (w.host.fs.bytes i) (w.Buffered i)
  landed : ∀ {a fh batch}, (p a).flight = some (fh, batch) → w.files.home fh = some i →
    Landed (extentsOf batch.chunks) (extentsOf (p a).left) (w.host.fs.bytes i)
  wrote : ∀ {a n fh rpc l}, (p a).rpc = some (n, .write fh) → w.net.rpcs n = some rpc →
    w.files.home fh = some i →
    s n = some l → l.failed = false → (∀ fr ∈ l.wrote, fr.Fits) ∧
    (rpc.part l).In (w.host.fs.bytes i)
  answered : ∀ {a n fh rpc r}, (p a).rpc = some (n, .write fh) → w.net.rpcs n = some rpc →
    w.files.home fh = some i →
    (n, r) ∈ w.host.replies → r.status = .ok → (extentOf rpc.run).In (w.host.fs.bytes i)

section
variable {S : Setup} {a b : Actor} {w w' : World} {p p' : Clients} {s s' : Streams} {ch : Chance}
    {kind : Callback → Bool}
  {n : Nat} {fh : Fh} {t : Tag} {f g : Flight} {rpc : Rpc} {base : Bytes} {i : Ino} {m : Nat}

/-! ## The writes to a file -/

theorem mem_writesTo (hm : Mounted w p s) :
    t ∈ w.writesTo i m ↔ ∃ fh, w.files.home fh = some i ∧ m ≤ t.1 ∧ t ∈ w.buf.pool.accepted fh := by
  unfold World.writesTo World.writes
  constructor
  · intro ht
    obtain ⟨⟨fh, u⟩, hu, rfl⟩ := List.mem_map.mp ht
    obtain ⟨hmem, hx⟩ := List.mem_filter.mp hu
    obtain ⟨hhome, hle⟩ := of_decide_eq_true hx
    exact ⟨fh, hhome, hle, (Pool.mem_order.mp hmem).2⟩
  · rintro ⟨fh, hhome, hle, ht⟩
    refine List.mem_map.mpr
      ⟨(fh, t), List.mem_filter.mpr ⟨Pool.mem_order.mpr ⟨?_, ht⟩, decide_eq_true ⟨hhome, hle⟩⟩, rfl⟩
    exact List.mem_range.mpr (hm.opened.home_lt (by rw [hhome]; rfl))

theorem writesTo_sorted (hn : w.buf.pool.Numbered) (i : Ino) (m : Nat) :
    (w.writesTo i m).Pairwise (·.1 < ·.1) := by
  unfold World.writesTo
  rw [List.pairwise_map]
  exact (Pool.order_sorted hn List.nodup_range).filter _

theorem writesTo_congr (hm : Mounted w p s) (hn : w.buf.pool.Numbered) (hn' : w'.buf.pool.Numbered)
    (hr : Recalls w w') (ha : w'.buf.pool.accepted = w.buf.pool.accepted)
    (hnext : w.files.next ≤ w'.files.next) : w'.writesTo i m = w.writesTo i m := by
  have hwrites : w'.writes = w.writes := by
    refine Pool.order_congr hn hn' List.nodup_range List.nodup_range fun k t => ?_
    rw [ha, List.mem_range, List.mem_range]
    refine and_congr_left fun ht => ?_
    have hlt := hm.opened.home_lt (hm.opened.accepted ht).1
    exact ⟨fun _ => hlt, fun _ => hlt.trans_le hnext⟩
  unfold World.writesTo
  rw [hwrites]
  refine congrArg _ (List.filter_congr fun x hx => ?_)
  -- a handle with accepted chunks was opened before
  obtain ⟨j, hj⟩ := Option.isSome_iff_exists.mp (hm.opened.accepted (Pool.mem_order.mp hx).2).1
  rw [hj, hr.home hj]

/-- A write that is accepted comes last. -/
theorem writesTo_push {offset : UInt64} {data : Bytes} {now : Instant} {iter : List Fh}
    (hn : w.buf.pool.Numbered) (hfh : fh < w.files.next) (hm : m ≤ w.buf.pool.next)
    (hr : (w.buf.pool.buf.push fh offset data now iter).1 ≠ .reject) :
    ({ w with buf := { w.buf with pool := w.buf.pool.push fh offset data now iter } } :
      World).writesTo i m =
      w.writesTo i m ++ if w.files.home fh = some i then [(w.buf.pool.next, ⟨offset, data, now⟩)]
        else [] := by
  unfold World.writesTo World.writes
  dsimp only
  rw [Pool.order_push hn List.nodup_range (List.mem_range.mpr hfh) hr, List.filter_append,
    List.map_append]
  refine congrArg _ ?_
  by_cases h : w.files.home fh = some i <;> simp [h, hm]

theorem snapshot_writesTo (hm : Mounted w p s) (hl : w.buf.pool.Lossless) (hfresh : w.Fresh i m)
    (hf : w.buf.pool.flight a = some f) (hi : w.files.home f.handle = some i)
    (ht : t ∈ f.snapshot) : t ∈ w.writesTo i m :=
  (mem_writesTo hm).mpr
    ⟨f.handle, hi, hfresh.tags hi t (tags_of_snapshot hl hf ht), hm.opened.recorded.flight hf t ht⟩

/-! ## Frames in their place -/

theorem hit_of_part {off : Nat} {d d' : Bytes} {q : Nat} (h : ((Extent.mk off d).hit q).isSome) :
    ((Extent.mk off (d ++ d')).hit q).isSome := by
  rw [Extent.hit_append]
  cases hq : (Extent.mk off d).hit q with
  | none => rw [hq] at h; cases h
  | some x => cases (Extent.mk (off + d.length) d').hit q <;> rfl

theorem hit_of_frames {ws rest : List WriteRequest} (hrun : ws ++ rest = rpc.frames) {q : Nat}
    (hq : ((Extent.mk rpc.run.1.toNat (payload ws)).hit q).isSome) :
    ((extentOf rpc.run).hit q).isSome := by
  have hdata : rpc.run.2 = payload ws ++ payload rest := by
    rw [← payload_append, hrun]
    rfl
  unfold extentOf
  rw [hdata]
  exact hit_of_part hq

/-! ## The tasks -/

theorem home_of_waits (hc : Carrying kind w p s) (hn : (p a).rpc = some (n, .write fh)) :
    (w.files.home fh).isSome := by
  obtain ⟨-, rpc, hx, -⟩ := (hc.mounted.rpcs.task a).rpc hn
  obtain ⟨-, f, hf, rfl, -⟩ := (hc.sending.task a).waits hn hx
  exact home_of_flight hc.mounted hf

/-- A step of a task, given what is new in it. -/
theorem Mirror.client {l' : ClientPhase} (h : Mirror base i m w p s) (hc : Carrying kind w p s)
    (hr : Recalls w w') (hfs : w'.host.fs = w.host.fs) (hrep : w'.host.replies = w.host.replies)
    (hbehind : Behind base (w'.extentsTo i m) (w.host.fs.bytes i) (w'.Buffered i))
    (htask : ∀ {fh batch}, l'.flight = some (fh, batch) → w'.files.home fh = some i →
      ((p a).flight = some (fh, batch) ∧ l'.left = (p a).left) ∨
        Landed (extentsOf batch.chunks) (extentsOf l'.left) (w.host.fs.bytes i))
    (hrpc : ∀ {n fh}, l'.rpc = some (n, .write fh) → (p a).rpc = some (n, .write fh) ∨
      s n = none ∧ ∀ r, (n, r) ∉ w.host.replies) : Mirror base i m w'
      (Function.update p a l') s := by
  -- a handle that a task flushes was opened before
  have hhome : ∀ {k : Fh}, (w.files.home k).isSome → w'.files.home k = some i →
      w.files.home k = some i := by
    intro k hk hi
    obtain ⟨j, hj⟩ := Option.isSome_iff_exists.mp hk
    rw [hj, ← hi, hr.home hj]
  have hwaits : ∀ {a n fh rpc'}, (p a).rpc = some (n, .write fh) → w'.net.rpcs n = some rpc' →
      ∃ rpc, w.net.rpcs n = some rpc ∧ rpc.Same rpc' := by
    intro a n fh rpc' hn hn'
    obtain ⟨-, rpc, hx, -⟩ := (hc.mounted.rpcs.task a).rpc hn
    exact ⟨rpc, hx, hr.same hx hn'⟩
  -- the other tasks are as they were
  have hrpcs : ∀ {b n fh}, (Function.update p a l' b).rpc = some (n, .write fh) →
      (p b).rpc = some (n, .write fh) ∨ s n = none ∧ ∀ r, (n, r) ∉ w.host.replies := by
    intro b n fh hn
    by_cases e : b = a
    · subst e
      exact hrpc (update_self b l' p ▸ hn)
    · exact .inl (update_of_ne e l' p ▸ hn)
  have hlanded : ∀ {b fh batch}, (p b).flight = some (fh, batch) → w'.files.home fh = some i →
      Landed (extentsOf batch.chunks) (extentsOf (p b).left) (w.host.fs.bytes i) := by
    intro b fh batch hf hi
    obtain ⟨g, hg, rfl, -⟩ := (hc.mounted.tasks.task b).flight_eq hf
    exact h.landed hf (hhome (home_of_flight hc.mounted hg) hi)
  refine ⟨by rw [hfs]; exact hbehind, fun {b fh batch} hf hi => ?_,
    fun {b n fh rpc l} hn hx hi hl hfail => ?_,
    fun {b n fh rpc r} hn hx hi hreply hok => ?_⟩
  · rw [hfs]
    by_cases e : b = a
    · subst e
      rw [update_self] at hf ⊢
      rcases htask hf hi with ⟨hf, hleft⟩ | hnew
      · exact hleft ▸ hlanded hf hi
      · exact hnew
    · rw [update_of_ne e] at hf ⊢
      exact hlanded hf hi
  · rw [hfs]
    rcases hrpcs hn with hn | ⟨hnone, -⟩
    · obtain ⟨x, hx', hs⟩ := hwaits hn hx
      have hold := h.wrote hn hx' (hhome (home_of_waits hc hn) hi) hl hfail
      unfold Rpc.part at hold ⊢
      rw [hs.run]
      exact hold
    · rw [hnone] at hl
      cases hl
  · rw [hfs]
    rcases hrpcs hn with hn | ⟨-, hnone⟩
    · obtain ⟨x, hx', hs⟩ := hwaits hn hx
      rw [hs.run]
      exact h.answered hn hx' (hhome (home_of_waits hc hn) hi) (hrep ▸ hreply) hok
    · exact absurd (hrep ▸ hreply) (hnone r)

/-- A step that accepts nothing and takes nothing from the buffer. -/
theorem Mirror.behind_mono (h : Mirror base i m w p s) (hm : Mounted w p s) (hfly : Flying w p s)
    (hr : Recalls w w') (hnum : w'.buf.pool.Numbered)
    (hacc : w'.buf.pool.accepted = w.buf.pool.accepted) (hnext : w.files.next ≤ w'.files.next)
    (htags : ∀ k, w.buf.pool.tags k ⊆ w'.buf.pool.tags k) :
    Behind base (w'.extentsTo i m) (w.host.fs.bytes i) (w'.Buffered i) := by
  unfold World.extentsTo
  rw [writesTo_congr hm hfly.numbered hnum hr hacc hnext]
  refine h.behind.mono fun q hq => ?_
  obtain ⟨fh, hi, t, ht, hhit⟩ := hq
  exact ⟨fh, hr.home hi, t, htags fh ht, hhit⟩

/-- A step after which the task has no other flush and waits for nothing else. -/
theorem Mirror.keep {l' : ClientPhase} (h : Mirror base i m w p s) (hc : Carrying kind w p s)
    (hr : Recalls w w') (hfs : w'.host.fs = w.host.fs) (hrep : w'.host.replies = w.host.replies)
    (hbehind : Behind base (w'.extentsTo i m) (w.host.fs.bytes i) (w'.Buffered i))
    (hl : ∀ x, l'.flight = some x → (p a).flight = some x ∧ l'.left = (p a).left)
    (hrpc : ∀ x, l'.rpc = some x → (p a).rpc = some x) :
    Mirror base i m w' (Function.update p a l') s := by
  exact h.client hc hr hfs hrep hbehind (fun hf _ => .inl (hl _ hf)) fun hn => .inl (hrpc _ hn)

theorem Mirror.update {l' : ClientPhase} (h : Mirror base i m w p s) (hc : Carrying kind w p s)
    (hfly : Flying w p s) (hr : Recalls w w') (hfs : w'.host.fs = w.host.fs)
    (hrep : w'.host.replies = w.host.replies) (hb : w'.buf.pool = w.buf.pool)
    (hnext : w.files.next ≤ w'.files.next) (hf : l'.flight = (p a).flight)
    (hl : l'.left = (p a).left) (hrpc : l'.rpc = (p a).rpc) :
    Mirror base i m w' (Function.update p a l') s := by
  refine h.keep hc hr hfs hrep ?_ (fun _ hx => ⟨hf ▸ hx, hl⟩) fun _ hx => hrpc ▸ hx
  exact h.behind_mono hc.mounted hfly hr (hb ▸ hfly.numbered) (by rw [hb]) hnext fun _ => by
    rw [hb]
    exact List.Subset.refl _

theorem mirror_push {offset : UInt64} {data : Bytes} {now : Instant} {iter : List Fh}
    {l' : ClientPhase} (h : Mirror base i m w p s) (hc : Carrying kind w p s) (hfly : Flying w p s)
    (hfresh : w.Fresh i m) (hfh : (w.files.home fh).isSome)
    (hnone : l'.flight = none) (hrpc : l'.rpc = (p a).rpc) :
    Mirror base i m { w with buf := { w.buf with pool := w.buf.pool.push fh offset data now iter } }
      (update p a l') s := by
  have hend : ∀ x, l'.flight = some x → (p a).flight = some x ∧ l'.left = (p a).left := by
    intro x hx
    cases hnone.symm.trans hx
  by_cases hr : (w.buf.pool.buf.push fh offset data now iter).1 = .reject
  · rw [Pool.push_of_reject hr]
    exact h.keep hc (.refl w) rfl rfl h.behind hend fun _ hx => hrpc ▸ hx
  refine h.keep hc (.of_eq rfl rfl rfl) rfl rfl ?_ hend fun _ hx => hrpc ▸ hx
  unfold World.extentsTo
  rw [writesTo_push hfly.numbered (hc.mounted.opened.home_lt hfh) hfresh.start hr, List.map_append]
  -- what is buffered stays buffered
  have hold : ∀ q, w.Buffered i q →
      ({ w with buf := { w.buf with pool := w.buf.pool.push fh offset data now iter } } :
        World).Buffered i q := by
    rintro q ⟨k, hk, t, ht, hq⟩
    refine ⟨k, hk, t, ?_, hq⟩
    change t ∈ (w.buf.pool.push fh offset data now iter).tags k
    rw [Pool.push_of_accept hr]
    simp only [update_apply]
    split
    · next e => exact List.mem_append_left _ (e ▸ ht)
    · exact ht
  split
  · next hi =>
    refine h.behind.push hold fun q hq => ⟨fh, hi, (w.buf.pool.next, ⟨offset, data, now⟩), ?_, hq⟩
    change _ ∈ (w.buf.pool.push fh offset data now iter).tags fh
    rw [Pool.push_of_accept hr]
    simp
  · rw [List.map_nil, List.append_nil]
    exact h.behind.mono hold

theorem mirror_begin (h : Mirror base i m w p s) (hc : Carrying kind w p s) (hfly : Flying w p s)
    (hnum : (w.buf.pool.beginFlush a fh).Numbered) :
    Mirror base i m { w with buf := { w.buf with pool := w.buf.pool.beginFlush a fh } }
      (update p a ((p a).begun fh (w.buf.pool.buf.beginFlush fh).1)) s := by
  have hr : Recalls w { w with buf := { w.buf with pool := w.buf.pool.beginFlush a fh } } :=
    .of_eq rfl rfl rfl
  rcases Pool.guarded_or_free w.buf.pool.buf fh with hg | ⟨hg, hq⟩
  · have hnone : (w.buf.pool.buf.beginFlush fh).1 = none := by
      rw [WriteBuffer.beginFlush_fst, if_pos hg]
    rw [Pool.beginFlush_of_refused hg, hnone]
    exact h.update hc hfly (.refl w) rfl rfl rfl (Nat.le_refl _) rfl rfl rfl
  · have hsome := WriteBuffer.beginFlush_eq_some.mpr ⟨hg, hq, rfl⟩
    rw [Pool.beginFlush_of_free hg hq] at hnum hr ⊢
    rw [hsome]
    refine h.client hc hr rfl rfl ?_ (fun {k batch} hf _ => ?_) fun {n k} hn => .inl hn
    · exact h.behind_mono hc.mounted hfly hr hnum rfl (Nat.le_refl _) fun _ => List.Subset.refl _
    · obtain ⟨-, rfl⟩ := Prod.mk.inj (Option.some.inj hf)
      exact .inr (landed_all _ _)

theorem mem_tags_ack {k : Fh} (hl : w.buf.pool.Lossless) (hf : w.buf.pool.flight a = some f)
    (ht : t ∈ w.buf.pool.tags k) :
    t ∈ (w.buf.pool.ackFlush a f).tags k ∨ k = f.handle ∧ t ∈ f.snapshot := by
  simp only [Pool.ackFlush, update_apply]
  split
  · next e =>
    subst e
    rw [hl.tags_eq hf] at ht
    exact (List.mem_append.mp ht).symm.imp_right fun ht => ⟨rfl, ht⟩
  · exact .inl ht

/-- The newest write at a position that an acknowledgement takes from the buffer is one of the
flush. -/
theorem newest_of_ack (hc : Carrying kind w p s) (hfly : Flying w p s) (ho : Overtakes w p s)
    (hfresh : w.Fresh i m) (hf : w.buf.pool.flight a = some f) (hi : w.files.home f.handle = some i)
    {q : Nat} {t u : Tag} (ht : t ∈ f.snapshot) (htq : (t.2.extent.hit q).isSome)
    (hu : u ∈ w.writesTo i m) (huq : (u.2.extent.hit q).isSome)
    (hnew : ∀ v ∈ w.writesTo i m, (v.2.extent.hit q).isSome → v.1 ≤ u.1)
    (hgone : ∀ k, w.files.home k = some i → u ∉ (w.buf.pool.ackFlush a f).tags k) :
    u ∈ f.snapshot := by
  have ht' := tags_of_snapshot hc.lossless hf ht
  have hle : t.1 ≤ u.1 := hnew t (snapshot_writesTo hc.mounted hc.lossless hfresh hf hi ht) htq
  obtain ⟨k, hk, -, hacc⟩ := (mem_writesTo hc.mounted).mp hu
  have hsplit := hc.lossless.fifo k
  rw [← hsplit] at hacc
  rcases List.mem_append.mp hacc with hack | htag
  · exfalso
    by_cases e : k = f.handle
    · subst e
      exact absurd hle (Nat.not_le.mpr ((hc.lossless.acked_lt f.handle u hack).2 t ht'))
    · -- an acknowledged write of another handle is not newer
      have hne : t.1 ≠ u.1 :=
        fun heq => e (hfly.numbered.apart (hc.mounted.opened.recorded.acked k u hack)
        (hc.mounted.opened.recorded.flight hf t ht) heq.symm)
      exact ho.none_older (Ne.symm e) (by rw [hi]; rfl) (hk.trans hi.symm) u hack t ht'
        (Nat.lt_of_le_of_ne hle hne)
        (overlap_of_hit htq huq)
  · rcases mem_tags_ack hc.lossless hf htag with htag | ⟨-, hsnap⟩
    · exact absurd htag (hgone k hk)
    · exact hsnap

/-- What a flush that is acknowledged has written is in the file. -/
theorem landed_of_ack (h : Mirror base i m w p s) (hc : Carrying kind w p s) (hfly : Flying w p s)
    (hfresh : w.Fresh i m) (hf : w.buf.pool.flight a = some f)
    (hl : (p a).flight = some (f.handle, f.batch)) (hleft : (p a).left = [])
    (hi : w.files.home f.handle = some i) {q : Nat} {x : UInt8} {u : Tag} (hu : u ∈ f.snapshot)
    (hux : u.2.extent.hit q = some x)
    (hnew : ∀ v ∈ w.writesTo i m, (v.2.extent.hit q).isSome → v.1 ≤ u.1) :
    (w.host.fs.bytes i)[q]? = some x := by
  have hsorted : f.snapshot.Pairwise (·.1 < ·.1) :=
    (hc.lossless.sorted f.handle).sublist (hc.lossless.live hf (hc.lossless.buffered hf)).1.sublist
  have hlast : lastHit (chunkExtents (f.snapshot.map Prod.snd)) q = some x := by
    rw [chunkExtents, List.map_map]
    refine lastHit_of_newest hsorted hu hux fun v hv hvq => hnew v ?_ hvq
    exact snapshot_writesTo hc.mounted hc.lossless hfresh hf hi hv
  rw [← hfly.lastHit_batch hc.mounted hf] at hlast
  have hland := h.landed hl hi
  rw [hleft] at hland
  exact hland q x (by simp) hlast

/-- A flush is acknowledged when the file has its chunks. -/
theorem mirror_ack {l' : ClientPhase} (h : Mirror base i m w p s) (hc : Carrying kind w p s)
    (hfly : Flying w p s) (ho : Overtakes w p s) (hfresh : w.Fresh i m)
    (hf : w.buf.pool.flight a = some f) (hl : (p a).flight = some (f.handle, f.batch))
    (hleft : (p a).left = []) (hnone : l'.flight = none) (hrpc : l'.rpc = (p a).rpc) :
    Mirror base i m { w with buf := { w.buf with pool := w.buf.pool.ackFlush a f } }
      (update p a l') s := by
  have hr : Recalls w { w with buf := { w.buf with pool := w.buf.pool.ackFlush a f } } :=
    .of_eq rfl rfl rfl
  refine h.keep hc hr rfl rfl ?_ (fun x hx => ?_) fun _ hx => hrpc ▸ hx
  swap
  · cases hnone.symm.trans hx
  have hnum : (w.buf.pool.ackFlush a f).Numbered := hfly.numbered.congr rfl rfl
  unfold World.extentsTo
  rw [writesTo_congr hc.mounted hfly.numbered hnum hr rfl (Nat.le_refl _)]
  refine h.behind.settle fun q hq => ?_
  by_cases hstill :
    ({ w with buf := { w.buf with pool := w.buf.pool.ackFlush a f } } : World).Buffered i q
  · exact .inl hstill
  obtain ⟨k, hk, t, ht, htq⟩ := hq
  -- the chunk that was buffered there is one of the flush
  obtain ⟨rfl, hsnap⟩ : k = f.handle ∧ t ∈ f.snapshot := by
    rcases mem_tags_ack hc.lossless hf ht with ht | hsnap
    · exact absurd ⟨k, hk, t, ht, htq⟩ hstill
    · exact hsnap
  have hmem := snapshot_writesTo hc.mounted hc.lossless hfresh hf hk hsnap
  obtain ⟨x, hx⟩ : ∃ x, lastHit ((w.writesTo i m).map fun t => t.2.extent) q = some x :=
    Option.isSome_iff_exists.mp (lastHit_isSome.mpr ⟨_, List.mem_map_of_mem hmem, htq⟩)
  obtain ⟨u, hu, hux, hnew⟩ := exists_newest (writesTo_sorted hfly.numbered i m) hx
  have huq : (u.2.extent.hit q).isSome := by rw [hux]; rfl
  have husnap := newest_of_ack hc hfly ho hfresh hf hk hsnap htq hu huq hnew fun k' hk' hu' =>
    hstill ⟨k', hk', u, hu', huq⟩
  exact .inr ⟨x, landed_of_ack h hc hfly hfresh hf hl hleft hk husnap hux hnew, hx⟩

theorem mirror_buf {op : BufAct} {r : op.Ret} (h : Mirror base i m w p s) (hc : Carrying kind w p s)
    (hfly : Flying w p s) (ho : Overtakes w p s) (hfresh : w.Fresh i m)
    (hpre : bufProtocol.pre (p a) op)
    (hK : ∀ fh ∈ (Tid.client a).drops? (.buf op), w.buf.pool.tags fh = [])
    (he : World.exec S (.client a) (.buf op) ch w = some (r, w')) :
    Mirror base i m w' (update p a (bufProtocol.next (p a) op r)) s := by
  obtain ⟨x, hx, rfl⟩ := exec_buf he
  have hnum := numbered_buf hc.mounted hfly.numbered hpre hx
  have hr : Recalls w { w with buf := x } := .of_eq rfl rfl rfl
  have hrpc : (bufProtocol.next (p a) op r).rpc = (p a).rpc := (buf_next_rpc op r).1
  -- a step after which the task has no flush, and which leaves the queues alone
  have hend : (∀ fh offset data, op ≠ .push fh offset data) →
      (bufProtocol.next (p a) op r).flight = none →
      x.pool.tags = w.buf.pool.tags →
      Mirror base i m { w with buf := x } (update p a (bufProtocol.next (p a) op r)) s := by
    intro hne hnone htags
    refine h.keep hc hr rfl rfl ?_ (fun y hy => ?_) fun _ hy => hrpc ▸ hy
    · refine h.behind_mono hc.mounted hfly hr hnum (exec_accepted hx hne) (Nat.le_refl _) fun k =>
        ?_
      rw [show ({ w with buf := x } : World).buf.pool.tags = w.buf.pool.tags from htags]
      exact List.Subset.refl _
    · cases hnone.symm.trans hy
  cases op with
  | push fh offset data =>
    obtain ⟨-, rfl⟩ := Prod.mk.inj (Option.some.inj hx)
    have hfh := ((hc.mounted.opened.task a).used _ hpre.1).1 fh rfl
    exact mirror_push h hc hfly hfresh hfh hpre.2 rfl
  | beginFlush fh =>
    obtain ⟨rfl, rfl⟩ := Prod.mk.inj (Option.some.inj hx)
    exact mirror_begin h hc hfly hnum
  | ackFlush fh n =>
    obtain ⟨-, batch, hl, hn, hleft⟩ := hpre
    obtain ⟨f, hf, rfl, rfl⟩ := (hc.mounted.tasks.task a).flight_eq hl
    obtain rfl := exec_ackFlush hf hn hx
    exact mirror_ack h hc hfly ho hfresh hf hl hleft rfl rfl
  | failFlush fh =>
    obtain ⟨-, batch, hl⟩ := hpre
    obtain ⟨f, hf, rfl, rfl⟩ := (hc.mounted.tasks.task a).flight_eq hl
    obtain rfl := exec_failFlush hx
    exact hend (by simp) rfl rfl
  | dropHandle fh =>
    obtain ⟨-, rfl⟩ := Prod.mk.inj (Option.some.inj hx)
    refine hend (by simp) rfl ?_
    exact update_eq_self_iff.mpr (hK fh rfl).symm
  | hasBuffered fh =>
    obtain rfl := exec_look hx trivial
    change Mirror base i m w (update p a ((p a).looked fh r)) s
    unfold ClientPhase.looked
    split <;> exact h.update hc hfly hr rfl rfl rfl (Nat.le_refl _) rfl rfl rfl
  | totalBytes =>
    obtain rfl := exec_look hx trivial
    change Mirror base i m w (update p a ((p a).counted r)) s
    unfold ClientPhase.counted
    split <;> exact h.update hc hfly hr rfl rfl rfl (Nat.le_refl _) rfl rfl rfl
  | handles | olderThan | expiredHandles =>
    obtain rfl := exec_look hx trivial
    exact h.update hc hfly hr rfl rfl rfl (Nat.le_refl _) rfl rfl rfl
  | stickyInsert fh | stickyRemove fh =>
    obtain ⟨-, rfl⟩ := Prod.mk.inj (Option.some.inj hx)
    exact h.update hc hfly hr rfl rfl rfl (Nat.le_refl _) rfl rfl rfl

/-- A Write that is sent has not been taken up. -/
theorem mirror_send {session : Nat} {request : Request} {more : List WriteRequest}
    {purpose : Purpose} (h : Mirror base i m w p s) (hc : Carrying kind w p s) (hfly : Flying w p s)
    (hr : Recalls w (w.post (w.newRpc a session request more purpose) more))
    (hnone : (p a).rpc = none) :
    Mirror base i m (w.post (w.newRpc a session request more purpose) more)
      (update p a ((p a).sent purpose (some w.net.nextRpc))) s := by
  refine h.client hc hr rfl rfl ?_ (fun {k batch} hf _ => .inl ?_) fun {n k} hn => ?_
  · exact h.behind_mono hc.mounted hfly hr hfly.numbered rfl (Nat.le_refl _) fun _ =>
      List.Subset.refl _
  · rw [(sent_sameTask ..).flight] at hf
    refine ⟨hf, ?_⟩
    unfold ClientPhase.sent
    split <;> rfl
  · obtain rfl : n = w.net.nextRpc := by
      cases purpose with
      | read => cases hnone.symm.trans hn
      | _ => exact (Prod.mk.inj (Option.some.inj hn)).1.symm
    refine .inr ⟨?_, fun r hreply => ?_⟩
    · cases hs : s w.net.nextRpc with
      | none => rfl
      | some l =>
        obtain ⟨rpc, hx, -⟩ := hc.mounted.rpcs.stream hs
        exact absurd (hc.mounted.rpcs.lt hx) (Nat.lt_irrefl _)
    · obtain ⟨rpc, hx, -⟩ := hc.mounted.rpcs.replies hreply
      exact absurd (hc.mounted.rpcs.lt hx) (Nat.lt_irrefl _)

theorem mirror_await {r : Option Response} (h : Mirror base i m w p s) (hc : Carrying kind w p s)
    (hfly : Flying w p s) (hpre : (netProtocol S.chunkSize).pre (p a) (.await n))
    (he : World.exec S (.client a) (.net (.await n)) ch w = some (r, w')) :
    Mirror base i m w' (update p a ((p a).received r)) s := by
  have hr := recalls_net hc.mounted he
  have hframe := exec_net_frame he
  refine h.client hc hr hframe.fs hframe.replies ?_ (fun {k batch} hf hk => ?_) fun {m k} hn => ?_
  · refine h.behind_mono hc.mounted hfly hr ?_ ?_ ?_ fun _ => ?_
    · rw [hframe.buf]
      exact hfly.numbered
    · rw [hframe.buf]
    · rw [hframe.files]
    · rw [hframe.buf]
      exact List.Subset.refl _
  · rw [(received_sameTask r).flight] at hf
    rw [hframe.files] at hk
    rcases received_left_cases (l := p a) r with hl | ⟨m, fh, resp, hrpc, rfl, hok, hl⟩
    · exact .inl ⟨hf, hl⟩
    obtain rfl : m = n := by
      rcases hpre with ⟨q, hq⟩ | ⟨hq, -⟩
      · exact (Prod.mk.inj (Option.some.inj (hrpc.symm.trans hq))).1
      · cases hrpc.symm.trans hq
    obtain ⟨rpc, hn, ⟨hno, -⟩ | ⟨resp', hsome, hresp, -⟩⟩ := exec_await he
    · cases hno
    obtain rfl := Option.some.inj hsome
    obtain ⟨⟨runs, hruns⟩, g, hg, rfl, -⟩ := (hc.sending.task a).waits hrpc hn
    obtain rfl : k = g.handle := by
      obtain ⟨g', hg', rfl, -⟩ := (hc.mounted.tasks.task a).flight_eq hf
      rw [Option.some.inj (hg.symm.trans hg')]
    -- the run in front of those that are left is the one that was answered
    have hin := h.answered hrpc hn hk (mem_replies_of_answersOf hresp) hok
    obtain ⟨before, hbefore⟩ := (hc.sending.task a).left hf
    have hland := h.landed hf hk
    rw [← hbefore, hruns] at hland ⊢
    refine .inr ?_
    rw [hl, hruns, List.tail_cons]
    simp only [extentsOf, List.map_append, List.map_cons] at hland ⊢
    exact hland.next hin
  · rw [received_rpc] at hn
    cases hn

theorem mirror_net {op : NetAct} {r : op.Ret} (h : Mirror base i m w p s) (hc : Carrying kind w p s)
    (hfly : Flying w p s) (hpre : (netProtocol S.chunkSize).pre (p a) op)
    (he : World.exec S (.client a) (.net op) ch w = some (r, w')) :
    Mirror base i m w' (update p a ((netProtocol S.chunkSize).next (p a) op r)) s := by
  have hr := recalls_net hc.mounted he
  have hf := exec_net_frame he
  cases op with
  | send session request more purpose =>
    rcases exec_send he with ⟨rfl, rfl⟩ | ⟨rfl, rfl⟩
    · exact h.update hc hfly hr rfl rfl rfl (Nat.le_refl _) rfl rfl rfl
    · exact mirror_send h hc hfly hr hpre.1
  | await n => exact mirror_await h hc hfly hpre he
  | _ => exact h.update hc hfly hr hf.fs hf.replies (by rw [hf.buf]) (by rw [hf.files]) rfl rfl rfl

/-! ## The streams -/

theorem run_of_waits {m : Nat} (hc : Carrying kind w p s) (hn : (p b).rpc = some (m, .write fh))
    (hx : w.net.rpcs m = some rpc) :
    ∃ g, w.buf.pool.flight b = some g ∧ g.handle = fh ∧ rpc.run ∈ g.batch.chunks ∧
      rpc.run ∈ (p b).left := by
  obtain ⟨⟨runs, hruns⟩, g, hg, hh, -⟩ := (hc.sending.task b).waits hn hx
  have hfl : (p b).flight = some (g.handle, g.batch) := by
    rw [(hc.mounted.tasks.task b).flight, hg]
    rfl
  have hleft : rpc.run ∈ (p b).left := hruns ▸ List.mem_cons_self
  exact ⟨g, hg, hh, ((hc.sending.task b).left hfl).subset hleft, hleft⟩

/-- The stream is about to write a frame to the file, for a flush of the task. -/
structure Writer (w : World) (p : Clients) (i : Ino) (n : Nat) (l : StreamPhase)
    (fr : WriteRequest) (a : Actor) (rpc : Rpc) (f : Flight) : Prop where
  sent : w.net.rpcs n = some rpc
  waits : (p a).rpc = some (n, .write f.handle)
  home : w.files.home f.handle = some i
  flight : w.buf.pool.flight a = some f
  left : rpc.run ∈ (p a).left
  run : rpc.run ∈ f.batch.chunks
  failed : l.failed = false
  chained : Chained rpc.run.1 rpc.frames
  frames : ∃ rest, l.wrote ++ fr :: rest = rpc.frames

/-- **Whoever writes to a file does it for a flush in flight.** -/
theorem exists_writer {l : StreamPhase} {x : File} {offset : UInt64} {data : Bytes} {append : Bool}
    (hc : Carrying kind w p s) (hfly : Flying w p s) (hn : s n = some l)
    (hpre : streamProtocol.pre l (.writeAt x offset data append))
    (hop : ∃ rpc, w.net.rpcs n = some rpc ∧ rpc.request.op = .write) :
    ∃ fr a rpc f, fr.offset = offset ∧ fr.data = data ∧ l.frame = some fr ∧
      Writer w p x.ino n l fr a rpc f := by
  obtain ⟨hheld, hreplied, fr, hfr, rfl, rfl⟩ := hpre
  obtain ⟨rpc, hx, hop⟩ := hop
  obtain ⟨fh, hp⟩ := (hc.mounted.rpcs.formed hx).write hop
  obtain ⟨a, ha⟩ := hc.sending.awaited hc.mounted hn hx hp hreplied (hfly.kept hx hp)
  obtain ⟨f, hf, rfl, hrun, hleft⟩ := run_of_waits hc ha hx
  have hfailed : l.failed = false := by
    by_contra hno
    cases (hc.sending.failed hn (Bool.not_eq_false _ ▸ hno)).symm.trans hfr
  have hframes := hc.sending.stream hn hx hp hfailed
  rw [Option.mem_def.mp hfr, Option.toList_some, List.append_assoc] at hframes
  exact ⟨fr, a, rpc, f, rfl, rfl, hfr, hx, ha, hc.bound.home hc.mounted hn hheld hx
    (by rw [hp]; rfl), hf, hleft, hrun,
    hfailed, hc.sending.chained hx hp, _, hframes⟩

namespace Writer

variable {l : StreamPhase} {fr : WriteRequest} {q k : Nat}

theorem offset_eq (hw : Writer w p i n l fr a rpc f) (h : Mirror base i m w p s)
    (hn : s n = some l) : fr.offset.toNat = rpc.run.1.toNat + (payload l.wrote).length := by
  obtain ⟨rest, hframes⟩ := hw.frames
  have hchained := hw.chained
  rw [← hframes] at hchained
  exact hchained.offset_eq (h.wrote hw.waits hw.sent hw.home hn hw.failed).1

theorem hit_run (hw : Writer w p i n l fr a rpc f) (h : Mirror base i m w p s) (hn : s n = some l)
    (hq : ((Extent.mk fr.offset.toNat (fr.data.take k)).hit q).isSome) :
    ((extentOf rpc.run).hit q).isSome := by
  obtain ⟨rest, hframes⟩ := hw.frames
  have hframes : (l.wrote ++ [fr]) ++ rest = rpc.frames := by rw [← hframes, List.append_assoc]; rfl
  refine hit_of_frames hframes ?_
  have hdata := Extent.hit_take (e := ⟨fr.offset.toNat, fr.data⟩) hq
  rw [hw.offset_eq h hn] at hdata
  rw [payload_append, Extent.hit_append, payload_cons, payload_nil, List.append_nil]
  rw [Option.isSome_or, hdata]
  rfl

theorem hit_chunk (hw : Writer w p i n l fr a rpc f) (h : Mirror base i m w p s)
    (hc : Carrying kind w p s) (hfly : Flying w p s) (hn : s n = some l)
    (hq : ((Extent.mk fr.offset.toNat (fr.data.take k)).hit q).isSome) :
    ∃ t ∈ f.snapshot, (t.2.extent.hit q).isSome :=
  hfly.covers hc.mounted hw.flight hw.run (hw.hit_run h hn hq)

/-- It does not write where another task's flush of the file does. -/
theorem misses (hw : Writer w p i n l fr a rpc f) (h : Mirror base i m w p s)
    (hc : Carrying kind w p s) (hfly : Flying w p s) (hn : s n = some l)
    (hg : w.buf.pool.flight b = some g) (hne : b ≠ a) (hi : w.files.home g.handle = some i)
    {run : UInt64 × Bytes} (hrun : run ∈ g.batch.chunks) (hq : ((extentOf run).hit q).isSome) :
    (Extent.mk fr.offset.toNat (fr.data.take k)).hit q = none := by
  by_contra hno
  obtain ⟨t, ht, htq⟩ := hw.hit_chunk h hc hfly hn (Option.isSome_iff_ne_none.mpr hno)
  obtain ⟨u, hu, huq⟩ := hfly.covers hc.mounted hg hrun hq
  rw [hfly.apart hc hw.flight hg (Ne.symm hne) (hi.trans hw.home.symm) ht hu htq] at huq
  cases huq

end Writer

section
variable {host : Host} {hist : History} {l l' : StreamPhase} {fr : WriteRequest} {k : Nat}

/-- A stream writes a frame, or a part of one. -/
theorem mirror_write (h : Mirror base i m w p s) (hc : Carrying kind w p s) (hfly : Flying w p s)
    (hfresh : w.Fresh i m) (hn : s n = some l) (hreplied : l.replied = false)
    (hw : Writer w p i n l fr a rpc f) (hrep : host.replies = w.host.replies)
    (hbytes : host.fs.bytes i = pwrite (w.host.fs.bytes i) fr.offset.toNat (fr.data.take k))
    (hl : l'.failed = false → l'.wrote = l.wrote ++ [fr] ∧ k = fr.data.length ∧ fr.Fits) :
    Mirror base i m { w with host, hist } p (update s n (some l')) := by
  -- the other tasks that wait for a Write to the file
  have hother : ∀ {b m fh rpc'}, (p b).rpc = some (m, .write fh) →
      w.net.rpcs m = some rpc' → m ≠ n →
      w.files.home fh = some i → ∀ q, ((extentOf rpc'.run).hit q).isSome →
        (Extent.mk fr.offset.toNat (fr.data.take k)).hit q = none := by
    intro b m fh rpc' hm hx hne hi q hq
    obtain ⟨g, hg, rfl, hrun, -⟩ := run_of_waits hc hm hx
    refine hw.misses h hc hfly hn hg (fun e => hne ?_) hi hrun hq
    subst e
    exact (Prod.mk.inj (Option.some.inj (hm.symm.trans hw.waits))).1
  refine ⟨?_, fun {b fh batch} hf hi => ?_, fun {b m fh rpc' l''} hm hx hi hs hfail => ?_,
    fun {b m fh rpc' r} hm hx hi hr hok => ?_⟩
  · change Behind base _ (host.fs.bytes i) _
    rw [hbytes]
    refine h.behind.write fun q hq => ?_
    obtain ⟨t, ht, htq⟩ := hw.hit_chunk h hc hfly hn hq
    refine ⟨⟨f.handle, hw.home, t, tags_of_snapshot hc.lossless hw.flight ht, htq⟩,
      lastHit_isSome.mpr ⟨_, ?_, htq⟩⟩
    exact List.mem_map_of_mem (snapshot_writesTo hc.mounted hc.lossless hfresh hw.flight hw.home ht)
  · change Landed _ _ (host.fs.bytes i)
    rw [hbytes]
    refine (h.landed hf hi).write fun q hq => ?_
    by_cases e : b = a
    · subst e
      exact .inl ⟨_, List.mem_map_of_mem hw.left, hw.hit_run h hn hq⟩
    · obtain ⟨g, hg, rfl, rfl⟩ := (hc.mounted.tasks.task b).flight_eq hf
      refine .inr (lastHit_eq_none.mpr fun d hd => ?_)
      obtain ⟨run, hrun, rfl⟩ := List.mem_map.mp hd
      by_contra hno
      rw [hw.misses h hc hfly hn hg e hi hrun (Option.isSome_iff_ne_none.mpr hno)] at hq
      cases hq
  · change _ ∧ (rpc'.part l'').In (host.fs.bytes i)
    rw [hbytes]
    by_cases e : m = n
    · subst e
      rw [update_self] at hs
      obtain rfl := Option.some.inj hs
      obtain rfl := Option.some.inj (hx.symm.trans hw.sent)
      obtain ⟨hwrote, rfl, hfit⟩ := hl hfail
      obtain ⟨hfits, hin⟩ := h.wrote hw.waits hx hw.home hn hw.failed
      unfold Rpc.part at hin ⊢
      rw [hwrote, payload_append, payload_cons, payload_nil, List.append_nil, List.take_length,
        hw.offset_eq h hn]
      refine ⟨fun x hx => ?_, hin.append⟩
      rcases List.mem_append.mp hx with hx | hx
      · exact hfits x hx
      · exact List.mem_singleton.mp hx ▸ hfit
    · rw [update_of_ne e] at hs
      obtain ⟨hfits, hin⟩ := h.wrote hm hx hi hs hfail
      refine ⟨hfits, hin.pwrite fun q hq => hother hm hx e hi q ?_⟩
      obtain ⟨-, x, hx', hp, -⟩ := (hc.mounted.rpcs.task b).rpc hm
      obtain rfl := Option.some.inj (hx'.symm.trans hx)
      have hframes := hc.sending.stream hs hx hp hfail
      rw [List.append_assoc] at hframes
      exact hit_of_frames hframes hq
  · change (extentOf rpc'.run).In (host.fs.bytes i)
    have hr : (m, r) ∈ host.replies := hr
    rw [hrep] at hr
    rw [hbytes]
    by_cases e : m = n
    · -- a stream that has answered a Write writes nothing more
      subst e
      obtain ⟨x, hx', -, hop⟩ := hc.mounted.rpcs.replies hr
      obtain rfl := Option.some.inj (hx'.symm.trans hx)
      obtain ⟨-, y, hy, hp, -⟩ := (hc.mounted.rpcs.task b).rpc hm
      obtain rfl := Option.some.inj (hy.symm.trans hx)
      have hformed := hc.mounted.rpcs.formed hx
      unfold Rpc.Formed at hformed
      rw [hp] at hformed
      obtain ⟨seq, first, hreq⟩ := hformed
      have hdone := hc.sending.replied hn hr (by rw [← hop, hreq]; simp [Request.op])
      cases hreplied.symm.trans hdone
    · exact (h.answered hm hx hi hr hok).pwrite fun q hq => hother hm hx e hi q hq

/-- A call of a stream that leaves the file alone. -/
theorem mirror_quiet (h : Mirror base i m w p s) (hc : Carrying kind w p s) (hn : s n = some l)
    (hbytes : host.fs.bytes i = w.host.fs.bytes i)
    (hl : l'.failed = false → ∀ fh, (∃ rpc, w.net.rpcs n = some rpc ∧ rpc.purpose = .write fh) →
      w.files.home fh = some i → l.failed = false ∧ l'.wrote = l.wrote)
    (hreplies : ∀ {m r}, (m, r) ∈ host.replies → (m, r) ∈ w.host.replies ∨
      m = n ∧ (r.op = .write → r.status = .ok → ∀ rpc fh, w.net.rpcs n = some rpc →
        rpc.purpose = .write fh →
        l.failed = false ∧ l.wrote = rpc.frames) ∧ l.request.op = r.op) :
    Mirror base i m { w with host, hist } p (update s n (some l')) := by
  have hpurpose : ∀ {b m fh rpc'}, (p b).rpc = some (m, .write fh) → w.net.rpcs m = some rpc' →
      rpc'.purpose = .write fh := by
    intro b m fh rpc' hm hx
    obtain ⟨-, x, hx', hp, -⟩ := (hc.mounted.rpcs.task b).rpc hm
    obtain rfl := Option.some.inj (hx'.symm.trans hx)
    exact hp
  refine ⟨?_, fun {b fh batch} hf hi => ?_, fun {b m fh rpc' l''} hm hx hi hs hfail => ?_,
    fun {b m fh rpc' r} hm hx hi hr hok => ?_⟩
  · change Behind base _ (host.fs.bytes i) _
    rw [hbytes]
    exact h.behind
  · change Landed _ _ (host.fs.bytes i)
    rw [hbytes]
    exact h.landed hf hi
  · change _ ∧ (rpc'.part l'').In (host.fs.bytes i)
    rw [hbytes]
    by_cases e : m = n
    · subst e
      rw [update_self] at hs
      obtain rfl := Option.some.inj hs
      obtain ⟨hfail, hwrote⟩ := hl hfail fh ⟨rpc', hx, hpurpose hm hx⟩ hi
      have hold := h.wrote hm hx hi hn hfail
      unfold Rpc.part at hold ⊢
      rw [hwrote]
      exact hold
    · rw [update_of_ne e] at hs
      exact h.wrote hm hx hi hs hfail
  · change (extentOf rpc'.run).In (host.fs.bytes i)
    rw [hbytes]
    rcases hreplies hr with hr | ⟨rfl, hnew, hop⟩
    · exact h.answered hm hx hi hr hok
    · -- a Write that is answered `Ok` was written in full
      have hp := hpurpose hm hx
      have hformed := hc.mounted.rpcs.formed hx
      unfold Rpc.Formed at hformed
      rw [hp] at hformed
      obtain ⟨seq, first, hreq⟩ := hformed
      obtain ⟨x, hx', -, -, hlreq⟩ := hc.mounted.rpcs.stream hn
      obtain rfl := Option.some.inj (hx'.symm.trans hx)
      have hwop : r.op = .write := by
        rw [← hop, hlreq, hreq]
        rfl
      obtain ⟨hfail, hwrote⟩ := hnew hwop hok x fh hx hp
      have hin := (h.wrote hm hx hi hn hfail).2
      unfold Rpc.part at hin
      rw [hwrote] at hin
      exact hin

end

theorem wrote_quiet {act : Sys} {r : act.Ret} {l : StreamPhase} (hne : act.writes? = none) :
    (streamProtocol.next l act r).failed = l.failed ∧
    (streamProtocol.next l act r).wrote = l.wrote := by
  cases act with
  | openat2 | openPlain => change Except Errno Ino at r; cases r <;> exact ⟨rfl, rfl⟩
  | writeAt => cases hne
  | _ => exact ⟨rfl, rfl⟩

theorem mirror_writeAt {x : File} {offset : UInt64} {data : Bytes} {r : Option IoErrorKind}
    {l : StreamPhase} {host : Host} {hist : History} (h : Mirror base x.ino m w p s)
    (hc : Carrying kind w p s) (hfly : Flying w p s) (hfresh : w.Fresh x.ino m) (hn : s n = some l)
    (hpre : streamProtocol.pre l (.writeAt x offset data false))
    (hop : ∃ rpc, w.net.rpcs n = some rpc ∧ rpc.request.op = .write)
    (he : (Server.Sys.writeAt x offset data false).exec S.kernel S.ex n ch.toChoice w.host =
      some (r, host)) :
    Mirror base x.ino m { w with host, hist } p
      (update s n (some (streamProtocol.next l (.writeAt x offset data false) r))) := by
  obtain ⟨fr, a, rpc, f, rfl, rfl, hfr, hw⟩ := exists_writer hc hfly hn hpre hop
  obtain ⟨k, hk, hbytes⟩ := exec_writeAt_bytes he
  have hrep : host.replies = w.host.replies := by
    rcases exec_replies he with hrep | ⟨y, hy, -⟩
    · exact hrep
    · cases hy
  refine mirror_write h hc hfly hfresh hn hpre.2.1 hw hrep hbytes fun hfail => ?_
  cases r with
  | none =>
    obtain ⟨-, -, -, hfits⟩ := exec_writeAt_ok he
    refine ⟨?_, hk rfl, hfits⟩
    change l.wrote ++ l.frame.toList = _
    rw [hfr]
    rfl
  | some e => cases hfail

theorem mirror_sys {act : Sys} {r : act.Ret} {l : StreamPhase} (hkernel : S.kernel.CreatesInDir)
    (h : Mirror base i m w p s) (hc : Carrying kind w p s) (hfly : Flying w p s)
    (hfresh : w.Fresh i m) (hn : s n = some l) (hpre : streamProtocol.pre l act)
    (hop : ∀ m ∈ (Tid.stream n).writes? (.sys act), ∃ rpc, w.net.rpcs m = some rpc ∧
      rpc.request.op = .write)
    (hpos : act.resizes? r ≠ some i ∧ act.appends? ≠ some i)
    (he : World.exec S (.stream n) (.sys act) ch w = some (r, w')) :
    Mirror base i m w' p (update s n (some (streamProtocol.next l act r))) := by
  obtain ⟨host, hex, rfl⟩ := exec_sys he
  by_cases hwrites : act.writes? = some i
  · cases act with
    | writeAt x offset data append =>
      obtain rfl := Option.some.inj hwrites
      cases append with
      | true => exact absurd rfl hpos.2
      | false => exact mirror_writeAt h hc hfly hfresh hn hpre (hop n rfl) hex
    | _ => cases hwrites
  refine mirror_quiet h hc hn (exec_bytes hkernel hex hwrites hpos.1) (fun hfail fh hp hi => ?_)
    fun {m q} hr => ?_
  · obtain ⟨rpc, hx, hp⟩ := hp
    cases act with
    | writeAt x offset data append =>
      -- the file of the handle is not the one that is written
      have hhome := hc.bound.home hc.mounted hn hpre.1 hx (by rw [hp]; rfl)
      exact absurd (hhome.symm.trans hi) hwrites
    | _ =>
      obtain ⟨hf, hwrote⟩ := wrote_quiet (r := r) (l := l) rfl
      exact ⟨hf ▸ hfail, hwrote⟩
  · rcases exec_replies hex with heq | ⟨x, rfl, heq⟩
    · exact .inl (heq ▸ hr)
    · rw [heq] at hr
      rcases List.mem_append.mp hr with hr | hr
      · exact .inl hr
      · obtain ⟨rfl, rfl⟩ := Prod.mk.inj (List.mem_singleton.mp hr)
        refine .inr ⟨rfl, fun hwop hok rpc fh hx hp => ⟨(hpre.2.2.2.1 hwop hok).1, ?_⟩, hpre.2.1⟩
        exact hc.sending.wrote hn hx hp hpre.2.2 hwop hok

theorem mirror_accept {q : Incoming} (h : Mirror base i m w p s) (hc : Carrying kind w p s)
    (he : World.exec S (.stream n) .accept ch w = some (q, w')) :
    Mirror base i m w' p (update s n (some (.start q.session q.request))) := by
  obtain ⟨rpc, hx, -, -, rfl⟩ := exec_accept he
  have hr : Recalls w (w.setRpc n { rpc with accepted := true }) :=
    recalls_setRpc hx ⟨rfl, rfl, rfl, rfl, rfl, rfl⟩
  have hset : Mirror base i m (w.setRpc n { rpc with accepted := true }) p s := by
    have hclient := h.client (a := .fuse) hc hr rfl rfl h.behind (fun hf _ => .inl ⟨hf, rfl⟩) .inl
    rwa [update_eq_self] at hclient
  refine { hset with wrote := fun {a m fh rpc' l} hm hx' hi hl hfail => ?_ }
  by_cases e : m = n
  · subst e
    rw [update_self] at hl
    obtain rfl := Option.some.inj hl
    exact ⟨nofun, Extent.in_nil _ _⟩
  · rw [update_of_ne e] at hl
    exact hset.wrote hm hx' hi hl hfail

theorem overtaken_keeps {K : MountCond} :
    Keeps S K (fun w p s => Carrying kind w p s ∧ Flying w p s) Overtakes where
  client {a act ch r w w' p s} hj h hpre _ he := by
    refine overtakes_keeps.client hj.1.mounted h hpre ⟨fun n hn => ?_, fun x hx f hf t ht => ?_⟩ he
    · cases hn
    · -- what is acknowledged is a flush in flight
      cases act with
      | buf op =>
        cases op with
        | ackFlush fh n =>
          obtain rfl := Option.some.inj hx
          obtain ⟨-, batch, hl, -⟩ := hpre
          obtain ⟨g, hg, rfl, -⟩ := (hj.1.mounted.tasks.task a).flight_eq hl
          obtain rfl := Option.some.inj (hg.symm.trans hf)
          exact hj.2.none_older hg t ht
        | _ => cases hx
      | _ => cases hx
  accept _ h _ _ he := by
    obtain ⟨rpc, -, -, -, rfl⟩ := exec_accept he
    exact h.frame rfl (fun _ _ hu => hu) rfl
  sys _ h _ _ _ he := by
    obtain ⟨host, -, rfl⟩ := exec_sys he
    exact h.frame rfl (fun _ _ hu => hu) rfl
  task _ h _ _ := h.frame rfl (fun _ _ hu => hu) rfl
  stream _ h _ := h.frame rfl (fun _ _ hu => hu) rfl
  env {e _ _ _} _ h _ := by
    cases e <;> exact h.frame rfl (fun _ _ hu => hu) rfl

/-- What is known of every run in which flushes begin in order and no Write is given up. -/
structure Ordering (kind : Callback → Bool) (w : World) (p : Clients) (s : Streams) : Prop where
  carrying : Carrying kind w p s
  flying : Flying w p s
  overtakes : Overtakes w p s

theorem mirror_client {act : Act} {r : act.Ret} (h : Mirror base i m w p s)
    (ho : Ordering kind w p s) (hfresh : w.Fresh i m)
    (hpre : (clientProtocol S.chunkSize).pre (p a) act)
    (hK : ∀ fh ∈ (Tid.client a).drops? act, w.buf.pool.tags fh = [])
    (he : World.exec S (.client a) act ch w = some (r, w')) :
    Mirror base i m w' (update p a ((clientProtocol S.chunkSize).next (p a) act r)) s := by
  obtain ⟨hc, hfly, hover⟩ := ho
  have hr := recalls_client hc.mounted hpre he
  cases act with
  | buf op => exact mirror_buf h hc hfly hover hfresh hpre hK he
  | files op =>
    obtain ⟨f, hx, rfl⟩ := exec_files he
    have hnext : w.files.next ≤ f.next := by
      obtain ⟨-, rfl⟩ := Prod.mk.inj hx
      cases op with
      | nextFh => exact Nat.le_succ _
      | _ => exact Nat.le_refl _
    exact h.update hc hfly hr rfl rfl rfl hnext (files_sameTask op r).flight (files_next_left op r)
      (files_next_rpc op r).1
  | net op => exact mirror_net h hc hfly hpre he
  | paths op =>
    obtain ⟨t, rfl⟩ := exec_paths he
    exact h.update hc hfly hr rfl rfl rfl (Nat.le_refl _) rfl rfl rfl
  | cache op =>
    obtain rfl := exec_cache he
    exact h.update hc hfly hr rfl rfl rfl (Nat.le_refl _) rfl rfl rfl
  | dev op =>
    cases op with
    | recv cb =>
      obtain rfl := exec_recv he
      exact h.update hc hfly hr rfl rfl rfl (Nat.le_refl _) rfl rfl rfl
    | reply x =>
      obtain rfl := exec_reply he
      exact h.update hc hfly hr rfl rfl (replied_pool x) (Nat.le_refl _) rfl rfl rfl
  | accept | sys => exact hpre.elim

theorem fresh_keeps {K : MountCond} : Keeps S K Mounted fun w _ _ => w.Fresh i m where
  client {a act ch r w w' p s} hm h hpre _ he := by
    obtain ⟨htags, hnext⟩ := client_tags hm hpre he
    refine ⟨h.start.trans hnext, fun {fh} hi t ht => ?_⟩
    rcases htags fh t ht with ht | hnew
    · obtain ⟨j, hj⟩ := Option.isSome_iff_exists.mp (home_of_tags hm ht)
      obtain rfl : j = i := Option.some.inj (((recalls_client hm hpre he).home hj).symm.trans hi)
      exact h.tags hj t ht
    · exact h.start.trans hnew
  accept _ h _ _ he := by
    obtain ⟨rpc, -, -, -, rfl⟩ := exec_accept he
    exact ⟨h.start, h.tags⟩
  sys _ h _ _ _ he := by
    obtain ⟨host, -, rfl⟩ := exec_sys he
    exact ⟨h.start, h.tags⟩
  task _ h _ _ := h
  stream _ h _ := h
  env {e _ _ _} _ h _ := by
    cases e <;> exact ⟨h.start, h.tags⟩

/-- The file is behind the writes, if it was only written to at given positions. -/
structure Tracked (base : Bytes) (i : Ino) (m k : Nat) (w : World) (p : Clients) (s : Streams) :
    Prop where
  length : k ≤ w.hist.log.length
  mirror : w.Positioned i k → Mirror base i m w p s

/-- **The file is behind the writes accepted for it**, as long as it is only written to at given
positions. -/
theorem tracked_keeps {K : MountCond} {k : Nat} (hkernel : S.kernel.CreatesInDir)
    (hdrop : ∀ {w t a ch}, K.run w t a ch → ∀ fh ∈ t.drops? a, w.buf.pool.tags fh = [])
    (hop : ∀ {w t a ch}, K.run w t a ch → ∀ n ∈ t.writes? a, ∃ rpc, w.net.rpcs n = some rpc ∧
      rpc.request.op = .write) :
    Keeps S K (fun w p s => Ordering kind w p s ∧ w.Fresh i m) (Tracked base i m k) where
  client {a act ch r w w' p s} hj h hpre hrun he := by
    have hlog : w'.hist = w.hist := (exec_client_record he).1
    refine ⟨hlog ▸ h.length, fun hpos => mirror_client (h.mirror ?_) hj.1 hj.2 hpre (hdrop hrun) he⟩
    unfold World.Positioned at hpos
    rwa [hlog] at hpos
  accept hj h _ _ he := by
    refine ⟨?_, fun hpos => mirror_accept (h.mirror ?_) hj.1.carrying he⟩
    all_goals obtain ⟨rpc, -, -, -, rfl⟩ := exec_accept he
    · exact h.length
    · exact hpos
  sys {n act ch w w' p s l r} hj h hn hpre hrun he := by
    have hlog : w'.hist.log = w.hist.log ++ [⟨n, act, r⟩] := by
      obtain ⟨host, -, rfl⟩ := exec_sys he
      exact log_afterSys w.hist
    refine ⟨?_, fun hpos => ?_⟩
    · rw [hlog, List.length_append]
      exact h.length.trans (Nat.le_add_right _ _)
    · unfold World.Positioned at hpos
      rw [hlog, List.drop_append_of_le_length h.length] at hpos
      refine mirror_sys hkernel (h.mirror fun e he => hpos e (List.mem_append_left _ he))
        hj.1.carrying hj.1.flying hj.2
        hn hpre (hop hrun) ?_ he
      exact hpos ⟨n, act, r⟩ (List.mem_append_right _ (List.mem_singleton_self _))
  task {a job w p s} hj h _ _ := by
    refine ⟨h.length, fun hpos => (h.mirror hpos).keep hj.1.carrying (.refl w) rfl rfl
      (h.mirror hpos).behind
      (fun x hx => ?_) fun x hx => ?_⟩
    · cases a <;> cases job <;> cases hx
    · cases a <;> cases job <;> cases hx
  stream {n job w p s} _ h _ := by
    refine ⟨h.length, fun hpos => { h.mirror hpos with wrote := fun hm hx hi hl hfail => ?_ }⟩
    rw [update_apply] at hl
    split at hl
    · cases hl
    · exact (h.mirror hpos).wrote hm hx hi hl hfail
  env {e w p s} _ h _ := by
    cases e
    all_goals
      refine ⟨h.length, fun hpos => ?_⟩
      have hm := h.mirror hpos
      exact ⟨hm.behind, hm.landed, hm.wrote, hm.answered⟩

theorem mirror_of_flushed (ho : Ordering kind w p s)
    (hflushed : ∀ fh, w.files.home fh = some i → w.buf.pool.tags fh = []) :
    Mirror (w.host.fs.bytes i) i w.buf.pool.next w p s ∧ w.Fresh i w.buf.pool.next := by
  have hc := ho.carrying
  have hnone : ∀ {a f}, w.buf.pool.flight a = some f → w.files.home f.handle ≠ some i :=
    fun hf hi => hc.lossless.buffered hf (hflushed _ hi)
  have hnew : w.writesTo i w.buf.pool.next = [] := by
    by_contra hne
    obtain ⟨t, ht⟩ := List.exists_mem_of_ne_nil _ hne
    obtain ⟨fh, -, hle, hacc⟩ := (mem_writesTo hc.mounted).mp ht
    exact Nat.not_lt.mpr hle (ho.flying.numbered.lt hacc)
  refine ⟨⟨?_, fun {a fh batch} hf hi => ?_, fun {a n fh rpc l} hn hx hi => ?_,
    fun {a n fh rpc r} hn hx hi => ?_⟩,
    Nat.le_refl _, fun {fh} hi t ht => ?_⟩
  · rw [World.extentsTo, hnew]
    exact .refl _ _
  · obtain ⟨g, hg, rfl, -⟩ := (hc.mounted.tasks.task a).flight_eq hf
    exact absurd hi (hnone hg)
  · obtain ⟨g, hg, rfl, -⟩ := run_of_waits hc hn hx
    exact absurd hi (hnone hg)
  · obtain ⟨g, hg, rfl, -⟩ := run_of_waits hc hn hx
    exact absurd hi (hnone hg)
  · rw [hflushed fh hi] at ht
    cases ht

end

/-- Flushes begin in order, no Write is given up, only empty queues are dropped and the bindings are
steady. -/
def Sequential (S : Setup) : MountCond where
  run w t a ch := (Steady S).run w t a ch ∧ (∀ fh ∈ t.drops? a, w.buf.pool.tags fh = []) ∧
    w.Orderly t a ch
  start := promisedStart
  env _ _ := True

instance (S : Setup) : (Sequential S).Checkable where
  run w t a ch :=
    have := Cond.Checkable.run (K := Steady S) w t a ch
    inferInstanceAs
      (Decidable ((Steady S).run w t a ch ∧ (∀ fh ∈ t.drops? a, w.buf.pool.tags fh = []) ∧
      w.Orderly t a ch))
  start w t job := inferInstanceAs (Decidable (promisedStart w t job))
  env _ _ := isTrue trivial

section
variable {S : Setup} {K : MountCond} {fs : Fs} {epoch : UInt32} {root : Path}
    {perHandle total window : Nat}
  {c₀ c : Config Act Act.Ret World Tid}

/-- The order of the flushes, in every run that keeps it. -/
theorem ordering_keeps {kind : Callback → Bool}
    (hrun : ∀ {w t a ch}, K.run w t a ch → (Sequential S).run w t a ch)
    (hfence : ∀ {w t a ch}, K.run w t a ch → ∀ fh ∈ t.fences? a, w.During kind → w.Free fh)
    (hstart : ∀ {w t job}, K.start w t job → promisedStart w t job) :
    Keeps S (servingToo K) (fun _ _ _ => True) (Ordering kind) := by
  have hcarrying : Keeps S (servingToo K) (fun _ _ _ => True) (Carrying kind) :=
    carrying_keeps (fun h => (hrun h).1) hfence (fun h => (hrun h).2.1) hstart
  have hflying : Keeps S (servingToo K) (Carrying kind) Flying := flying_keeps fun h =>
    (hrun h.1).2.2
  exact ((hcarrying.and hflying).and overtaken_keeps).imp (fun h => ⟨h.1.1, h.1.2, h.2⟩)
    fun h => ⟨⟨h.carrying, h.flying⟩, h.overtakes⟩

theorem ordering_init (S : Setup) (fs : Fs) (epoch : UInt32) (root : Path)
    (perHandle total window : Nat) (kind : Callback → Bool) :
    Ordering kind (.init S fs epoch root perHandle total window) (fun _ => {}) fun _ => none where
  carrying := carrying_init S fs epoch root perHandle total window kind
  flying := flying_init S fs epoch root perHandle total window
  overtakes := ⟨fun _ _ _ t ht => by cases ht⟩

/-- The condition of a run, with what is known of the FUSE task and of the streams that write. -/
theorem reach_serving_writers (h₀ : Reach (mountMachine S).step K.Meets
      (Config.idle (.init S fs epoch root perHandle total window)) c₀)
    (h : Reach (mountMachine S).step K.Meets c₀ c) :
    Reach (mountMachine S).step (servingToo (writersToo K)).Meets
      (Config.idle (.init S fs epoch root perHandle total window)) c₀ ∧
    Reach (mountMachine S).step (servingToo (writersToo K)).Meets c₀ c := by
  have hmeets : ∀ c l, Reach (mountMachine S).step K.Meets
      (Config.idle (.init S fs epoch root perHandle total window)) c →
      K.Meets c l → (servingToo (writersToo K)).Meets c l := by
    intro c l hr hl
    have hr' := Reach.strengthen .refl hr fun _ _ hr hl => meets_writersToo (fun _ => rfl) hr hl
    exact meets_servingToo hr' (meets_writersToo (fun _ => rfl) hr hl)
  exact ⟨.strengthen .refl h₀ hmeets, .strengthen h₀ h hmeets⟩

/-- The order of the flushes together with how far behind its writes a file is. -/
def Tracking (kind : Callback → Bool) (base : Bytes) (i : Ino) (m k : Nat) (w : World) (p : Clients)
    (s : Streams) : Prop :=
  (Ordering kind w p s ∧ w.Fresh i m) ∧ Tracked base i m k w p s

/-- The order of the flushes in the runs in which only Writes write and the streams are served. -/
theorem ordering_keeps_serving {kind : Callback → Bool}
    (hrun : ∀ {w t a ch}, K.run w t a ch → (Sequential S).run w t a ch)
    (hfence : ∀ {w t a ch}, K.run w t a ch → ∀ fh ∈ t.fences? a, w.During kind → w.Free fh)
    (hstart : ∀ {w t job}, K.start w t job → promisedStart w t job) :
    Keeps S (servingToo (writersToo K)) (fun _ _ _ => True) (Ordering kind) :=
  ordering_keeps (fun h => hrun h.1) (fun h => hfence h.1) hstart

theorem tracking_keeps {kind : Callback → Bool} {base : Bytes} {i : Ino} {m k : Nat}
    (hkernel : S.kernel.CreatesInDir)
    (hrun : ∀ {w t a ch}, K.run w t a ch → (Sequential S).run w t a ch)
    (hfence : ∀ {w t a ch}, K.run w t a ch → ∀ fh ∈ t.fences? a, w.During kind → w.Free fh)
    (hstart : ∀ {w t job}, K.start w t job → promisedStart w t job) :
    Keeps S (servingToo (writersToo K)) (fun _ _ _ => True) (Tracking kind base i m k) := by
  have hfresh : Keeps S (servingToo (writersToo K)) (Ordering kind) fun w _ _ => w.Fresh i m :=
    fresh_keeps.mono id id id fun h => h.carrying.mounted
  exact ((ordering_keeps_serving hrun hfence hstart).and hfresh).and
    (tracked_keeps hkernel (fun h => (hrun h.1.1).2.1) fun h => h.1.2)

theorem tracking_of_flushed {kind : Callback → Bool} {i : Ino} {w : World} {p : Clients}
    {s : Streams} (ho : Ordering kind w p s)
    (hflushed : ∀ fh, w.files.home fh = some i → w.buf.pool.tags fh = []) :
    Tracking kind (w.host.fs.bytes i) i w.buf.pool.next w.hist.log.length w p s := by
  obtain ⟨hm, hf⟩ := mirror_of_flushed ho hflushed
  exact ⟨⟨ho, hf⟩, Nat.le_refl _, fun _ => hm⟩

end

/-- **The writes to a file land in the order in which they were accepted**, over all handles of the
mount and whoever flushes them, in the runs in which the flushes begin in order: from a state in
which every handle of the file was flushed to one in which they are again, the server's file becomes
what the writes accepted in between leave on it one after another. -/
theorem flushed_in_order (S : Setup) (hkernel : S.kernel.CreatesInDir) (fs : Fs) (epoch : UInt32)
    (root : Path) (perHandle total window : Nat) {c₀ c : Config Act Act.Ret World Tid}
    (h₀ : Reach (mountMachine S).step (Sequential S).Meets
      (Config.idle (.init S fs epoch root perHandle total window)) c₀)
    (h : Reach (mountMachine S).step (Sequential S).Meets c₀ c) {i : Ino}
    (hflushed₀ : ∀ fh, c₀.state.files.home fh = some i → c₀.state.buf.pool.tags fh = [])
    (hpos : c.state.Positioned i c₀.state.hist.log.length)
    (hflushed : ∀ fh, c.state.files.home fh = some i → c.state.buf.pool.tags fh = []) :
    c.state.host.fs.bytes i =
      applyAll (c₀.state.host.fs.bytes i) (c.state.extentsTo i c₀.state.buf.pool.next) := by
  obtain ⟨hreach₀, hreach⟩ := reach_serving_writers h₀ h
  -- no callback counts on the flush of a handle of another task
  have hfence : ∀ {w t a ch}, (Sequential S).run w t a ch → ∀ fh ∈ t.fences? a,
      w.During (fun _ => false) → w.Free fh := fun _ _ _ hd => absurd hd (by simp [World.During])
  obtain ⟨p, s, ht, -⟩ := mount_sound_from
    (ordering_keeps_serving id hfence id) (tracking_keeps hkernel id hfence id)
    (ordering_init S fs epoch root perHandle total window _) hreach₀
    (fun p s ho => tracking_of_flushed ho hflushed₀) hreach
  refine (ht.2.mirror hpos).behind.eq fun q hq => ?_
  obtain ⟨fh, hi, t, ht, -⟩ := hq
  rw [hflushed fh hi] at ht
  cases ht

/-- Nothing is buffered for a handle that the buffer does not list. -/
theorem tags_of_handles {S : Setup} {K : MountCond} {fs : Fs} {epoch : UInt32} {root : Path}
    {perHandle total window : Nat} {c : Config Act Act.Ret World Tid}
    (hstart : ∀ {w t job}, K.start w t job → promisedStart w t job)
    (h : Reach (mountMachine S).step K.Meets
      (Config.idle (.init S fs epoch root perHandle total window)) c)
    (hh : c.state.buf.pool.buf.handles = []) (fh : Fh) : c.state.buf.pool.tags fh = [] := by
  have hmounted : Keeps S K (fun _ _ _ => True) Mounted :=
    mounted_keeps.mono (fun _ => trivial) hstart (fun _ => trivial) id
  obtain ⟨p, s, hm, -⟩ := mount_sound hmounted (mounted_init S fs epoch root perHandle total window)
    h
  by_contra hne
  obtain ⟨t, ht⟩ := List.exists_mem_of_ne_nil _ hne
  have hmem := mem_handles hm.tasks.ordered.toTagged ht
  rw [hh] at hmem
  cases hmem

/-- `/a` is open twice, and both handles write the same byte. -/
def writeTwice : List MountLabel :=
  createA ++ called (.open 2 2) 5 ++ taken 1 8 ++ acts (.client .fuse) 5 ++
    called (.write 1 0 [5]) 5 ++
    called (.write 2 0 [6]) 5

/-- The handle is flushed with the RPC `n`. -/
def flushWith (fh : Fh) (n : Nat) : List MountLabel :=
  called (.flush fh) 8 ++ taken n 6 ++ acts (.client .fuse) 5

/-- Each handle is flushed after the ones that were written before it. -/
theorem flushed_in_order_of_two :
    ∃ c, Reach (mountMachine smallSetup).step (Sequential smallSetup).Meets
      (Config.idle smallMount) c ∧ c.state.host.fs.bytes 2 = [6] ∧
    c.state.host.fs.bytes 2 = applyAll (smallMount.host.fs.bytes 2) (c.state.extentsTo 2 0) := by
  obtain ⟨c, hreach, hpos, hhandles, hbytes⟩ := Reach.of_check (mountMachine smallSetup).step
    (Sequential smallSetup).Meets (Config.idle smallMount)
      (writeTwice ++ flushWith 1 2 ++ flushWith 2 3)
    (fun c => c.state.Positioned 2 0 ∧ c.state.buf.pool.buf.handles = [] ∧
      c.state.host.fs.bytes 2 = [6])
    (by decide +kernel)
  exact ⟨c, hreach, hbytes, flushed_in_order smallSetup linux_createsInDir _ _ _ _ _ _ .refl hreach
    (fun _ _ => rfl) hpos
    fun fh _ => tags_of_handles id hreach hhandles fh⟩

/-- **At every moment the server's file lags only where a write is buffered**, in these runs:
everywhere else it shows the newest of the writes accepted so far, whichever handles and flushes
they came by. -/
theorem behind_at_any_time (S : Setup) (hkernel : S.kernel.CreatesInDir) (fs : Fs) (epoch : UInt32)
    (root : Path) (perHandle total window : Nat) {c₀ c : Config Act Act.Ret World Tid}
    (h₀ : Reach (mountMachine S).step (Sequential S).Meets
      (Config.idle (.init S fs epoch root perHandle total window)) c₀)
    (h : Reach (mountMachine S).step (Sequential S).Meets c₀ c) {i : Ino}
    (hflushed₀ : ∀ fh, c₀.state.files.home fh = some i → c₀.state.buf.pool.tags fh = [])
    (hpos : c.state.Positioned i c₀.state.hist.log.length) :
    Behind (c₀.state.host.fs.bytes i) (c.state.extentsTo i c₀.state.buf.pool.next)
      (c.state.host.fs.bytes i)
      (c.state.Buffered i) := by
  obtain ⟨hreach₀, hreach⟩ := reach_serving_writers h₀ h
  have hfence : ∀ {w t a ch}, (Sequential S).run w t a ch → ∀ fh ∈ t.fences? a,
      w.During (fun _ => false) → w.Free fh := fun _ _ _ hd => absurd hd (by simp [World.During])
  obtain ⟨p, s, ht, -⟩ := mount_sound_from
    (ordering_keeps_serving id hfence id) (tracking_keeps hkernel id hfence id)
    (ordering_init S fs epoch root perHandle total window _) hreach₀
    (fun p s ho => tracking_of_flushed ho hflushed₀) hreach
  exact (ht.2.mirror hpos).behind

/-- One of two handles is flushed, and its write is not yet overwritten. -/
theorem behind_after_one : ∃ c, Reach (mountMachine smallSetup).step (Sequential smallSetup).Meets
      (Config.idle smallMount) c ∧ c.state.host.fs.bytes 2 = [5] ∧
    Behind (smallMount.host.fs.bytes 2) (c.state.extentsTo 2 0) (c.state.host.fs.bytes 2)
      (c.state.Buffered 2) := by
  obtain ⟨c, hreach, hpos, hbytes⟩ := Reach.of_check (mountMachine smallSetup).step
    (Sequential smallSetup).Meets (Config.idle smallMount) (writeTwice ++ flushWith 1 2)
    (fun c => c.state.Positioned 2 0 ∧ c.state.host.fs.bytes 2 = [5]) (by decide +kernel)
  exact ⟨c, hreach, hbytes, behind_at_any_time smallSetup linux_createsInDir _ _ _ _ _ _
    .refl hreach
    (fun _ _ => rfl) hpos⟩

/-- The handle that was written last is flushed first: the older write is what stays. -/
theorem older_flushed_last :
    ∃ c, Reach (mountMachine smallSetup).step promised.Meets (Config.idle smallMount) c ∧
    c.state.Positioned 2 0 ∧ (∀ fh, c.state.buf.pool.tags fh = []) ∧
    c.state.extentsTo 2 0 = [⟨0, [5]⟩, ⟨0, [6]⟩] ∧ c.state.host.fs.bytes 2 = [5] ∧
    c.state.host.fs.bytes 2 ≠ applyAll (smallMount.host.fs.bytes 2) (c.state.extentsTo 2 0) := by
  obtain ⟨c, hreach, hhandles, hpos, hrest⟩ := Reach.of_check (mountMachine smallSetup).step
    promised.Meets
    (Config.idle smallMount) (writeTwice ++ flushWith 2 2 ++ flushWith 1 3)
    (fun c => c.state.buf.pool.buf.handles = [] ∧ c.state.Positioned 2 0 ∧
      c.state.extentsTo 2 0 = [⟨0, [5]⟩, ⟨0, [6]⟩] ∧ c.state.host.fs.bytes 2 = [5] ∧
      c.state.host.fs.bytes 2 ≠ applyAll (smallMount.host.fs.bytes 2) (c.state.extentsTo 2 0))
    (by decide +kernel)
  exact ⟨c, hreach, hpos, tags_of_handles id hreach hhandles, hrest⟩

end QuicFs.System
