import QuicFs.System.Fences

/-!
# What the Writes of a flush carry

A Write RPC carries one run of the flush that it is sent for, cut into frames. `Sending` follows it
on its way: the frames that the server has written, the one in its hand and those it has not
received are the frames that were sent; the task that waits for the Write has its run in front of
those that are left; and a stream that has answered a Write writes nothing more.

`lossless_keeps` is about the runs in which only empty queues are dropped: there the chunks that
were acknowledged and those still buffered are the accepted ones, in order.
-/

namespace QuicFs.System

open Lib Client Server Function

def Rpc.frames (rpc : Rpc) : List WriteRequest :=
  match rpc.request with
  | .write _ first => first :: rpc.more
  | _ => []

def Rpc.run (rpc : Rpc) : UInt64 × Bytes :=
  ((rpc.frames.head?.map WriteRequest.offset).getD 0, payload rpc.frames)

/-- What a task has sent of its flush. -/
structure TaskSends (w : World) (a : Actor) (l : ClientPhase) : Prop where
  waits : ∀ {n fh rpc}, l.rpc = some (n, .write fh) → w.net.rpcs n = some rpc →
    (∃ runs, l.left = rpc.run :: runs) ∧
      ∃ f, w.buf.pool.flight a = some f ∧ f.handle = fh ∧ rpc.snapshot = f.snapshot
  left : ∀ {fh batch}, l.flight = some (fh, batch) → l.left <:+ batch.chunks

structure Sending (w : World) (p : Clients) (s : Streams) : Prop where
  task : ∀ a, TaskSends w a (p a)
  chained : ∀ {n rpc fh}, w.net.rpcs n = some rpc → rpc.purpose = .write fh →
    Chained rpc.run.1 rpc.frames
  inbox : ∀ {n rpc}, w.net.rpcs n = some rpc → rpc.accepted = false → w.host.inbox n = rpc.more
  stream : ∀ {n l rpc fh}, s n = some l → w.net.rpcs n = some rpc → rpc.purpose = .write fh →
    l.failed = false → l.wrote ++ l.frame.toList ++ w.host.inbox n = rpc.frames
  failed : ∀ {n l}, s n = some l → l.failed = true → l.frame = none
  taken : ∀ {n rpc}, w.net.rpcs n = some rpc → rpc.taken ≠ 0 → ∃ r, (n, r) ∈ w.host.replies
  replied : ∀ {n l r}, s n = some l → (n, r) ∈ w.host.replies → r.op ≠ .read → l.replied = true

section
variable {S : Setup} {a b : Actor} {w w' : World} {l l' : ClientPhase} {p : Clients} {s : Streams}
    {ch : Chance}
  {n : Nat} {rpc rpc' : Rpc} {fh : Fh}

theorem Rpc.Same.frames (h : rpc.Same rpc') : rpc'.frames = rpc.frames := by
  unfold Rpc.frames
  rw [h.request, h.more]

theorem Rpc.Same.run (h : rpc.Same rpc') : rpc'.run = rpc.run := by
  unfold Rpc.run
  rw [h.frames]

/-! ## Frames -/

theorem eq_nil_of_done {o : UInt64} {ws rest : List WriteRequest} {x : WriteRequest}
    (h : Chained o (ws ++ rest)) (hx : ws.getLast? = some x) (hdone : x.done = true) :
    rest = [] := by
  induction ws generalizing o with
  | nil => cases hx
  | cons y ws ih =>
    obtain ⟨-, hy, hrest⟩ := h
    cases ws with
    | nil =>
      obtain rfl : y = x := Option.some.inj hx
      exact List.isEmpty_iff.mp (hy.symm.trans hdone)
    | cons z ws => exact ih hrest hx

theorem Sending.wrote {l : StreamPhase} {r : Response} (h : Sending w p s) (hn : s n = some l)
    (hrpc : w.net.rpcs n = some rpc) (hp : rpc.purpose = .write fh) (hr : l.MayReply r)
    (hop : r.op = .write) (hok : r.status = .ok) : l.wrote = rpc.frames := by
  obtain ⟨hfailed, hframe, x, hx, hdone⟩ := hr.2.1 hop hok
  have hframes := h.stream hn hrpc hp hfailed
  rw [hframe, Option.toList_none, List.append_nil] at hframes
  have hnil := eq_nil_of_done (hframes ▸ h.chained hrpc hp) hx hdone
  rw [← hframes, hnil, List.append_nil]

/-- A Write whose frames are being written is waited for, unless it was given up. -/
theorem Sending.awaited {l : StreamPhase} (h : Sending w p s) (hm : Mounted w p s)
    (hn : s n = some l) (hrpc : w.net.rpcs n = some rpc) (hp : rpc.purpose = .write fh)
    (hr : l.replied = false) (hg : rpc.givenUp = false) : ∃ a, (p a).rpc = some (n, .write fh) := by
  refine hm.rpcs.awaited hrpc hp hg ?_
  by_contra htaken
  obtain ⟨r, hreply⟩ := h.taken hrpc htaken
  obtain ⟨rpc', hrpc', -, hop⟩ := hm.rpcs.replies hreply
  obtain rfl : rpc' = rpc := Option.some.inj (hrpc'.symm.trans hrpc)
  have hformed := hm.rpcs.formed hrpc
  unfold Rpc.Formed at hformed
  rw [hp] at hformed
  obtain ⟨seq, first, e⟩ := hformed
  have := h.replied hn hreply (by rw [← hop, e]; nofun)
  rw [hr] at this
  cases this

/-! ## The tasks -/

theorem TaskSends.frame (h : TaskSends w a l) (hr : w'.net.rpcs = w.net.rpcs)
    (hf : w'.buf.pool.flight a = w.buf.pool.flight a) (hrpc : l'.rpc = l.rpc)
    (hl : l'.left = l.left) (hfl : l'.flight = l.flight) : TaskSends w' a l' where
  waits hn hm := by
    rw [hrpc] at hn
    rw [hr] at hm
    rw [hl, hf]
    exact h.waits hn hm
  left hb := by
    rw [hfl] at hb
    rw [hl]
    exact h.left hb

theorem Sending.update (h : Sending w p s) (hn : w'.net = w.net) (hh : w'.host = w.host)
    (hf : ∀ b, b ≠ a → w'.buf.pool.flight b = w.buf.pool.flight b) (ht : TaskSends w' a l') :
    Sending w' (Function.update p a l') s where
  task := (Function.forall_update_iff p _).mpr
    ⟨ht, fun b hb => (h.task b).frame (by rw [hn]) (hf b hb) rfl rfl rfl⟩
  chained := by rw [hn]; exact h.chained
  inbox := by rw [hn, hh]; exact h.inbox
  stream := by rw [hn, hh]; exact h.stream
  failed := h.failed
  taken := by rw [hn, hh]; exact h.taken
  replied := by rw [hh]; exact h.replied

theorem Sending.frame (h : Sending w p s) (hn : w'.net = w.net) (hh : w'.host = w.host)
    (hb : w'.buf.pool = w.buf.pool) (hrpc : l'.rpc = (p a).rpc) (hl : l'.left = (p a).left)
    (hfl : l'.flight = (p a).flight) : Sending w' (Function.update p a l') s :=
  h.update hn hh (fun _ _ => by rw [hb]) ((h.task a).frame (by rw [hn]) (by rw [hb]) hrpc hl hfl)

theorem taskSends_buf {op : BufAct} {r : op.Ret} {x : Buf} (h : TaskSends w a l)
    (hpre : bufProtocol.pre l op) (hx : op.exec a w.now ch.iter w.buf = some (r, x)) :
    TaskSends { w with buf := x } a (bufProtocol.next l op r) := by
  cases op with
  | push fh offset data =>
    obtain ⟨-, rfl⟩ := Prod.mk.inj (Option.some.inj hx)
    exact h.frame rfl (congrFun (Pool.flight_push ..) a) rfl rfl rfl
  | beginFlush fh =>
    refine ⟨fun hn => ?_, fun {fh' batch} hb => ?_⟩
    · rw [(buf_next_rpc (.beginFlush fh) r).1, hpre.2] at hn
      cases hn
    · change (l.begun fh r).flight = some (fh', batch) at hb
      change (l.begun fh r).left <:+ _
      change Option FlushBatch at r
      cases r with
      | none => exact h.left hb
      | some batch' =>
        obtain ⟨-, rfl⟩ := Prod.mk.inj (Option.some.inj hb)
        exact List.suffix_rfl
  | ackFlush fh k | failFlush fh =>
    refine ⟨fun hn => ?_, nofun⟩
    have hn : l.rpc = some _ := hn
    rw [hpre.1] at hn
    cases hn
  | dropHandle fh =>
    refine ⟨fun hn => ?_, nofun⟩
    have hn : l.rpc = some _ := hn
    rw [hpre.2.1] at hn
    cases hn
  | hasBuffered fh =>
    obtain rfl := exec_look hx trivial
    change TaskSends w a (l.looked fh r)
    unfold ClientPhase.looked
    split <;> exact h.frame rfl rfl rfl rfl rfl
  | totalBytes =>
    obtain rfl := exec_look hx trivial
    change TaskSends w a (l.counted r)
    unfold ClientPhase.counted
    split <;> exact h.frame rfl rfl rfl rfl rfl
  | handles | olderThan | expiredHandles =>
    obtain rfl := exec_look hx trivial
    exact h.frame rfl rfl rfl rfl rfl
  | stickyInsert fh | stickyRemove fh =>
    obtain ⟨-, rfl⟩ := Prod.mk.inj (Option.some.inj hx)
    exact h.frame rfl rfl rfl rfl rfl

theorem sending_buf {op : BufAct} {r : op.Ret} (h : Sending w p s) (hpre : bufProtocol.pre (p a) op)
    (he : World.exec S (.client a) (.buf op) ch w = some (r, w')) :
    Sending w' (update p a (bufProtocol.next (p a) op r)) s := by
  obtain ⟨x, hx, rfl⟩ := exec_buf he
  exact h.update rfl rfl (fun b hb => (exec_buf_other hb hx).1) (taskSends_buf (h.task a) hpre hx)

theorem files_next_left {chunkSize : UInt32} (op : FileAct) (r : op.Ret) :
    ((clientProtocol chunkSize).next l (.files op) r).left = l.left := by
  cases op with
  | get fh => change (l.found fh r).left = _; cases r <;> rfl
  | _ => rfl

/-! ## The network -/

/-- The run of a Write is the one it was sent for. -/
theorem run_of_maySend {session : Nat} {request : Request} {more : List WriteRequest}
    (hm : l.MaySend S.chunkSize request more (.write fh)) :
    (∃ runs, l.left = (w.newRpc a session request more (.write fh)).run :: runs) ∧
      (∃ batch, l.flight = some (fh, batch)) ∧
      Chained (w.newRpc a session request more (.write fh)).run.1
      (w.newRpc a session request more (.write fh)).frames := by
  obtain ⟨seq, first, handle, offset, data, runs, batch, rfl, hframes, -, hleft, hflight⟩ := hm
  have hchained := writeFrames_chained S.chunkSize handle offset data
  have hpayload := payload_writeFrames S.chunkSize handle offset data
  rw [← hframes] at hchained hpayload
  have hrun : (w.newRpc a session (.write seq first) more (.write fh)).run = (offset, data) :=
    Prod.ext hchained.1 hpayload
  refine ⟨⟨runs, by rw [hrun]; exact hleft⟩, ⟨batch, hflight⟩, ?_⟩
  rw [hrun]
  exact hchained

theorem post_same (hm : Mounted w p s) {more : List WriteRequest} {m : Nat} {x : Rpc}
    (hx : (w.post rpc more).net.rpcs m = some x) :
    (m = w.net.nextRpc ∧ x = rpc) ∨
      (m < w.net.nextRpc ∧ w.net.rpcs m = some x ∧
        (w.post rpc more).host.inbox m = w.host.inbox m) := by
  rcases post_cases hx with h | hx
  · exact .inl h
  · have hlt := hm.rpcs.lt hx
    exact .inr ⟨hlt, hx, update_of_ne (Nat.ne_of_lt hlt) ..⟩

theorem sending_send {session : Nat} {request : Request} {more : List WriteRequest}
    {purpose : Purpose} (h : Sending w p s) (hm : Mounted w p s) (hl : (p a).rpc = none)
    (hsend : (p a).MaySend S.chunkSize request more purpose) :
    Sending (w.post (w.newRpc a session request more purpose) more)
      (update p a ((p a).sent purpose (some w.net.nextRpc))) s := by
  have hflight : ((p a).sent purpose (some w.net.nextRpc)).flight = (p a).flight :=
    (sent_sameTask ..).flight
  have hleft : ((p a).sent purpose (some w.net.nextRpc)).left = (p a).left := by
    unfold ClientPhase.sent
    split <;> rfl
  have hnew : (w.post (w.newRpc a session request more purpose) more).net.rpcs w.net.nextRpc =
      some (w.newRpc a session request more purpose) := update_self ..
  have hstream : ∀ {m l}, s m = some l → m ≠ w.net.nextRpc := by
    intro m l hs
    obtain ⟨x, hx, -⟩ := hm.rpcs.stream hs
    exact Nat.ne_of_lt (hm.rpcs.lt hx)
  refine ⟨(forall_update_iff p _).mpr ⟨⟨fun {m k x} hr hx => ?_, fun hb => ?_⟩, fun b _ => ?_⟩,
    fun {m x k} hx hp => ?_, fun {m x} hx hacc => ?_, fun {m l x k} hs hx hp hf => ?_, h.failed,
    fun {m x} hx ht => ?_, h.replied⟩
  · -- the sender waits for the new RPC
    have hpurpose : (m, Purpose.write k) = (w.net.nextRpc, purpose) := by
      cases purpose with
      | read => cases hl.symm.trans hr
      | _ => exact (Option.some.inj hr).symm
    obtain ⟨rfl, rfl⟩ := Prod.mk.inj hpurpose
    obtain rfl := Option.some.inj (hnew.symm.trans hx)
    obtain ⟨hruns, ⟨batch, hbatch⟩, -⟩ := run_of_maySend (w := w) (a := a) hsend
    rw [hleft]
    obtain ⟨f, hf, hh, -⟩ := (hm.tasks.task a).flight_eq hbatch
    refine ⟨hruns, f, hf, hh, ?_⟩
    change ((w.buf.pool.flight a).map Flight.snapshot).getD [] = f.snapshot
    rw [hf]
    rfl
  · rw [hleft]
    exact (h.task a).left (hflight ▸ hb)
  · refine ⟨fun {m k x} hr hx => ?_, (h.task b).left⟩
    obtain ⟨-, y, hy, -⟩ := (hm.rpcs.task b).rpc hr
    rcases post_same hm hx with ⟨rfl, -⟩ | ⟨-, hx, -⟩
    · exact absurd (hm.rpcs.lt hy) (Nat.lt_irrefl _)
    · exact (h.task b).waits hr hx
  · rcases post_same hm hx with ⟨-, rfl⟩ | ⟨-, hx, -⟩
    · obtain rfl : purpose = .write k := hp
      exact (run_of_maySend hsend).2.2
    · exact h.chained hx hp
  · rcases post_same hm hx with ⟨rfl, rfl⟩ | ⟨-, hx, hin⟩
    · exact update_self ..
    · exact hin.trans (h.inbox hx hacc)
  · rcases post_same hm hx with ⟨rfl, -⟩ | ⟨-, hx, hin⟩
    · exact absurd rfl (hstream hs)
    · rw [hin]
      exact h.stream hs hx hp hf
  · rcases post_same hm hx with ⟨-, rfl⟩ | ⟨-, hx, -⟩
    · exact absurd rfl ht
    · exact h.taken hx ht

theorem Sending.setRpc (h : Sending w p s) (hn : w.net.rpcs n = some rpc) (hs : rpc.Same rpc')
    (hacc : rpc'.accepted = false → rpc.accepted = false)
    (htaken : rpc'.taken ≠ 0 → rpc.taken ≠ 0 ∨ ∃ r, (n, r) ∈ w.host.replies)
    (ht : ∀ b, b ≠ a → TaskSends (w.setRpc n rpc') b (p b))
    (ht' : TaskSends (w.setRpc n rpc') a l') :
    Sending (w.setRpc n rpc') (Function.update p a l') s where
  task := (forall_update_iff p _).mpr ⟨ht', ht⟩
  chained {m x k} hx hp := by
    rcases setRpc_cases hx with ⟨rfl, rfl⟩ | ⟨-, hx⟩
    · rw [hs.run, hs.frames]
      exact h.chained hn (hs.purpose ▸ hp)
    · exact h.chained hx hp
  inbox {m x} hx ha := by
    rcases setRpc_cases hx with ⟨rfl, rfl⟩ | ⟨-, hx⟩
    · rw [hs.more]
      exact h.inbox hn (hacc ha)
    · exact h.inbox hx ha
  stream {m l x k} hl hx hp hf := by
    rcases setRpc_cases hx with ⟨rfl, rfl⟩ | ⟨-, hx⟩
    · rw [hs.frames]
      exact h.stream hl hn (hs.purpose ▸ hp) hf
    · exact h.stream hl hx hp hf
  failed := h.failed
  taken {m x} hx hne := by
    rcases setRpc_cases hx with ⟨rfl, rfl⟩ | ⟨-, hx⟩
    · exact (htaken hne).elim (fun hne => h.taken hn hne) id
    · exact h.taken hx hne
  replied := h.replied

theorem taskSends_setRpc (h : TaskSends w b l) (hn : w.net.rpcs n = some rpc) (hs : rpc.Same rpc') :
    TaskSends (w.setRpc n rpc') b l where
  waits {m k x} hr hx := by
    rcases setRpc_cases hx with ⟨rfl, rfl⟩ | ⟨-, hx⟩
    · rw [hs.run, hs.snapshot]
      exact h.waits hr hn
    · exact h.waits hr hx
  left := h.left

theorem received_left (r : Option Response) : (l.received r).left <:+ l.left := by
  unfold ClientPhase.received
  split <;> try exact List.suffix_rfl
  · split <;> exact List.suffix_rfl
  · dsimp only
    split
    · exact List.tail_suffix _
    · exact List.suffix_rfl

theorem sending_await {r : Option Response} (h : Sending w p s)
    (he : World.exec S (.client a) (.net (.await n)) ch w = some (r, w')) :
    Sending w' (update p a ((p a).received r)) s := by
  have htask : TaskSends w a ((p a).received r) := by
    refine ⟨fun hr => ?_, fun hb => ?_⟩
    · rw [received_rpc] at hr
      cases hr
    · exact (received_left r).trans ((h.task a).left ((received_sameTask r).flight ▸ hb))
  obtain ⟨rpc, hn, ⟨-, rfl⟩ | ⟨resp, -, hresp, rfl⟩⟩ := exec_await he
  · have hs : rpc.Same { rpc with givenUp := true } := ⟨rfl, rfl, rfl, rfl, rfl, rfl⟩
    exact h.setRpc hn hs id .inl (fun b _ => taskSends_setRpc (h.task b) hn hs)
      (taskSends_setRpc htask hn hs)
  · have hs : rpc.Same { rpc with taken := rpc.taken + 1 } := ⟨rfl, rfl, rfl, rfl, rfl, rfl⟩
    exact h.setRpc hn hs id (fun _ => .inr ⟨resp, mem_replies_of_answersOf hresp⟩)
      (fun b _ => taskSends_setRpc (h.task b) hn hs) (taskSends_setRpc htask hn hs)

theorem sending_net {op : NetAct} {r : op.Ret} (h : Sending w p s) (hm : Mounted w p s)
    (hpre : (netProtocol S.chunkSize).pre (p a) op)
    (he : World.exec S (.client a) (.net op) ch w = some (r, w')) :
    Sending w' (update p a ((netProtocol S.chunkSize).next (p a) op r)) s := by
  have hframe := exec_net_frame he
  have hquiet : op.Quiet → Sending w' (update p a (p a)) s := by
    intro ho
    obtain ⟨hrpcs, -, hin⟩ := exec_net_quiet he ho
    rw [update_eq_self]
    exact ⟨fun b => (h.task b).frame hrpcs (by rw [hframe.buf]) rfl rfl rfl,
      by rw [hrpcs]; exact h.chained,
      by rw [hrpcs, hin]; exact h.inbox, by rw [hrpcs, hin]; exact h.stream, h.failed,
      by rw [hrpcs, hframe.replies]; exact h.taken, by rw [hframe.replies]; exact h.replied⟩
  cases op with
  | send session request more purpose =>
    rcases exec_send he with ⟨rfl, rfl⟩ | ⟨rfl, rfl⟩
    · exact h.frame rfl rfl rfl rfl rfl rfl
    · exact sending_send h hm hpre.1 hpre.2
  | await n => exact sending_await h he
  | _ => exact hquiet trivial

/-! ## The streams -/

theorem sending_accept {q : Incoming} (h : Sending w p s) (hm : Mounted w p s)
    (he : World.exec S (.stream n) .accept ch w = some (q, w')) :
    Sending w' p (update s n (some (.start q.session q.request))) := by
  obtain ⟨rpc, hn, hacc, rfl, rfl⟩ := exec_accept he
  have hs : rpc.Same { rpc with accepted := true } := ⟨rfl, rfl, rfl, rfl, rfl, rfl⟩
  have hset : Sending (w.setRpc n { rpc with accepted := true }) (update p .fuse (p .fuse)) s :=
    h.setRpc hn hs nofun .inl (fun b _ => taskSends_setRpc (h.task b) hn hs)
      (taskSends_setRpc (h.task .fuse) hn hs)
  rw [update_eq_self] at hset
  refine { hset with stream := fun {m l x k} hl hx hp hf => ?_, failed := fun {m l} hl hf => ?_,
                     replied := fun {m l r} hl hr hop => ?_ }
  · by_cases e : m = n
    · subst e
      rw [update_self] at hl
      obtain rfl := Option.some.inj hl
      obtain rfl : x = { rpc with accepted := true } := by
        rcases setRpc_cases hx with ⟨-, hx⟩ | ⟨hne, -⟩
        · exact hx
        · exact absurd rfl hne
      have hformed := hm.rpcs.formed hn
      unfold Rpc.Formed at hformed
      rw [show rpc.purpose = .write k from hp] at hformed
      obtain ⟨seq, first, hreq⟩ := hformed
      change (StreamPhase.start rpc.session rpc.request).wrote ++ _ ++ w.host.inbox m = _
      rw [h.inbox hn hacc]
      simp [StreamPhase.start, Rpc.frames, hreq]
    · rw [update_of_ne e] at hl
      exact hset.stream hl hx hp hf
  · by_cases e : m = n
    · subst e
      rw [update_self] at hl
      obtain rfl := Option.some.inj hl
      cases hf
    · rw [update_of_ne e] at hl
      exact h.failed hl hf
  · by_cases e : m = n
    · subst e
      -- an RPC that was not taken up was not answered
      obtain ⟨x, hx, hxa, -⟩ := hm.rpcs.replies hr
      rw [hn] at hx
      obtain rfl := Option.some.inj hx
      rw [hacc] at hxa
      cases hxa
    · rw [update_of_ne e] at hl
      exact h.replied hl hr hop

/-- The frames of a stream after a call of its own. -/
theorem stream_frames {act : Sys} {r : act.Ret} {c : Choice} {l : StreamPhase} {host : Host}
    (he : act.exec S.kernel S.ex n c w.host = some (r, host)) (hpre : streamProtocol.pre l act)
    (hf : (streamProtocol.next l act r).failed = false)
    (h : l.failed = false → l.wrote ++ l.frame.toList ++ w.host.inbox n = rpc.frames) :
    (streamProtocol.next l act r).wrote ++ (streamProtocol.next l act r).frame.toList ++
    host.inbox n =
      rpc.frames := by
  have hsame : host.inbox = w.host.inbox → ∀ l' : StreamPhase, l'.failed = l.failed →
      l'.wrote = l.wrote →
      l'.frame = l.frame → l'.failed = false →
        l'.wrote ++ l'.frame.toList ++ host.inbox n = rpc.frames := by
    intro hin l' e1 e2 e3 hf
    rw [hin, e2, e3]
    exact h (e1 ▸ hf)
  have hin : act ≠ .recvFrame → host.inbox = w.host.inbox := by
    intro hne
    rcases exec_inbox he with hin | ⟨x, xs, e, -⟩
    · exact hin
    · exact absurd e hne
  cases act with
  | recvFrame =>
    obtain ⟨hframe, hfailed⟩ := hpre
    have hold := h hfailed
    rw [hframe, Option.toList_none, List.append_nil] at hold
    change Option WriteRequest at r
    change l.wrote ++ r.toList ++ host.inbox n = _
    simp only [Sys.exec] at he
    split at he
    · cases he
      simpa using hold
    · split at he
      · cases he
      · next x xs hx =>
        cases he
        rw [hx] at hold
        simpa using hold
  | writeAt f offset data append =>
    have hin := hin (by simp)
    change Option IoErrorKind at r
    cases r with
    | none =>
      change l.wrote ++ l.frame.toList ++ [] ++ host.inbox n = _
      rw [hin, List.append_nil]
      exact h hf
    | some e => cases hf
  | openat2 | openPlain =>
    change Except Errno Ino at r
    cases r <;> exact hsame (hin (by simp)) _ rfl rfl rfl hf
  | _ => exact hsame (hin (by simp)) _ rfl rfl rfl hf

theorem replied_next {act : Sys} {r : act.Ret} {l : StreamPhase} (hne : ∀ x, act ≠ .reply x) :
    (streamProtocol.next l act r).replied = l.replied := by
  cases act with
  | openat2 | openPlain => change Except Errno Ino at r; cases r <;> rfl
  | writeAt => change Option IoErrorKind at r; cases r <;> rfl
  | reply x => exact absurd rfl (hne x)
  | _ => rfl

theorem failed_next {act : Sys} {r : act.Ret} {l : StreamPhase} (hpre : streamProtocol.pre l act)
    (h : l.failed = true → l.frame = none) (hf : (streamProtocol.next l act r).failed = true) :
    (streamProtocol.next l act r).frame = none := by
  cases act with
  | openat2 | openPlain => change Except Errno Ino at r; cases r <;> exact h hf
  | writeAt => change Option IoErrorKind at r; cases r <;> rfl
  | recvFrame => cases hpre.2.symm.trans hf
  | _ => exact h hf

theorem sending_sys {act : Sys} {r : act.Ret} {l : StreamPhase} (h : Sending w p s)
    (hm : Mounted w p s) (hn : s n = some l) (hpre : streamProtocol.pre l act)
    (he : World.exec S (.stream n) (.sys act) ch w = some (r, w')) :
    Sending w' p (update s n (some (streamProtocol.next l act r))) := by
  obtain ⟨host, hex, rfl⟩ := exec_sys he
  obtain ⟨rpc, hrpc, hacc, -⟩ := hm.rpcs.stream hn
  have hother : ∀ {m}, m ≠ n → host.inbox m = w.host.inbox m := by
    intro m hne
    rcases exec_inbox hex with hin | ⟨_, _, -, -, hin, -⟩
    · rw [hin]
    · rw [hin, update_of_ne hne]
  have hold : ∀ {x}, x ∈ w.host.replies → x ∈ host.replies := by
    intro x hx
    rcases exec_replies hex with hr | ⟨resp, -, hr⟩
    · exact hr ▸ hx
    · rw [hr]
      exact List.mem_append_left _ hx
  refine ⟨fun a => (h.task a).frame rfl rfl rfl rfl rfl, h.chained, fun {m x} hx hxa => ?_,
    fun {m l' x k} hl hx hp hf => ?_, fun {m l'} hl hf => ?_, fun hx ht => (h.taken hx ht).imp
      fun _ => hold, fun {m l' resp} hl hr hop => ?_⟩
  · have hne : m ≠ n := by
      rintro rfl
      obtain rfl := Option.some.inj (hrpc.symm.trans hx)
      cases hacc.symm.trans hxa
    exact (hother hne).trans (h.inbox hx hxa)
  · by_cases e : m = n
    · subst e
      rw [update_self] at hl
      obtain rfl := Option.some.inj hl
      exact stream_frames hex hpre hf fun hf => h.stream hn hx hp hf
    · rw [update_of_ne e] at hl
      change l'.wrote ++ l'.frame.toList ++ host.inbox m = _
      rw [hother e]
      exact h.stream hl hx hp hf
  · by_cases e : m = n
    · subst e
      rw [update_self] at hl
      obtain rfl := Option.some.inj hl
      exact failed_next hpre (h.failed hn) hf
    · rw [update_of_ne e] at hl
      exact h.failed hl hf
  · by_cases e : m = n
    · subst e
      rw [update_self] at hl
      obtain rfl := Option.some.inj hl
      rcases exec_replies hex with heq | ⟨x, rfl, heq⟩
      · have hnot : ∀ x, act ≠ .reply x := by
          rintro x rfl
          obtain ⟨-, rfl⟩ := Prod.mk.inj (Option.some.inj hex)
          simp at heq
        rw [replied_next hnot]
        exact h.replied hn (heq ▸ hr) hop
      · have hr : (m, resp) ∈ host.replies := hr
        rw [heq] at hr
        change (!(x.op = .read && x.status = .ok && !x.eof)) = true
        have hread : x.op ≠ .read := by
          rcases List.mem_append.mp hr with hr | hr
          · -- the stream had answered before, and would not have answered again
            have := h.replied hn hr hop
            rw [hpre.1] at this
            cases this
          · obtain ⟨-, rfl⟩ := Prod.mk.inj (List.mem_singleton.mp hr)
            exact hop
        simp [hread]
    · rw [update_of_ne e] at hl
      refine h.replied hl ?_ hop
      have hr : (m, resp) ∈ host.replies := hr
      rcases exec_replies hex with heq | ⟨x, -, heq⟩
      · exact heq ▸ hr
      · rw [heq] at hr
        rcases List.mem_append.mp hr with hr | hr
        · exact hr
        · exact absurd (Prod.mk.inj (List.mem_singleton.mp hr)).1 e

theorem sending_keeps : Keeps S promised Mounted Sending where
  client {a act ch r w w' p s} hm h hpre _ he := by
    cases act with
    | buf op => exact sending_buf h hpre he
    | files op =>
      obtain ⟨f, -, rfl⟩ := exec_files he
      exact h.frame rfl rfl rfl (files_next_rpc op r).1 (files_next_left op r)
        (files_sameTask op r).flight
    | net op => exact sending_net h hm hpre he
    | paths op =>
      obtain ⟨t, rfl⟩ := exec_paths he
      exact h.frame rfl rfl rfl rfl rfl rfl
    | cache op =>
      obtain rfl := exec_cache he
      exact h.frame rfl rfl rfl rfl rfl rfl
    | dev op =>
      cases op with
      | recv cb =>
        obtain rfl := exec_recv he
        exact h.frame rfl rfl rfl rfl rfl rfl
      | reply x =>
        obtain rfl := exec_reply he
        exact h.frame rfl rfl (replied_pool ..) rfl rfl rfl
    | accept | sys => exact hpre.elim
  accept hm h _ _ he := sending_accept h hm he
  sys hm h hn hpre _ he := sending_sys h hm hn hpre he
  task {a job w p s} _ h _ _ := by
    refine h.update rfl rfl (fun _ _ => rfl) ⟨fun hr => ?_, fun hf => ?_⟩
    · cases a <;> cases job <;> cases hr
    · cases a <;> cases job <;> cases hf
  stream {n job w p s} _ h _ := by
    have hold : ∀ {m l}, update s n none m = some l → s m = some l := by
      intro m l hl
      rw [update_apply] at hl
      split at hl
      · cases hl
      · exact hl
    exact { h with stream := fun hl => h.stream (hold hl), failed := fun hl => h.failed (hold hl),
                    replied := fun hl => h.replied (hold hl) }
  env {e w p s} _ h _ := by
    cases e <;>
      exact ⟨fun b => (h.task b).frame rfl rfl rfl rfl rfl, h.chained, h.inbox, h.stream, h.failed,
        h.taken, h.replied⟩

end

def Tid.drops? : Tid → Act → Option Fh
  | .client _, .buf (.dropHandle fh) => some fh
  | _, _ => none

section
variable {S : Setup} {a : Actor} {w w' : World} {p : Clients} {s : Streams} {ch : Chance}

theorem lossless_buf {op : BufAct} {r : op.Ret} (h : w.buf.pool.Lossless) (hm : Mounted w p s)
    (hpre : bufProtocol.pre (p a) op) (hK : ∀ fh, op = .dropHandle fh → w.buf.pool.tags fh = [])
    (he : World.exec S (.client a) (.buf op) ch w = some (r, w')) : w'.buf.pool.Lossless := by
  obtain ⟨x, hx, rfl⟩ := exec_buf he
  cases op with
  | push fh offset data =>
    obtain ⟨-, rfl⟩ := Prod.mk.inj (Option.some.inj hx)
    exact Pool.lossless_push h
  | beginFlush fh =>
    obtain ⟨-, rfl⟩ := Prod.mk.inj (Option.some.inj hx)
    exact Pool.lossless_beginFlush h
  | ackFlush fh n =>
    obtain ⟨-, batch, hl, hn, -⟩ := hpre
    obtain ⟨f, hf, rfl, rfl⟩ := (hm.tasks.task a).flight_eq hl
    obtain rfl := exec_ackFlush hf hn hx
    exact Pool.lossless_ackFlush h hf
  | failFlush fh =>
    obtain ⟨-, batch, hl⟩ := hpre
    obtain ⟨f, hf, rfl, rfl⟩ := (hm.tasks.task a).flight_eq hl
    obtain rfl := exec_failFlush hx
    exact Pool.lossless_failFlush h hf
  | dropHandle fh =>
    obtain ⟨-, rfl⟩ := Prod.mk.inj (Option.some.inj hx)
    exact Pool.lossless_dropHandle h (hK fh rfl)
  | stickyInsert | stickyRemove =>
    obtain ⟨-, rfl⟩ := Prod.mk.inj (Option.some.inj hx)
    exact h
  | _ =>
    obtain rfl := exec_look hx trivial
    exact h

/-- The queues lose nothing in the runs in which only empty ones are dropped. -/
theorem lossless_keeps {K : MountCond}
    (hK : ∀ {w t a ch}, K.run w t a ch → ∀ fh ∈ t.drops? a, w.buf.pool.tags fh = []) :
    Keeps S K Mounted fun w _ _ => w.buf.pool.Lossless where
  client {a act ch r w w' p s} hm h hpre hrun he := by
    cases act with
    | buf op =>
      refine lossless_buf h hm hpre (fun fh hop => ?_) he
      subst hop
      exact hK hrun fh rfl
    | files op =>
      obtain ⟨f, -, rfl⟩ := exec_files he
      exact h
    | paths op =>
      obtain ⟨t, rfl⟩ := exec_paths he
      exact h
    | cache op =>
      obtain rfl := exec_cache he
      exact h
    | net op =>
      rw [(exec_net_frame he).buf]
      exact h
    | dev op =>
      cases op with
      | recv cb =>
        obtain rfl := exec_recv he
        exact h
      | reply x =>
        obtain rfl := exec_reply he
        rw [replied_pool]
        exact h
    | accept | sys => exact hpre.elim
  accept _ h _ _ he := by
    obtain ⟨rpc, -, -, -, rfl⟩ := exec_accept he
    exact h
  sys _ h _ _ _ he := by
    obtain ⟨host, -, rfl⟩ := exec_sys he
    exact h
  task _ h _ _ := h
  stream _ h _ := h
  env {e _ _ _} _ h _ := by
    cases e <;> exact h

end

theorem sending_init (S : Setup) (fs : Fs) (epoch : UInt32) (root : Path)
    (perHandle total window : Nat) :
    Sending (.init S fs epoch root perHandle total window) (fun _ => {}) fun _ => none where
  task _ := ⟨nofun, nofun⟩
  chained h := by cases h
  inbox h := by cases h
  stream h := by cases h
  failed h := by cases h
  taken h := by cases h
  replied h := by cases h

end QuicFs.System
