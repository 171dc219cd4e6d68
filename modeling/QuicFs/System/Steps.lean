import QuicFs.System.Rule

/-!
# What one step of a mount does

Inversion of `World.exec` for each kind of act, and what the acts leave alone: a step on the
open files, the paths or the network does not touch the write buffer, and leaves what the
task knows about its flush and its callback as it was (`ClientPhase.SameTask`).
-/

namespace QuicFs.System

open Lib Client Server

section
variable {S : Setup} {a : Actor} {n : Nat} {ch : Chance} {w w' : World}

theorem exec_buf {op : BufAct} {r : op.Ret}
    (he : World.exec S (.client a) (.buf op) ch w = some (r, w')) :
    ∃ b, op.exec a w.now ch.iter w.buf = some (r, b) ∧ w' = { w with buf := b } := by
  obtain ⟨⟨r', b⟩, h, e⟩ := Option.map_eq_some_iff.mp he
  obtain ⟨rfl, rfl⟩ := Prod.mk.inj e
  exact ⟨b, h, rfl⟩

theorem exec_files {op : FileAct} {r : op.Ret}
    (he : World.exec S (.client a) (.files op) ch w = some (r, w')) :
    ∃ f, op.exec w.host.fs w.files = (r, f) ∧ w' = { w with files := f } := by
  obtain ⟨rfl, rfl⟩ := Prod.mk.inj (Option.some.inj he)
  exact ⟨_, rfl, rfl⟩

theorem exec_paths {op : PathAct} {r : op.Ret}
    (he : World.exec S (.client a) (.paths op) ch w = some (r, w')) :
    ∃ t, w' = { w with inodes := t } := by
  obtain ⟨-, rfl⟩ := Prod.mk.inj (Option.some.inj he)
  exact ⟨_, rfl⟩

theorem exec_cache {op : CacheAct} {r : op.Ret}
    (he : World.exec S (.client a) (.cache op) ch w = some (r, w')) : w' = w := by
  obtain ⟨-, rfl⟩ := Prod.mk.inj (Option.some.inj he)
  rfl

theorem exec_recv {cb : Callback} {r : Unit}
    (he : World.exec S (.client a) (.dev (.recv cb)) ch w = some (r, w')) :
    w' = { w with call := some ⟨cb, w.buf.pool.next⟩ } := by
  obtain ⟨-, rfl⟩ := Prod.mk.inj (Option.some.inj he)
  rfl

theorem exec_reply {x : Answer} {r : Unit}
    (he : World.exec S (.client a) (.dev (.reply x)) ch w = some (r, w')) : w' = w.replied x := by
  obtain ⟨-, rfl⟩ := Prod.mk.inj (Option.some.inj he)
  rfl

theorem exec_accept {q : Incoming} (he : World.exec S (.stream n) .accept ch w = some (q, w')) :
    ∃ rpc, w.net.rpcs n = some rpc ∧ rpc.accepted = false ∧
      q = ⟨rpc.session, rpc.request, rpc.more.length⟩ ∧
      w' = w.setRpc n { rpc with accepted := true } := by
  change w.accept n = some (q, w') at he
  unfold World.accept at he
  split at he
  · cases he
  · next rpc hrpc =>
    split at he
    · cases he
    · next hacc =>
      obtain ⟨rfl, rfl⟩ := Prod.mk.inj (Option.some.inj he)
      exact ⟨rpc, hrpc, by simpa using hacc, rfl, rfl⟩

theorem exec_stream_files {act : Act} {r : act.Ret}
    (he : World.exec S (.stream n) act ch w = some (r, w')) : w'.files = w.files := by
  cases act with
  | accept => obtain ⟨rpc, -, -, -, rfl⟩ := exec_accept he; rfl
  | sys a => obtain ⟨host, -, rfl⟩ := exec_sys he; rfl
  | _ => cases he

/-- What a step on the network leaves alone. -/
structure NetFrame (w w' : World) : Prop where
  buf : w'.buf = w.buf
  files : w'.files = w.files
  call : w'.call = w.call
  hist : w'.hist = w.hist
  fs : w'.host.fs = w.host.fs
  replies : w'.host.replies = w.host.replies

theorem exec_net_frame {op : NetAct} {r : op.Ret}
    (he : World.exec S (.client a) (.net op) ch w = some (r, w')) : NetFrame w w' := by
  have hself : NetFrame w w := ⟨rfl, rfl, rfl, rfl, rfl, rfl⟩
  change op.exec S a ch w = some (r, w') at he
  cases op with
  | loadGen | bumpGen | nextSeq | liveConn =>
    obtain ⟨-, rfl⟩ := Prod.mk.inj (Option.some.inj he)
    exact ⟨rfl, rfl, rfl, rfl, rfl, rfl⟩
  | connect =>
    simp only [NetAct.exec] at he
    split at he <;> (obtain ⟨-, rfl⟩ := Prod.mk.inj (Option.some.inj he)) <;>
      exact ⟨rfl, rfl, rfl, rfl, rfl, rfl⟩
  | send =>
    simp only [NetAct.exec] at he
    split at he <;> (obtain ⟨-, rfl⟩ := Prod.mk.inj (Option.some.inj he)) <;>
      exact ⟨rfl, rfl, rfl, rfl, rfl, rfl⟩
  | await m =>
    simp only [NetAct.exec] at he
    split at he
    · cases he
    · split at he
      · obtain ⟨-, rfl⟩ := Prod.mk.inj (Option.some.inj he)
        exact ⟨rfl, rfl, rfl, rfl, rfl, rfl⟩
      · split at he
        · cases he
        · obtain ⟨-, rfl⟩ := Prod.mk.inj (Option.some.inj he)
          exact ⟨rfl, rfl, rfl, rfl, rfl, rfl⟩

def World.newRpc (w : World) (a : Actor) (session : Nat) (request : Request)
    (more : List WriteRequest) (purpose : Purpose) : Rpc where
  session := session
  request := request
  more := more
  purpose := purpose
  mark := (w.call.map Call.mark).getD 0
  snapshot := ((w.buf.pool.flight a).map Flight.snapshot).getD []

theorem exec_send {session : Nat} {request : Request} {more : List WriteRequest} {purpose : Purpose}
    {r : Option Nat}
    (he : World.exec S (.client a) (.net (.send session request more purpose)) ch w =
      some (r, w')) :
    (r = none ∧ w' = w) ∨ (r = some w.net.nextRpc ∧
      w' = w.post (w.newRpc a session request more purpose) more) := by
  change NetAct.exec S a ch w (.send session request more purpose) = some (r, w') at he
  simp only [NetAct.exec] at he
  split at he
  · obtain ⟨rfl, rfl⟩ := Prod.mk.inj (Option.some.inj he)
    exact .inl ⟨rfl, rfl⟩
  · obtain ⟨rfl, rfl⟩ := Prod.mk.inj (Option.some.inj he)
    exact .inr ⟨rfl, rfl⟩

theorem exec_await {r : Option Response}
    (he : World.exec S (.client a) (.net (.await n)) ch w = some (r, w')) :
    ∃ rpc, w.net.rpcs n = some rpc ∧
      ((r = none ∧ w' = w.setRpc n { rpc with givenUp := true }) ∨
        ∃ resp, r = some resp ∧ (answersOf w.host n)[rpc.taken]? = some resp ∧
          w' = w.setRpc n { rpc with taken := rpc.taken + 1 }) := by
  change NetAct.exec S a ch w (.await n) = some (r, w') at he
  simp only [NetAct.exec] at he
  split at he
  · cases he
  · next rpc hrpc =>
    refine ⟨rpc, hrpc, ?_⟩
    split at he
    · obtain ⟨rfl, rfl⟩ := Prod.mk.inj (Option.some.inj he)
      exact .inl ⟨rfl, rfl⟩
    · split at he
      · cases he
      · next resp hresp =>
        obtain ⟨rfl, rfl⟩ := Prod.mk.inj (Option.some.inj he)
        exact .inr ⟨resp, rfl, hresp, rfl⟩

/-- The acts on the network other than sending and waiting. -/
def NetAct.Quiet : NetAct → Prop
  | .send .. | .await _ => False
  | _ => True

theorem exec_net_quiet {op : NetAct} {r : op.Ret}
    (he : World.exec S (.client a) (.net op) ch w = some (r, w')) (ho : op.Quiet) :
    w'.net.rpcs = w.net.rpcs ∧ w'.net.nextRpc = w.net.nextRpc ∧ w'.host.inbox = w.host.inbox := by
  change op.exec S a ch w = some (r, w') at he
  cases op with
  | loadGen | bumpGen | nextSeq | liveConn =>
    obtain ⟨-, rfl⟩ := Prod.mk.inj (Option.some.inj he)
    exact ⟨rfl, rfl, rfl⟩
  | connect =>
    simp only [NetAct.exec] at he
    split at he <;> (obtain ⟨-, rfl⟩ := Prod.mk.inj (Option.some.inj he)) <;> exact ⟨rfl, rfl, rfl⟩
  | send | await => exact ho.elim

theorem mem_replies_of_answersOf {h : Host} {k : Nat} {resp : Response}
    (hr : (answersOf h n)[k]? = some resp) : (n, resp) ∈ h.replies := by
  have hmem := List.mem_of_getElem? hr
  unfold answersOf at hmem
  obtain ⟨x, hx, rfl⟩ := List.mem_map.mp hmem
  obtain ⟨hx, e⟩ := List.mem_filter.mp hx
  have : x.1 = n := by simpa using e
  exact this ▸ hx

end

/-! ## What a task knows about its flush and its callback -/

/-- The phases differ at most in what the task knows of the network and the open files. -/
structure ClientPhase.SameTask (l l' : ClientPhase) : Prop where
  cb : l'.cb = l.cb
  flight : l'.flight = l.flight
  owes : l'.owes = l.owes
  flushed : l'.flushed = l.flushed
  listed : l'.listed = l.listed
  empty : l'.empty = l.empty
  sticky : l'.sticky = l.sticky

section
variable {chunkSize : UInt32} {l : ClientPhase}

theorem ClientPhase.SameTask.refl (l : ClientPhase) : l.SameTask l :=
  ⟨rfl, rfl, rfl, rfl, rfl, rfl, rfl⟩

theorem received_sameTask (r : Option Response) : l.SameTask (l.received r) := by
  unfold ClientPhase.received
  split <;> first | exact ⟨rfl, rfl, rfl, rfl, rfl, rfl, rfl⟩ |
    (split <;> exact ⟨rfl, rfl, rfl, rfl, rfl, rfl, rfl⟩)

theorem sent_sameTask (purpose : Purpose) (n : Option Nat) : l.SameTask (l.sent purpose n) := by
  unfold ClientPhase.sent
  split <;> exact ⟨rfl, rfl, rfl, rfl, rfl, rfl, rfl⟩

theorem net_sameTask (op : NetAct) (r : op.Ret) :
    l.SameTask ((clientProtocol chunkSize).next l (.net op) r) := by
  cases op with
  | send => exact sent_sameTask _ _
  | await => exact received_sameTask _
  | _ => exact .refl l

theorem files_sameTask (op : FileAct) (r : op.Ret) :
    l.SameTask ((clientProtocol chunkSize).next l (.files op) r) := by
  cases op with
  | get fh =>
    change l.SameTask (l.found fh r)
    cases r <;> exact ⟨rfl, rfl, rfl, rfl, rfl, rfl, rfl⟩
  | _ => exact ⟨rfl, rfl, rfl, rfl, rfl, rfl, rfl⟩

end

end QuicFs.System
