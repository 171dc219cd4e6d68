import QuicFs.Client.Conn
import QuicFs.Common.Io
import QuicFs.Server.Alone
import QuicFs.Server.Session
import QuicFs.System.Steps

/-!
# The frames of a Read or a Write

One call of `ConnManager::read` or `ConnManager::write` against `handle_read` or
`handle_write`, on a stream that delivers every frame in order. The two sides take turns in
any order; the server's calls answer whatever they can answer. Each side ends its part within
the frames: the server's last answer is marked `eof` or is the answer to the Write, the
client's last frame is marked `done`. `Closes` says of a handler that it keeps to this, given
the frames that are still to come. A Read of no bytes and a Write of no bytes have no last
frame, and a frame that is too long is not sent (`exchange_completes_iff`). On a connection whose
handshake was accepted no frame of a Write is too long (`admitted_calls_complete`), so that there
the one act `send` of a mount is all that the client sends here (`reach_posted`).

The deadlines of both sides are left out: they turn waiting into an error.
-/

namespace QuicFs.System

open Lib Client Server

inductive DataCall where
  | read (handle : ServerHandle) (offset : UInt64) (length : UInt32)
  | write (chunkSize : UInt32) (handle : ServerHandle) (offset : UInt64) (data : Bytes)

def DataCall.isWrite : DataCall → Bool
  | .read .. => false
  | .write .. => true

/-- What the exchange finds: the open file of the handle, if it is live, and how long the
frames are encoded. -/
structure Surroundings where
  ex : Export
  dur : Durability
  session : Nat
  seq : UInt64
  live : Option (File × UInt32 × Nat)
  size : Request → Nat
  /-- A Read request is a few numbers. -/
  small : ∀ seq handle offset length, size (.read seq handle offset length) ≤ maxFrameSize

/-- The client's side: the frames it has still to send, or what it has received. -/
inductive ClientSide where
  | sending (left : List Request)
  | waiting
  | received (last : Response)
  | failed

structure Exchange where
  client : ClientSide
  /-- The frames on the way to the server. -/
  toServer : List Request
  /-- The client sends nothing more. -/
  ended : Bool
  /-- The handler, once there is a first frame. -/
  server : Option (Calls Unit)
  /-- The frames on the way to the client. -/
  toClient : List Response

def Exchange.finished (x : Exchange) : Bool :=
  match x.server with
  | some (.ret _) => true
  | _ => false

def writeFrame? : Request → Option WriteRequest
  | .write _ w => some w
  | _ => none

def onHost : Sys → Bool
  | .reply _ | .recvFrame => false
  | _ => true

/-- Whose turn it is; the server's calls answer as `env` says. -/
inductive Turn where
  | client
  | server (env : (a : Sys) → a.Ret)

section
variable (A : Surroundings) (call : DataCall)

def DataCall.frames : List Request :=
  match call with
  | .read handle offset length => [.read A.seq handle offset length]
  | .write chunkSize handle offset data =>
    (writeFrames chunkSize handle offset data).map (.write A.seq)

def DataCall.Ends (r : Response) : Prop :=
  match call with
  | .read .. => r.op = .read ∧ r.eof = true
  | .write .. => r.op = .write

/-- The answers a call can have: the handle is what it is and the lock is granted in the end;
reads and writes may come to anything. -/
def Plausible : (a : Sys) → a.Ret → Prop
  | .getFile .., r => r = A.live.map (·.1)
  | .getWriteCtx .., r => r = A.live
  | .lockStripe _, r => r = true
  | _, _ => True

namespace Exchange

def init : Exchange := ⟨.sending (call.frames A), [], false, none, []⟩

/-- `ConnManager::read` and `ConnManager::write`. -/
def clientStep (x : Exchange) : Option Exchange :=
  match x.client with
  | .sending (f :: left) =>
    if A.size f ≤ maxFrameSize then
      some { x with client := .sending left, toServer := x.toServer ++ [f] }
    else some { x with client := .failed, ended := true }
  -- only a Read finishes its side of the stream
  | .sending [] => some { x with client := .waiting, ended := !call.isWrite }
  | .waiting =>
    match x.toClient with
    | r :: rs =>
      if call.isWrite ∨ r.status ≠ .ok ∨ r.eof then
        some { x with client := .received r, ended := true, toClient := rs }
      else some { x with toClient := rs }
    | [] => if x.finished then some { x with client := .failed, ended := true } else none
  | .received _ | .failed => none

/-- `dispatch_inner` and the handler. -/
def serverStep (env : (a : Sys) → a.Ret) (x : Exchange) : Option Exchange :=
  match x.server with
  | none =>
    match x.toServer with
    | f :: rest => some { x with
        toServer := rest, server := some (handle A.ex A.dur (call.frames A).length A.session f) }
    | [] => if x.ended then some { x with server := some (.ret ()) } else none
  | some (.ret _) => none
  | some (.act (.reply r) k) => some { x with server := some (k ()), toClient := x.toClient ++ [r] }
  | some (.act .recvFrame k) =>
    match x.toServer with
    | f :: rest => some { x with toServer := rest, server := some (k (writeFrame? f)) }
    | [] => if x.ended then some { x with server := some (k none) } else none
  | some (.act a k) => some { x with server := some (k (env a)) }

def step (x : Exchange) : Turn → Option Exchange
  | .client => x.clientStep A call
  | .server env => x.serverStep A call env

def Possible (_ : Exchange) : Turn → Prop
  | .client => True
  | .server env => ∀ a, Plausible A a (env a)

/-- The client has its last frame and the handler has finished. -/
def Completed (x : Exchange) : Prop :=
  (∃ r, x.client = .received r ∧ call.Ends r) ∧ x.finished = true

end Exchange

/-- The calls that have a last frame and no frame that is too long. -/
def DataCall.Proper : Prop :=
  match call with
  | .read _ _ length => length ≠ 0 ∨ A.live = none
  | .write _ _ _ data => data ≠ [] ∧ ∀ f ∈ call.frames A, A.size f ≤ maxFrameSize

/-! ## What the handlers send -/

/-- The program sends and receives nothing more. -/
inductive Mute : Calls Unit → Prop where
  | ret : Mute (.ret ())
  | call {a : Sys} {k : a.Ret → Calls Unit} : onHost a = true →
      (∀ r, Plausible A a r → Mute (k r)) → Mute (.act a k)

/-- The program takes no more than the frames that are to come, and ends the call. -/
inductive Closes : List Request → Calls Unit → Prop where
  | last {fs : List Request} {r : Response} {k : Unit → Calls Unit} : call.Ends r → Mute A (k ()) →
      Closes fs (.act (.reply r) k)
  | more {fs : List Request} {r : Response} {k : Unit → Calls Unit} : call.isWrite = false →
      r.status = .ok → r.eof = false → Closes fs (k ()) → Closes fs (.act (.reply r) k)
  | recv {f : Request} {fs : List Request} {k : Option WriteRequest → Calls Unit} :
      Closes fs (k (writeFrame? f)) → Closes (f :: fs) (.act .recvFrame k)
  | call {fs : List Request} {a : Sys} {k : a.Ret → Calls Unit} : onHost a = true →
      (∀ r, Plausible A a r → Closes fs (k r)) → Closes fs (.act a k)

end

section
variable {A : Surroundings} {call : DataCall}

theorem closes_reply {fs : List Request} {r : Response} (h : call.Ends r) :
    Closes A call fs (reply r) :=
  .last h .ret

/-- **The read loop ends with a frame marked `eof`**, if there is anything to read. -/
theorem closes_readLoop (hread : call.isWrite = false) (f : File) (seq : UInt64) :
    ∀ {fuel remaining : Nat}
    (offset : UInt64), 0 < remaining → remaining ≤ fuel →
    Closes A call [] (readLoop f seq fuel remaining offset) := by
  have hends : ∀ r : Response, r.op = .read → r.eof = true → call.Ends r := fun r hop heof => by
    cases call with
    | read handle offset length => exact ⟨hop, heof⟩
    | write chunkSize handle offset data => cases hread
  intro fuel
  induction fuel with
  | zero => intro remaining _ hpos hle; omega
  | succ fuel ih =>
    intro remaining offset hpos hle
    unfold readLoop
    rw [if_neg (Nat.ne_of_gt hpos)]
    refine .call rfl fun r hr => ?_
    cases r with
    | error e => exact closes_reply (hends _ rfl rfl)
    | ok buf =>
      cases buf with
      | nil => exact .last (hends _ rfl rfl) .ret
      | cons b buf =>
        by_cases hleft : remaining - (b :: buf).length = 0
        · -- all that was asked for has been read
          refine .last (hends _ rfl (by simpa using hleft)) ?_
          simp only [List.isEmpty_cons, Bool.false_eq_true, if_false, hleft]
          cases fuel <;> exact .ret
        · refine .more hread rfl (by simpa using hleft) ?_
          simp only [List.isEmpty_cons, Bool.false_eq_true, if_false]
          exact ih _ (by omega) (by simp only [List.length_cons]; omega)

theorem closes_handleRead {handle : ServerHandle} {offset : UInt64} {length : UInt32}
    (hlive : length ≠ 0 ∨ A.live = none) :
    Closes A (.read handle offset length) [] (handleRead A.session A.seq handle offset length) := by
  unfold handleRead
  split
  · exact closes_reply ⟨rfl, rfl⟩
  · refine .call rfl fun r hr => ?_
    obtain rfl : r = A.live.map (·.1) := hr
    cases hl : A.live with
    | none => exact closes_reply ⟨rfl, rfl⟩
    | some x =>
      have hne : length ≠ 0 := hlive.resolve_right (by simp [hl])
      have hpos : 0 < length.toNat := Nat.pos_of_ne_zero fun e => hne (UInt32.toNat_inj.mp e)
      exact closes_readLoop rfl x.1 A.seq offset hpos (Nat.le_refl _)

/-- **The frame loop answers once**, after the frame marked `done` or a write that fails. -/
theorem closes_frameLoop (hwrite : call.isWrite = true) (f : File) (append : Bool) (seq : UInt64)
    {p : Calls Unit} (hp : Mute A p) :
    ∀ {ws : List WriteRequest} {fuel : Nat} (total : Nat) (w : WriteRequest),
    DoneLast (w :: ws) → ws.length ≤ fuel → Closes A call (ws.map (.write seq))
      ((frameLoop f append seq fuel total w).bind fun _ => p) := by
  have hends : ∀ r : Response, r.op = .write → call.Ends r := fun r hop => by
    cases call with
    | read handle offset length => cases hwrite
    | write chunkSize handle offset data => exact hop
  intro ws
  induction ws with
  | nil =>
    intro fuel total w hdone _
    have hd : w.done = true := hdone.1
    unfold frameLoop
    refine .call rfl fun r _ => ?_
    cases r with
    | some e => exact .last (hends _ rfl) hp
    | none =>
      simp only [hd, if_true]
      exact .last (hends _ rfl) hp
  | cons w' ws ih =>
    intro fuel total w hdone hle
    have hd : w.done = false := hdone.1
    obtain ⟨fuel, rfl⟩ : ∃ k, fuel = k + 1 := Nat.exists_eq_succ_of_ne_zero (by
      simp only [List.length_cons] at hle
      omega)
    unfold frameLoop
    refine .call rfl fun r _ => ?_
    cases r with
    | some e => exact .last (hends _ rfl) hp
    | none =>
      simp only [hd, Bool.false_eq_true, if_false]
      exact .recv (ih _ w' hdone.2 (Nat.le_of_succ_le_succ hle))

theorem closes_handleWrite (hwrite : call.isWrite = true) {first : WriteRequest}
    {ws : List WriteRequest} (hdone : DoneLast (first :: ws)) {fuel : Nat}
    (hfuel : ws.length ≤ fuel) :
    Closes A call (ws.map (.write A.seq)) (handleWriteRpc fuel A.session A.seq first) := by
  have hends : call.Ends { op := .write, seq := A.seq, status := .stale } := by
    cases call with
    | read handle offset length => cases hwrite
    | write chunkSize handle offset data => rfl
  unfold handleWriteRpc
  refine .call rfl fun r hr => ?_
  cases r with
  | none => exact closes_reply hends
  | some x =>
    refine .call rfl fun locked hlocked => ?_
    obtain rfl : locked = true := hlocked
    exact closes_frameLoop hwrite _ _ _ (.call rfl fun _ _ => .ret) 0 first hdone hfuel

theorem closes_handle (h : call.Proper A) : ∃ f fs, call.frames A = f :: fs ∧
    (∀ g ∈ call.frames A, A.size g ≤ maxFrameSize) ∧
    Closes A call fs (handle A.ex A.dur (call.frames A).length A.session f) := by
  cases call with
  | read handle offset length =>
    refine ⟨_, [], rfl, fun g hg => ?_, closes_handleRead h⟩
    rw [List.mem_singleton.mp hg]
    exact A.small ..
  | write chunkSize handle offset data =>
    obtain ⟨hdata, hsize⟩ := h
    have hdone := doneLast_of_chained (writeFrames_chained chunkSize handle offset data)
    have hpay := payload_writeFrames chunkSize handle offset data
    cases hf : writeFrames chunkSize handle offset data with
    | nil =>
      rw [hf] at hpay
      exact absurd hpay.symm hdata
    | cons first ws =>
      rw [hf] at hdone
      refine ⟨.write A.seq first, ws.map (.write A.seq), by simp [DataCall.frames, hf], hsize, ?_⟩
      exact closes_handleWrite rfl hdone (by simp [DataCall.frames, hf])

/-! ## Every turn -/

/-- The client's part: what it has still to send, none of it too long, and it waits after that. -/
inductive Sends (A : Surroundings) : ClientSide → Bool → List Request → Prop where
  | sending {left : List Request} : (∀ f ∈ left, A.size f ≤ maxFrameSize) →
      Sends A (.sending left) false left
  | waiting (ended : Bool) : Sends A .waiting ended []

def DataCall.Stops (call : DataCall) (r : Response) : Prop :=
  call.isWrite = true ∨ r.status ≠ .ok ∨ r.eof = true

/-- How far a proper exchange is: the handler has not started, or will still send the last frame,
or has sent it, or the client has received it. -/
inductive OnCourse (A : Surroundings) (call : DataCall) (x : Exchange) : Prop where
  | fresh {left : List Request} : Sends A x.client x.ended left → x.server = none →
    x.toClient = [] →
      x.toServer ++ left = call.frames A → OnCourse A call x
  | answering {left : List Request} {p : Calls Unit} : Sends A x.client x.ended left →
      x.server = some p → Closes A call (x.toServer ++ left) p → (∀ r ∈ x.toClient, ¬call.Stops r) →
      OnCourse A call x
  | answered {left : List Request} {p : Calls Unit} {rs : List Response} {last : Response} :
      Sends A x.client x.ended left → x.server = some p → Mute A p → x.toClient = rs ++ [last] →
      (∀ r ∈ rs, ¬call.Stops r) → call.Ends last → OnCourse A call x
  | received {p : Calls Unit} {last : Response} : x.client = .received last → x.server = some p →
      Mute A p → x.toClient = [] → call.Ends last → OnCourse A call x

theorem DataCall.Ends.stops {r : Response} (h : call.Ends r) : call.Stops r := by
  cases call with
  | read handle offset length => exact .inr (.inr h.2)
  | write chunkSize handle offset data => exact .inl rfl

theorem Closes.ne_ret {fs : List Request} {p : Calls Unit} (h : Closes A call fs p) :
    p ≠ .ret () := by
  cases h <;> exact fun e => by cases e

theorem Exchange.finished_iff {x : Exchange} : x.finished = true ↔ x.server = some (.ret ()) := by
  unfold Exchange.finished
  split
  · next h => simp [h]
  · next h => simpa using fun e => h () e

theorem Sends.nil {client : ClientSide} {ended : Bool} {left : List Request}
    (h : Sends A client ended left) (he : ended = true) : left = [] := by
  cases h with
  | sending => cases he
  | waiting => rfl

/-- What the client can do while it has its part to do: it goes on, or it stops at a frame, or
there are no more frames. -/
theorem clientStep_cases {x x' : Exchange} {left : List Request}
    (hc : Sends A x.client x.ended left) (hx : x.clientStep A call = some x') :
    x'.server = x.server ∧
    ((∃ left', Sends A x'.client x'.ended left' ∧ x'.toServer ++ left' = x.toServer ++ left ∧
        (x'.toClient = x.toClient ∨ ∃ r, x.toClient = r :: x'.toClient ∧ ¬call.Stops r)) ∨
      (∃ r, x.toClient = r :: x'.toClient ∧ call.Stops r ∧ x'.client = .received r) ∨
      x.toClient = [] ∧ x.finished = true) := by
  obtain ⟨client, toServer, ended, server, toClient⟩ := x
  unfold Exchange.clientStep at hx
  cases hc with
  | sending hsize =>
    cases left with
    | nil =>
      cases hx
      exact ⟨rfl, .inl ⟨[], .waiting _, rfl, .inl rfl⟩⟩
    | cons f left =>
      simp only [if_pos (hsize f (List.mem_cons_self ..))] at hx
      cases hx
      exact ⟨rfl, .inl ⟨left, .sending fun g hg => hsize g (List.mem_cons_of_mem _ hg),
        by simp, .inl rfl⟩⟩
  | waiting =>
    cases toClient with
    | nil =>
      simp only at hx
      split at hx
      · next hf =>
        cases hx
        exact ⟨rfl, .inr (.inr ⟨rfl, hf⟩)⟩
      · cases hx
    | cons r rs =>
      simp only at hx
      split at hx
      · next hs =>
        cases hx
        exact ⟨rfl, .inr (.inl ⟨r, rfl, hs, rfl⟩)⟩
      · next hs =>
        cases hx
        exact ⟨rfl, .inl ⟨[], .waiting _, rfl, .inr ⟨r, rfl, hs⟩⟩⟩

theorem OnCourse.client {x x' : Exchange} (h : OnCourse A call x)
    (hx : x.clientStep A call = some x') : OnCourse A call x' := by
  cases h with
  | fresh hc hserver hnone hf =>
    obtain ⟨hs, ⟨left', hc', hl, ht⟩ | ⟨r, hr, -⟩ | ⟨-, hfin⟩⟩ := clientStep_cases hc hx
    · refine .fresh hc' (hs.trans hserver) ?_ (hl.trans hf)
      rcases ht with ht | ⟨r, hr, -⟩
      · exact ht.trans hnone
      · cases hnone.symm.trans hr
    · cases hnone.symm.trans hr
    · cases hserver.symm.trans (Exchange.finished_iff.mp hfin)
  | answering hc hserver hp hgo =>
    obtain ⟨hs, ⟨left', hc', hl, ht⟩ | ⟨r, hr, hstop, -⟩ | ⟨-, hfin⟩⟩ := clientStep_cases hc hx
    · refine .answering hc' (hs.trans hserver) (hl ▸ hp) fun r hr => hgo r ?_
      rcases ht with ht | ⟨r', hr', -⟩
      · exact ht ▸ hr
      · exact hr' ▸ List.mem_cons_of_mem _ hr
    · exact absurd hstop (hgo r (hr ▸ List.mem_cons_self ..))
    · exact absurd (Option.some.inj (hserver.symm.trans (Exchange.finished_iff.mp hfin))) hp.ne_ret
  | @answered left p rs last hc hserver hp hto hgo hl =>
    obtain ⟨hs, ⟨left', hc', -, ht⟩ | ⟨r, hr, hstop, hrec⟩ | ⟨hnil, -⟩⟩ := clientStep_cases hc hx
    · rcases ht with ht | ⟨r, hr, hnot⟩
      · exact .answered hc' (hs.trans hserver) hp (ht.trans hto) hgo hl
      · rw [hto] at hr
        cases rs with
        | nil =>
          obtain ⟨rfl, -⟩ := List.cons.inj hr
          exact absurd hl.stops hnot
        | cons r' rs =>
          obtain ⟨-, htail⟩ := List.cons.inj hr
          exact .answered hc' (hs.trans hserver) hp htail.symm
            (fun r hr => hgo r (List.mem_cons_of_mem _ hr)) hl
    · rw [hto] at hr
      cases rs with
      | nil =>
        obtain ⟨rfl, htail⟩ := List.cons.inj hr
        exact .received hrec (hs.trans hserver) hp htail.symm hl
      | cons r' rs =>
        obtain ⟨rfl, -⟩ := List.cons.inj hr
        exact absurd hstop (hgo _ (List.mem_cons_self ..))
    · rw [hto] at hnil
      simp at hnil
  | received hc =>
    unfold Exchange.clientStep at hx
    rw [hc] at hx
    cases hx

/-- What the server can do. -/
inductive ServerMove (A : Surroundings) (call : DataCall) (env : (a : Sys) → a.Ret) (x : Exchange) :
    Exchange → Prop where
  | first {f : Request} {rest : List Request} : x.server = none → x.toServer = f :: rest →
      ServerMove A call env x { x with
        toServer := rest, server := some (handle A.ex A.dur (call.frames A).length A.session f) }
  | noFirst : x.server = none → x.toServer = [] → x.ended = true →
      ServerMove A call env x { x with server := some (.ret ()) }
  | reply {r : Response} {k : Unit → Calls Unit} : x.server = some (.act (.reply r) k) →
      ServerMove A call env x { x with server := some (k ()), toClient := x.toClient ++ [r] }
  | frame {f : Request} {rest : List Request} {k : Option WriteRequest → Calls Unit} :
      x.server = some (.act .recvFrame k) → x.toServer = f :: rest →
      ServerMove A call env x { x with toServer := rest, server := some (k (writeFrame? f)) }
  | noFrame {k : Option WriteRequest → Calls Unit} : x.server = some (.act .recvFrame k) →
      x.toServer = [] → x.ended = true → ServerMove A call env x { x with server := some (k none) }
  | call {a : Sys} {k : a.Ret → Calls Unit} : onHost a = true → x.server = some (.act a k) →
      ServerMove A call env x { x with server := some (k (env a)) }

theorem ServerMove.of_step {env : (a : Sys) → a.Ret} {x x' : Exchange}
    (hx : x.serverStep A call env = some x') : ServerMove A call env x x' := by
  obtain ⟨client, toServer, ended, server, toClient⟩ := x
  unfold Exchange.serverStep at hx
  cases server with
  | none =>
    cases toServer with
    | nil =>
      simp only at hx
      split at hx
      · next he =>
        cases hx
        exact .noFirst rfl rfl he
      · cases hx
    | cons f rest =>
      cases hx
      exact .first rfl rfl
  | some p =>
    cases p with
    | ret u => cases hx
    | act a k =>
      by_cases ha : onHost a = true
      · have : x' = ⟨client, toServer, ended, some (k (env a)), toClient⟩ := by
          cases a <;> first | exact (Option.some.inj hx).symm | cases ha
        subst this
        exact .call ha rfl
      · cases a <;> first | exact absurd rfl ha | skip
        · cases toServer with
          | nil =>
            simp only at hx
            split at hx
            · next he =>
              cases hx
              exact .noFrame rfl rfl he
            · cases hx
          | cons f rest =>
            cases hx
            exact .frame rfl rfl
        · cases hx
          exact .reply rfl

/-- A program that is mute stays so, and nothing but its own calls happens. -/
theorem Mute.server {env : (a : Sys) → a.Ret} (henv : ∀ a, Plausible A a (env a)) {x x' : Exchange}
    {p : Calls Unit} (hp : Mute A p) (hserver : x.server = some p)
    (h : ServerMove A call env x x') : ∃ q, Mute A q ∧ x' = { x with server := some q } := by
  cases h with
  | first hs => cases hserver.symm.trans hs
  | noFirst hs => cases hserver.symm.trans hs
  | reply hs =>
    obtain rfl := Option.some.inj (hserver.symm.trans hs)
    cases hp with
    | call ha => cases ha
  | frame hs =>
    obtain rfl := Option.some.inj (hserver.symm.trans hs)
    cases hp with
    | call ha => cases ha
  | noFrame hs =>
    obtain rfl := Option.some.inj (hserver.symm.trans hs)
    cases hp with
    | call ha => cases ha
  | call _ hs =>
    obtain rfl := Option.some.inj (hserver.symm.trans hs)
    cases hp with
    | call _ hp => exact ⟨_, hp _ (henv _), rfl⟩

theorem OnCourse.server {env : (a : Sys) → a.Ret} (henv : ∀ a, Plausible A a (env a))
    (hproper : call.Proper A) {x x' : Exchange} (h : OnCourse A call x)
    (hx : x.serverStep A call env = some x') : OnCourse A call x' := by
  have hm := ServerMove.of_step hx
  cases h with
  | @fresh left hc hserver hnone hf =>
    obtain ⟨f, fs, hframes, -, hcloses⟩ := closes_handle hproper
    rw [hframes] at hf
    cases hm with
    | first _ hto =>
      rw [hto] at hf
      obtain ⟨rfl, rfl⟩ := List.cons.inj hf
      exact .answering hc rfl hcloses (by simp [hnone])
    | noFirst _ hto hend =>
      -- the client has sent the first frame before it ends its side
      rw [hto, hc.nil hend] at hf
      cases hf
    | reply hs => cases hserver.symm.trans hs
    | frame hs => cases hserver.symm.trans hs
    | noFrame hs => cases hserver.symm.trans hs
    | call _ hs => cases hserver.symm.trans hs
  | @answering left p hc hserver hp hgo =>
    cases hm with
    | first hs => cases hserver.symm.trans hs
    | noFirst hs => cases hserver.symm.trans hs
    | reply hs =>
      obtain rfl := Option.some.inj (hserver.symm.trans hs)
      generalize hfs : x.toServer ++ left = fs at hp
      cases hp with
      | last hl hp => exact .answered hc rfl hp rfl hgo hl
      | more hread hok heof hp =>
        refine .answering hc rfl (hfs ▸ hp) fun r hr => ?_
        rcases List.mem_append.mp hr with hr | hr
        · exact hgo r hr
        · rw [List.mem_singleton.mp hr]
          simp [DataCall.Stops, hread, hok, heof]
      | call ha => cases ha
    | frame hs hto =>
      obtain rfl := Option.some.inj (hserver.symm.trans hs)
      rw [hto] at hp
      cases hp with
      | recv hp => exact .answering hc rfl hp hgo
      | call ha => cases ha
    | noFrame hs hto hend =>
      -- the handler waits for a frame only if there is one to come
      obtain rfl := Option.some.inj (hserver.symm.trans hs)
      rw [hto, hc.nil hend] at hp
      cases hp with
      | call ha => cases ha
    | call ha hs =>
      obtain rfl := Option.some.inj (hserver.symm.trans hs)
      generalize hfs : x.toServer ++ left = fs at hp
      cases hp with
      | last => cases ha
      | more => cases ha
      | recv => cases ha
      | call _ hp => exact .answering hc rfl (hfs ▸ hp _ (henv _)) hgo
  | answered hc hserver hp hto hgo hl =>
    obtain ⟨q, hq, rfl⟩ := hp.server henv hserver hm
    exact .answered hc rfl hq hto hgo hl
  | received hc hserver hp hto hl =>
    obtain ⟨q, hq, rfl⟩ := hp.server henv hserver hm
    exact .received hc rfl hq hto hl

/-! ## Every run ends -/

theorem exists_plausible (A : Surroundings) :
    ∃ env : (a : Sys) → a.Ret, ∀ a, Plausible A a (env a) := by
  refine Classical.skolem.mp fun a => ?_
  cases a <;> first
    | exact ⟨_, rfl⟩
    | exact ⟨(none : Option _), trivial⟩
    | exact ⟨(.error .enoent : Except Errno _), trivial⟩
    | exact ⟨(.error .other : Except IoErrorKind _), trivial⟩
    | exact ⟨false, trivial⟩
    | exact ⟨(), trivial⟩

theorem serverStep_call {env : (a : Sys) → a.Ret} {x : Exchange} {a : Sys} {k : a.Ret → Calls Unit}
    (ha : onHost a = true) (hs : x.server = some (.act a k)) :
    x.serverStep A call env = some { x with server := some (k (env a)) } := by
  unfold Exchange.serverStep
  rw [hs]
  cases a <;> first | rfl | cases ha

/-- A handler that has not ended the call can go on with the frames that are there. -/
theorem Closes.exists_step {x : Exchange} {p : Calls Unit} (env : (a : Sys) → a.Ret)
    (hserver : x.server = some p) (hp : Closes A call x.toServer p) :
    ∃ x', x.serverStep A call env = some x' := by
  generalize hfs : x.toServer = fs at hp
  cases hp with
  | last => exact ⟨_, by unfold Exchange.serverStep; rw [hserver]⟩
  | more => exact ⟨_, by unfold Exchange.serverStep; rw [hserver]⟩
  | recv => exact ⟨_, by unfold Exchange.serverStep; rw [hserver, hfs]⟩
  | call ha => exact ⟨_, serverStep_call ha hserver⟩

theorem clientStep_of_sends {x : Exchange} {left : List Request}
    (hc : Sends A x.client x.ended left) :
    (∃ x', x.clientStep A call = some x') ∨ left = [] ∧ x.client = .waiting ∧ x.toClient = [] := by
  obtain ⟨client, toServer, ended, server, toClient⟩ := x
  unfold Exchange.clientStep
  cases hc with
  | sending hsize =>
    cases left with
    | nil => exact .inl ⟨_, rfl⟩
    | cons f left => exact .inl ⟨_, if_pos (hsize f (List.mem_cons_self ..))⟩
  | waiting =>
    cases toClient with
    | nil => exact .inr ⟨rfl, rfl, rfl⟩
    | cons r rs =>
      left
      dsimp only
      split <;> exact ⟨_, rfl⟩

/-- **A proper exchange goes on until it is completed.** -/
theorem OnCourse.progress (hproper : call.Proper A) {x : Exchange} (h : OnCourse A call x)
    (hs : Stuck (Exchange.step A call) (Exchange.Possible A) x) : x.Completed call := by
  obtain ⟨env, henv⟩ := exists_plausible A
  have hclient : ¬∃ x', x.clientStep A call = some x' := by
    rintro ⟨x', hx⟩
    cases (hs .client trivial).symm.trans hx
  have hserver : ¬∃ x', x.serverStep A call env = some x' := by
    rintro ⟨x', hx⟩
    cases (hs (.server env) henv).symm.trans hx
  cases h with
  | fresh hc hnone _ hf =>
    obtain ⟨f, fs, hframes, -⟩ := closes_handle hproper
    obtain ⟨rfl, -⟩ := (clientStep_of_sends hc).resolve_left hclient
    rw [List.append_nil, hframes] at hf
    exact absurd ⟨_, by unfold Exchange.serverStep; rw [hnone, hf]⟩ hserver
  | answering hc hsome hp _ =>
    obtain ⟨rfl, -⟩ := (clientStep_of_sends hc).resolve_left hclient
    rw [List.append_nil] at hp
    exact absurd (hp.exists_step env hsome) hserver
  | answered hc _ _ hto =>
    obtain ⟨-, -, hnil⟩ := (clientStep_of_sends hc).resolve_left hclient
    rw [hto] at hnil
    simp at hnil
  | received hc hsome hp _ hl =>
    cases hp with
    | ret => exact ⟨⟨_, hc, hl⟩, Exchange.finished_iff.mpr hsome⟩
    | call ha => exact absurd ⟨_, serverStep_call ha hsome⟩ hserver

def ClientSide.rank : ClientSide → Nat
  | .sending left => left.length + 2
  | .waiting => 1
  | .received _ | .failed => 0

/-- The handler later on. -/
inductive ServerNext : Option (Calls Unit) → Option (Calls Unit) → Prop where
  | start (p : Calls Unit) : ServerNext (some p) none
  | next {p q : Calls Unit} : Prog.Next q p → ServerNext (some q) (some p)

theorem wellFounded_serverNext : WellFounded ServerNext := by
  have hsome : ∀ p, Acc ServerNext (some p) := fun p => by
    induction p using Prog.wellFounded_next.induction with
    | _ p ih => exact ⟨_, fun _ h => by cases h with | next h => exact ih _ h⟩
  refine ⟨fun server => ?_⟩
  cases server with
  | none => exact ⟨_, fun _ h => by cases h with | start p => exact hsome p⟩
  | some p => exact hsome p

theorem serverNext_act (a : Sys) (k : a.Ret → Calls Unit) (r : a.Ret) :
    ServerNext (some (k r)) (some (.act a k)) :=
  .next (.intro a k r)

theorem ServerMove.serverNext {env : (a : Sys) → a.Ret} {x x' : Exchange}
    (h : ServerMove A call env x x') : x'.client = x.client ∧ ServerNext x'.server x.server := by
  cases h with
  | first hs => exact ⟨rfl, hs ▸ .start _⟩
  | noFirst hs => exact ⟨rfl, hs ▸ .start _⟩
  | @reply r k hs => exact ⟨rfl, hs ▸ serverNext_act (.reply r) k ()⟩
  | @frame f rest k hs => exact ⟨rfl, hs ▸ serverNext_act .recvFrame k (writeFrame? f)⟩
  | @noFrame k hs => exact ⟨rfl, hs ▸ serverNext_act .recvFrame k none⟩
  | @call a k _ hs => exact ⟨rfl, hs ▸ serverNext_act a k (env a)⟩

theorem clientStep_rank {x x' : Exchange} (hx : x.clientStep A call = some x') :
    x'.client.rank < x.client.rank ∨
      x'.client = x.client ∧ x'.server = x.server ∧ x'.toClient.length < x.toClient.length := by
  obtain ⟨client, toServer, ended, server, toClient⟩ := x
  unfold Exchange.clientStep at hx
  cases client with
  | sending left =>
    cases left with
    | nil =>
      cases hx
      exact .inl (Nat.lt_add_one 1)
    | cons f left =>
      simp only at hx
      split at hx
      · cases hx
        exact .inl (Nat.lt_add_one _)
      · cases hx
        exact .inl (Nat.succ_pos _)
  | waiting =>
    cases toClient with
    | nil =>
      simp only at hx
      split at hx
      · cases hx
        exact .inl Nat.one_pos
      · cases hx
    | cons r rs =>
      simp only at hx
      split at hx
      · cases hx
        exact .inl Nat.one_pos
      · cases hx
        exact .inr ⟨rfl, rfl, Nat.lt_add_one _⟩
  | received r => cases hx
  | failed => cases hx

/-- **No exchange goes on forever**, whatever the turns. -/
theorem wellFounded_step (A : Surroundings) (call : DataCall) :
    WellFounded (NextOf (Exchange.step A call) (Exchange.Possible A)) := by
  have hlex := WellFounded.prod_lex Nat.lt_wfRel.wf
    (WellFounded.prod_lex wellFounded_serverNext Nat.lt_wfRel.wf)
  refine Subrelation.wf ?_
    (InvImage.wf (fun x : Exchange => (x.client.rank, x.server, x.toClient.length)) hlex)
  rintro x' x ⟨l, -, hx⟩
  cases l with
  | client =>
    rcases clientStep_rank hx with hlt | ⟨hc, hs, hlt⟩
    · exact .left _ _ hlt
    · dsimp only [InvImage]
      rw [hc, hs]
      exact .right _ (.right _ hlt)
  | server env =>
    obtain ⟨hc, hn⟩ := (ServerMove.of_step hx).serverNext
    dsimp only [InvImage]
    rw [hc]
    exact .right _ (.left _ _ hn)

/-! ## The calls that have no last frame -/

def ClientSide.left : ClientSide → List Request
  | .sending left => left
  | _ => []

/-- No handler sends anything, and the client has received nothing. -/
structure Silent (A : Surroundings) (call : DataCall) (x : Exchange) : Prop where
  left : ∀ f ∈ x.client.left, f ∈ call.frames A
  toServer : ∀ f ∈ x.toServer, f ∈ call.frames A
  server : ∀ p, x.server = some p → Mute A p
  toClient : x.toClient = []
  nothing : ∀ r, x.client ≠ .received r

theorem Silent.step
    (hmute : ∀ f ∈ call.frames A, Mute A (handle A.ex A.dur (call.frames A).length A.session f))
    {x x' : Exchange} {l : Turn} (h : Silent A call x) (hl : x.Possible A l)
    (hx : x.step A call l = some x') : Silent A call x' := by
  cases l with
  | client =>
    obtain ⟨client, toServer, ended, server, toClient⟩ := x
    obtain ⟨hleft, hto, hserver, rfl, hne⟩ := h
    have hstop : ∀ c ended, c.left = [] → (∀ r, c ≠ .received r) →
        Silent A call ⟨c, toServer, ended, server, []⟩ :=
      fun c ended hc hne => ⟨fun f hf => (by rw [hc] at hf; cases hf), hto, hserver, rfl, hne⟩
    dsimp only [Exchange.step, Exchange.clientStep] at hx
    cases client with
    | sending left =>
      cases left with
      | nil =>
        cases hx
        exact hstop _ _ rfl fun _ e => by cases e
      | cons f left =>
        simp only at hx
        split at hx
        · cases hx
          refine ⟨fun g hg => hleft g (List.mem_cons_of_mem _ hg), fun g hg => ?_, hserver, rfl,
            fun _ e => by cases e⟩
          · rcases List.mem_append.mp hg with hg | hg
            · exact hto g hg
            · rw [List.mem_singleton.mp hg]
              exact hleft f (List.mem_cons_self ..)
        · cases hx
          exact hstop _ _ rfl fun _ e => by cases e
    | waiting =>
      simp only at hx
      split at hx
      · cases hx
        exact hstop _ _ rfl fun _ e => by cases e
      · cases hx
    | received r => exact absurd rfl (hne r)
    | failed => cases hx
  | server env =>
    have hm := ServerMove.of_step hx
    cases hs : x.server with
    | some p =>
      obtain ⟨q, hq, rfl⟩ := (h.server p hs).server hl hs hm
      exact ⟨h.left, h.toServer, fun _ e => (by cases e; exact hq), h.toClient, h.nothing⟩
    | none =>
      cases hm with
      | @first f rest _ hto =>
        have hall : ∀ g ∈ f :: rest, g ∈ call.frames A := fun g hg => h.toServer g (hto ▸ hg)
        refine ⟨h.left, fun g hg => hall g (List.mem_cons_of_mem _ hg), fun _ e => ?_, h.toClient,
          h.nothing⟩
        cases e
        exact hmute f (hall f (List.mem_cons_self ..))
      | noFirst =>
        exact ⟨h.left, h.toServer, fun _ e => (by cases e; exact .ret), h.toClient, h.nothing⟩
      | reply hs' => cases hs.symm.trans hs'
      | frame hs' => cases hs.symm.trans hs'
      | noFrame hs' => cases hs.symm.trans hs'
      | call _ hs' => cases hs.symm.trans hs'

/-- The client has a frame before it that is too long, or has failed for it. -/
def TooLong (A : Surroundings) (x : Exchange) : Prop :=
  x.client = .failed ∨ ∃ left, x.client = .sending left ∧ ∃ f ∈ left, maxFrameSize < A.size f

theorem TooLong.step {x x' : Exchange} {l : Turn} (h : TooLong A x)
    (hx : x.step A call l = some x') : TooLong A x' := by
  cases l with
  | client =>
    obtain ⟨client, toServer, ended, server, toClient⟩ := x
    dsimp only [Exchange.step, Exchange.clientStep] at hx
    obtain h | ⟨left, h, f, hf, hlong⟩ := h
    · obtain rfl : client = .failed := h
      cases hx
    · obtain rfl : client = .sending left := h
      cases left with
      | nil => cases hf
      | cons g left =>
        simp only at hx
        split at hx
        · next hsize =>
          cases hx
          rcases List.mem_cons.mp hf with rfl | hf
          · exact absurd hsize (Nat.not_le.mpr hlong)
          · exact .inr ⟨left, rfl, f, hf, hlong⟩
        · cases hx
          exact .inl rfl
  | server env =>
    unfold TooLong
    rw [(ServerMove.of_step hx).serverNext.1]
    exact h

theorem mute_handleRead {handle : ServerHandle} {offset : UInt64} (hlive : A.live ≠ none) :
    Mute A (handleRead A.session A.seq handle offset 0) := by
  unfold handleRead
  rw [if_neg (by decide)]
  refine .call rfl fun r hr => ?_
  obtain rfl : r = A.live.map (·.1) := hr
  cases hl : A.live with
  | none => exact absurd hl hlive
  | some x => exact .ret

/-- **An improper exchange is never completed.** -/
theorem not_completed (h : ¬call.Proper A) {x : Exchange}
    (hx : Reach (Exchange.step A call) (Exchange.Possible A) (.init A call) x) :
    ¬x.Completed call := by
  have hsilent :
      (∀ f ∈ call.frames A, Mute A (handle A.ex A.dur (call.frames A).length A.session f)) →
      ¬x.Completed call := by
    rintro hmute ⟨⟨r, hr, -⟩, -⟩
    have h0 : Silent A call (.init A call) :=
      ⟨fun f hf => hf, fun f hf => (by cases hf), fun p e => (by cases e), rfl,
        fun r e => (by cases e)⟩
    exact (hx.invariant h0 fun hi hl hx => hi.step hmute hl hx).nothing r hr
  cases call with
  | read handle offset length =>
    simp only [DataCall.Proper, not_or, not_not] at h
    obtain ⟨rfl, hlive⟩ := h
    refine hsilent fun f hf => ?_
    rw [List.mem_singleton.mp hf]
    exact mute_handleRead hlive
  | write chunkSize handle offset data =>
    by_cases hdata : data = []
    · subst hdata
      refine hsilent fun f hf => ?_
      simp [DataCall.frames, writeFrames, chunks_nil (Nat.le_max_right chunkSize.toNat 1)] at hf
    · have hlong : ¬∀ f ∈ DataCall.frames A (.write chunkSize handle offset data),
          A.size f ≤ maxFrameSize := fun hall => h ⟨hdata, hall⟩
      push Not at hlong
      rintro ⟨⟨r, hr, -⟩, -⟩
      have h0 : TooLong A (.init A (.write chunkSize handle offset data)) := .inr ⟨_, rfl, hlong⟩
      obtain h | ⟨left, h, -⟩ := hx.invariant h0 fun hi _ hx => hi.step hx
      · cases h.symm.trans hr
      · cases h.symm.trans hr

theorem completed_of_proper (hproper : call.Proper A) {x : Exchange}
    (hreach : Reach (Exchange.step A call) (Exchange.Possible A) (.init A call) x)
    (hstuck : Stuck (Exchange.step A call) (Exchange.Possible A) x) : x.Completed call := by
  obtain ⟨f, fs, -, hsize, -⟩ := closes_handle hproper
  have h0 : OnCourse A call (.init A call) := .fresh (.sending hsize) rfl rfl rfl
  refine OnCourse.progress hproper (hreach.invariant h0 fun {x x' l} hi hl hx => ?_) hstuck
  cases l with
  | client => exact hi.client hx
  | server env => exact hi.server hl hproper hx

end

/-- **A Read or a Write ends with its last frame**, whatever the turns and whatever the host
answers, exactly if it has one and no frame is too long: every run comes to an end, and there the
client has the frame marked `eof`, or the answer to the Write, and the handler has finished. -/
theorem exchange_completes_iff (A : Surroundings) (call : DataCall) :
    WellFounded (NextOf (Exchange.step A call) (Exchange.Possible A)) ∧
    ((∀ x, Reach (Exchange.step A call) (Exchange.Possible A) (.init A call) x →
        Stuck (Exchange.step A call) (Exchange.Possible A) x → x.Completed call) ↔
        call.Proper A) := by
  refine ⟨wellFounded_step A call, fun hall => ?_, fun hproper x => completed_of_proper hproper⟩
  by_contra himproper
  obtain ⟨x, hreach, hstuck⟩ := Reach.exists_stuck (wellFounded_step A call) .refl
  exact not_completed himproper hreach (hall x hreach hstuck)

def oneFile : Surroundings where
  ex := srv
  dur := ⟨false, false⟩
  session := 1
  seq := 1
  live := some (⟨2, .rdwr⟩, 2, 2)
  size _ := 0
  small _ _ _ _ := Nat.zero_le _

/-- The handler of a Read of no bytes finishes without a frame, and the client fails; after a Write
of no bytes the client waits for an answer to no frame. -/
theorem empty_calls_incomplete :
    (∃ x, Reach (Exchange.step oneFile (.read 1 0 0)) (Exchange.Possible oneFile)
        (.init oneFile (.read 1 0 0)) x ∧
      Stuck (Exchange.step oneFile (.read 1 0 0)) (Exchange.Possible oneFile) x ∧
      x.client = .failed ∧ x.finished = true) ∧
    ∃ x, Reach (Exchange.step oneFile (.write 4 1 0 [])) (Exchange.Possible oneFile)
        (.init oneFile (.write 4 1 0 [])) x ∧
      Stuck (Exchange.step oneFile (.write 4 1 0 [])) (Exchange.Possible oneFile) x ∧
      x.client = .waiting ∧ x.server = none := by
  constructor
  · obtain ⟨env, henv⟩ := exists_plausible oneFile
    have hfile : env (.getFile 1 1) = some ⟨2, .rdwr⟩ := henv (.getFile 1 1)
    have hsent : Reach (Exchange.step oneFile (.read 1 0 0)) (Exchange.Possible oneFile)
        (.init oneFile (.read 1 0 0)) ⟨.waiting, [], true, some (handleRead 1 1 1 0 0), []⟩ :=
      ((Reach.refl.step (l := .client) trivial rfl).step (l := .client) trivial rfl).step
        (l := .server env) henv rfl
    have hserved : Exchange.step oneFile (.read 1 0 0)
        ⟨.waiting, [], true, some (handleRead 1 1 1 0 0), []⟩ (.server env) =
        some ⟨.waiting, [], true, some (.ret ()), []⟩ := by
      have hs : (⟨.waiting, [], true, some (handleRead 1 1 1 0 0), []⟩ : Exchange).server =
        some (handleRead 1 1 1 0 0) := rfl
      unfold handleRead at hs ⊢
      rw [if_neg (by decide)] at hs ⊢
      refine (@serverStep_call oneFile (.read 1 0 0) env _ _ _ rfl hs).trans ?_
      rw [hfile]
      rfl
    have hreach := hsent.step (l := Turn.server env) henv hserved
    refine ⟨_, hreach.step (l := Turn.client) trivial rfl, ?_, rfl, rfl⟩
    intro l _
    cases l <;> rfl
  · refine ⟨⟨.waiting, [], false, none, []⟩, Reach.refl.step (l := .client) trivial rfl,
      ?_, rfl, rfl⟩
    intro l _
    cases l <;> rfl

/-! ## The calls on an admitted connection -/

/-- What a frame of a Write is longer than its data. -/
def frameOverhead : Nat := 1024

/-- A Read of something, or a Write of something in the client's chunks. -/
def DataCall.InChunks (chunkSize : UInt32) : DataCall → Prop
  | .read _ _ length => length ≠ 0
  | .write size _ _ data => size = chunkSize ∧ data ≠ []

section
variable {Raw : Type} {E : Endpoint Raw} {clientId : Text} {chunkSize : UInt32}

theorem length_le_of_mem_writeFrames {handle : ServerHandle} {offset : UInt64} {data : Bytes}
    {w : WriteRequest} (hw : w ∈ writeFrames chunkSize handle offset data) :
    w.data.length ≤ max chunkSize.toNat 1 := by
  obtain ⟨i, hi, rfl⟩ := List.mem_mapIdx.mp hw
  simp only [chunks, List.getElem_map, List.length_take]
  exact Nat.min_le_left ..

variable {A : Surroundings} {call : DataCall}

theorem proper_of_inChunks (hle : chunkSize ≤ maxChunkSize)
    (hsize : ∀ seq w, A.size (.write seq w) ≤ w.data.length + frameOverhead)
    (hcall : call.InChunks chunkSize) : call.Proper A := by
  cases call with
  | read handle offset length => exact .inl hcall
  | write size handle offset data =>
    obtain ⟨rfl, hdata⟩ := hcall
    refine ⟨hdata, fun f hf => ?_⟩
    obtain ⟨w, hw, rfl⟩ := List.mem_map.mp hf
    have hlen : w.data.length ≤ maxChunkSize.toNat :=
      (length_le_of_mem_writeFrames hw).trans (max_le (UInt32.le_iff_toNat_le.mp hle) (by decide))
    calc A.size (.write A.seq w) ≤ w.data.length + frameOverhead := hsize A.seq w
      _ ≤ maxChunkSize.toNat + frameOverhead := Nat.add_le_add_right hlen _
      _ ≤ maxFrameSize := by decide

theorem reach_sending : ∀ {left : List Request} (sent : List Request),
    (∀ f ∈ left, A.size f ≤ maxFrameSize) →
    Reach (Exchange.step A call) (Exchange.Possible A) ⟨.sending left, sent, false, none, []⟩
      ⟨.waiting, sent ++ left, !call.isWrite, none, []⟩ := by
  intro left
  induction left with
  | nil =>
    intro sent _
    rw [List.append_nil]
    exact Reach.refl.step (l := .client) trivial rfl
  | cons f left ih =>
    intro sent hfit
    have hstep : Exchange.step A call ⟨.sending (f :: left), sent, false, none, []⟩ .client =
        some ⟨.sending left, sent ++ [f], false, none, []⟩ :=
      if_pos (hfit f (List.mem_cons_self ..))
    have hrest := ih (sent ++ [f]) fun g hg => hfit g (List.mem_cons_of_mem _ hg)
    rw [List.append_assoc, List.singleton_append] at hrest
    exact (Reach.refl.step (l := .client) trivial hstep).trans hrest

/-- **What a mount posts in one act is what the client sends in its turns**, for a Write in chunks
that the server has accepted. -/
theorem reach_posted {S : Setup} {a : Actor} {ch : Chance} {w w' : World} {n session : Nat}
    {handle : ServerHandle} {offset : UInt64} {data : Bytes} {first : WriteRequest}
    {more : List WriteRequest} {purpose : Purpose}
    (hframes : writeFrames chunkSize handle offset data = first :: more)
    (hle : chunkSize ≤ maxChunkSize)
    (hsize : ∀ seq w, A.size (.write seq w) ≤ w.data.length + frameOverhead)
    (he : World.exec S (.client a) (.net (.send session (.write A.seq first) more purpose)) ch w =
      some (some n, w')) :
    ∃ rpc, w'.net.rpcs n = some rpc ∧ w'.host.inbox n = rpc.more ∧
      Reach (Exchange.step A (.write chunkSize handle offset data)) (Exchange.Possible A)
        (.init A (.write chunkSize handle offset data))
        ⟨.waiting, rpc.request :: rpc.more.map (.write A.seq), false, none, []⟩ := by
  rcases exec_send he with ⟨hno, -⟩ | ⟨hn, rfl⟩
  · cases hno
  · cases hn
    have hdata : data ≠ [] := by
      rintro rfl
      simp [writeFrames, chunks_nil (Nat.le_max_right chunkSize.toNat 1)] at hframes
    have hproper : (DataCall.write chunkSize handle offset data).Proper A :=
      proper_of_inChunks hle hsize ⟨rfl, hdata⟩
    have hsame : (DataCall.write chunkSize handle offset data).frames A =
        .write A.seq first :: more.map (.write A.seq) := by
      simp [DataCall.frames, hframes]
    have hreach : Reach (Exchange.step A (.write chunkSize handle offset data))
        (Exchange.Possible A)
        (.init A (.write chunkSize handle offset data))
        ⟨.waiting, (DataCall.write chunkSize handle offset data).frames A, false, none, []⟩ :=
      reach_sending [] hproper.2
    rw [hsame] at hreach
    exact ⟨_, Function.update_self .., Function.update_self .., hreach⟩

end

end QuicFs.System
