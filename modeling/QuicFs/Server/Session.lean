import QuicFs.Client.Conn
import QuicFs.Lib.Run
import QuicFs.Server.AuthorizedKeys
import QuicFs.Server.Sys

/-!
# Sessions

`handle_connection` of `server/src/lib.rs`, with the verifier of `server/src/verify.rs`, the
handshake of `server/src/ops/ctrl.rs` and the dispatch of `server/src/dispatch.rs`. A connection
comes up when the certificate of the peer is accepted; its first stream has to be a handshake, and
every stream after it is a task of its own, which reads a frame and calls the handler of its
operation. The peer may open streams and send frames in any order. What a frame says is left to the
codec.
-/

namespace QuicFs.Server

open Lib Client

structure Envelope where
  op : UInt8
  seq : UInt64
  deriving DecidableEq, Repr

structure HandshakeRequest where
  op : UInt8
  seq : UInt64
  version : UInt8
  clientId : Text
  features : List Text
  chunkSize : UInt32
  authType : Text
  deriving DecidableEq, Repr

structure HandshakeResponse where
  op : UInt8
  seq : UInt64
  status : Status
  version : UInt8
  features : List Text
  chunkSize : UInt32
  serverId : Text
  exportRoot : Text
  deriving DecidableEq, Repr

def opHandshake : UInt8 := 0xF0

/-- The handlers that `dispatch_inner` calls. -/
inductive Handler where
  | ping
  | rpc (op : Op)
  deriving DecidableEq, Repr

/-- The `match` of `dispatch_inner`; `none` for a code it does not know. -/
def handlerOf : UInt8 → Option Handler
  | 0xF1 => some .ping
  | 0x01 => some (.rpc .getAttr)
  | 0x02 => some (.rpc .setAttr)
  | 0x03 => some (.rpc .readDir)
  | 0x04 => some (.rpc .mkDir)
  | 0x05 => some (.rpc .rmDir)
  | 0x06 => some (.rpc .unlink)
  | 0x07 => some (.rpc .rename)
  | 0x08 => some (.rpc .symlink)
  | 0x09 => some (.rpc .readLink)
  | 0x0A => some (.rpc .link)
  | 0x0B => some (.rpc .statFs)
  | 0x10 => some (.rpc .open)
  | 0x11 => some (.rpc .release)
  | 0x20 => some (.rpc .read)
  | 0x21 => some (.rpc .write)
  | 0x12 => some (.rpc .create)
  | 0x22 => some (.rpc .fsync)
  | _ => none

/-- What `decode` makes of a frame, and the encoding of a handshake. -/
structure Codec (Raw : Type) where
  envelope : Raw → Option Envelope
  handshake : Raw → Option HandshakeRequest
  encode : HandshakeRequest → Raw
  envelope_encode : ∀ req, envelope (encode req) = some ⟨req.op, req.seq⟩
  handshake_encode : ∀ req, handshake (encode req) = some req

/-- What a server is set up with. -/
structure Endpoint (Raw : Type) where
  digests : Digests
  codec : Codec Raw
  authorized : AuthorizedKeys
  allowAny : Bool
  serverId : Text
  /-- The last part of the export root, if it has one that is a text. -/
  rootName : Option Text

def maxChunkSize : UInt32 := 4 * 1024 * 1024

def supportedFeatures : List Text := []

variable {Raw : Type}

namespace Endpoint

variable (E : Endpoint Raw)

/-- `verify_client_cert`. -/
def verifyClientCert (cert : Bytes) : Bool :=
  match E.digests.certFingerprint cert with
  | none => false
  | some fp => E.authorized.contains fp || (E.authorized.fingerprints.isEmpty && E.allowAny)

/-- The answer of `send_handshake_error`. -/
def handshakeError (seq : UInt64) (status : Status) : HandshakeResponse :=
  ⟨opHandshake, seq, status, 1, [], 0, [], []⟩

/-- `handle_handshake` on the first frame: what is answered, and the identity if it is accepted. -/
def handleHandshake (cert : Bytes) (raw : Raw) : Option HandshakeResponse × Option Text :=
  match E.codec.envelope raw with
  | none => (none, none)
  | some env =>
    if env.op ≠ opHandshake then (none, none)
    else
      match E.codec.handshake raw with
      | none => (none, none)
      | some req =>
        if maxChunkSize < req.chunkSize then (some (handshakeError req.seq .invalidArg), none)
        else if req.authType ≠ ['m', 't', 'l', 's'] then
          (some (handshakeError req.seq .permission), none)
        else
          (some
            { op := opHandshake
              seq := req.seq
              status := .ok
              version := 1
              features := req.features.filter (· ∈ supportedFeatures)
              chunkSize := min req.chunkSize maxChunkSize
              serverId := E.serverId
              exportRoot := E.rootName.getD ['e', 'x', 'p', 'o', 'r', 't'] },
            some ((E.digests.certFingerprint cert).getD ['u', 'n', 'k', 'n', 'o', 'w', 'n']))

end Endpoint

/-- A request that has come to its handler, for a session with the identity. -/
structure Dispatched where
  identity : Text
  env : Envelope
  handler : Handler

/-- A task of `handle_connection`. `waiting` are the streams that were spawned and have not read
their frame, by the identity of the session each was given; `answer`, `dispatched` and `refused` are
records. -/
structure ConnTask where
  cert : Option Bytes := none
  session : Option Text := none
  ended : Bool := false
  waiting : List Text := []
  answer : Option HandshakeResponse := none
  dispatched : List Dispatched := []
  /-- What was answered with `InvalidArg`. -/
  refused : List Envelope := []

inductive ConnEvent (Raw : Type) where
  /-- The TLS handshake of a peer that holds the key of the certificate. -/
  | incoming (cert : Bytes)
  /-- The first frame of the first stream, if there is one in time. -/
  | first (raw : Option Raw)
  | accept
  /-- The first frame of a later stream, if there is one in time. -/
  | frame (stream : Nat) (raw : Option Raw)
  | closed

namespace ConnTask

/-- `dispatch_inner`, of a frame that was read. -/
def dispatch (E : Endpoint Raw) (c : ConnTask) (identity : Text) (raw : Raw) : ConnTask :=
  match E.codec.envelope raw with
  | none => c
  | some env =>
    match handlerOf env.op with
    | some handler => { c with dispatched := ⟨identity, env, handler⟩ :: c.dispatched }
    | none => { c with refused := env :: c.refused }

def step (E : Endpoint Raw) (c : ConnTask) : ConnEvent Raw → Option ConnTask
  | .incoming cert =>
    if c.cert.isSome ∨ c.ended then none
    else if E.verifyClientCert cert then some { c with cert := some cert }
    else some { c with ended := true }
  | .first raw =>
    if c.session.isSome ∨ c.ended then none
    else
      c.cert.map fun cert =>
        let r := (raw.map (E.handleHandshake cert)).getD (none, none)
        { c with answer := r.1, session := r.2, ended := r.2.isNone }
  | .accept =>
    if c.ended then none
    else c.session.map fun identity => { c with waiting := identity :: c.waiting }
  | .frame i raw =>
    c.waiting[i]?.map fun identity =>
      let c := { c with waiting := c.waiting.eraseIdx i }
      raw.elim c (c.dispatch E identity)
  | .closed => if c.session.isNone then none else some { c with ended := true }

/-- What every event keeps. -/
structure Sound (E : Endpoint Raw) (c : ConnTask) : Prop where
  verified : ∀ cert ∈ c.cert, E.verifyClientCert cert = true
  session : ∀ identity ∈ c.session,
    (∃ cert ∈ c.cert, E.digests.certFingerprint cert = some identity) ∧
    ∃ resp ∈ c.answer, resp.status = .ok ∧ resp.chunkSize ≤ maxChunkSize
  waiting : ∀ identity ∈ c.waiting, c.session = some identity
  dispatched : ∀ r ∈ c.dispatched, c.session = some r.identity

end ConnTask

theorem Endpoint.verifyClientCert_eq_true {E : Endpoint Raw} {cert : Bytes} :
    E.verifyClientCert cert = true ↔ ∃ fp, E.digests.certFingerprint cert = some fp ∧
      (E.authorized.contains fp = true ∨ E.authorized.fingerprints = [] ∧ E.allowAny = true) := by
  unfold verifyClientCert
  cases E.digests.certFingerprint cert <;> simp [List.isEmpty_iff]

/-- A handshake that is accepted is answered with `Ok` and a chunk size within the bound. -/
theorem Endpoint.handleHandshake_some {E : Endpoint Raw} {cert : Bytes} {raw : Raw}
    {fp identity : Text} (hfp : E.digests.certFingerprint cert = some fp)
    (h : (E.handleHandshake cert raw).2 = some identity) :
    identity = fp ∧
      ∃ resp, (E.handleHandshake cert raw).1 = some resp ∧ resp.status = .ok ∧
      resp.chunkSize ≤ maxChunkSize := by
  unfold handleHandshake at h ⊢
  cases hd : E.codec.envelope raw with
  | none => simp [hd] at h
  | some env =>
    cases hq : E.codec.handshake raw with
    | none => simp [hd, hq] at h
    | some req =>
      simp only [hd, hq] at h ⊢
      split_ifs at h ⊢
      exact ⟨by simpa [hfp] using h.symm, _, rfl, rfl, Std.min_le_right⟩

namespace ConnTask

variable {E : Endpoint Raw} {c c' : ConnTask}

theorem Sound.dispatch {identity : Text} (hc : c.Sound E) (hs : c.session = some identity)
    (raw : Raw) : (c.dispatch E identity raw).Sound E := by
  unfold ConnTask.dispatch
  repeat' split
  · exact hc
  · refine ⟨hc.verified, hc.session, hc.waiting, fun r hr => ?_⟩
    rcases List.mem_cons.mp hr with rfl | hr
    · exact hs
    · exact hc.dispatched r hr
  · exact ⟨hc.verified, hc.session, hc.waiting, hc.dispatched⟩

theorem sound_step {e : ConnEvent Raw} (hc : c.Sound E) (h : c.step E e = some c') :
    c'.Sound E := by
  cases e with
  | incoming cert =>
    simp only [step] at h
    split_ifs at h with hno hv
    · cases h
      have hnone : c.cert = none := by simpa using (not_or.mp hno).1
      refine ⟨fun x hx => by cases hx; exact hv, fun identity hs => ?_, hc.waiting, hc.dispatched⟩
      obtain ⟨⟨x, hx, -⟩, -⟩ := hc.session identity hs
      rw [hnone] at hx
      cases hx
    · cases h
      exact ⟨hc.verified, hc.session, hc.waiting, hc.dispatched⟩
  | first raw =>
    simp only [step] at h
    split_ifs at h with hno
    obtain ⟨cert, hcert, rfl⟩ := Option.map_eq_some_iff.mp h
    have hnone : c.session = none := by simpa using (not_or.mp hno).1
    -- before the handshake no stream was spawned
    refine ⟨hc.verified, fun identity hs => ?_, fun s h => ?_, fun r h => ?_⟩
    · cases raw with
      | none => cases hs
      | some raw =>
        obtain ⟨fp, hfp, -⟩ := Endpoint.verifyClientCert_eq_true.mp (hc.verified cert hcert)
        obtain ⟨rfl, hresp⟩ := Endpoint.handleHandshake_some hfp hs
        exact ⟨⟨cert, hcert, hfp⟩, hresp⟩
    · cases hnone.symm.trans (hc.waiting s h)
    · cases hnone.symm.trans (hc.dispatched r h)
  | accept =>
    simp only [step] at h
    split_ifs at h
    obtain ⟨identity, hs, rfl⟩ := Option.map_eq_some_iff.mp h
    refine ⟨hc.verified, hc.session, fun s hm => ?_, hc.dispatched⟩
    rcases List.mem_cons.mp hm with rfl | hm
    · exact hs
    · exact hc.waiting s hm
  | frame i raw =>
    obtain ⟨identity, hi, rfl⟩ := Option.map_eq_some_iff.mp h
    have hs := hc.waiting identity (List.mem_of_getElem? hi)
    have hrest : Sound E { c with waiting := c.waiting.eraseIdx i } :=
      ⟨hc.verified, hc.session, fun s hm => hc.waiting s (List.mem_of_mem_eraseIdx hm),
        hc.dispatched⟩
    cases raw with
    | none => exact hrest
    | some raw => exact hrest.dispatch hs raw
  | closed =>
    simp only [step] at h
    split_ifs at h
    cases h
    exact ⟨hc.verified, hc.session, hc.waiting, hc.dispatched⟩

end ConnTask

/-- **Only a peer that was admitted is served**, whatever it sends and in whatever order: behind
every request that comes to a handler are a permitted key, whose fingerprint is the identity of the
session, and an accepted handshake. -/
theorem dispatched_admitted (E : Endpoint Raw) {c : ConnTask}
    (h : Reach (ConnTask.step E) anyLabel {} c) {r : Dispatched} (hr : r ∈ c.dispatched) :
    (∃ cert ∈ c.cert, E.digests.certFingerprint cert = some r.identity) ∧
      (E.authorized.contains r.identity = true ∨ E.authorized.fingerprints = [] ∧
        E.allowAny = true) ∧
      ∃ resp ∈ c.answer, resp.status = .ok ∧ resp.chunkSize ≤ maxChunkSize := by
  have hc : c.Sound E := h.invariant ⟨nofun, nofun, nofun, nofun⟩ fun hc _ hs =>
    ConnTask.sound_step hc hs
  obtain ⟨⟨cert, hcert, hfp⟩, hresp⟩ := hc.session r.identity (hc.dispatched r hr)
  obtain ⟨fp, hfp', hperm⟩ := Endpoint.verifyClientCert_eq_true.mp (hc.verified cert hcert)
  obtain rfl : fp = r.identity := Option.some.inj (hfp'.symm.trans hfp)
  exact ⟨⟨cert, hcert, hfp⟩, hperm, hresp⟩

/-- A server that permits the key of one certificate; a frame is what it says. -/
def smallEndpoint : Endpoint HandshakeRequest where
  digests := plainDigests
  codec := ⟨fun req => some ⟨req.op, req.seq⟩, some, id, fun _ => rfl, fun _ => rfl⟩
  authorized := AuthorizedKeys.empty.insert (fingerprintTag ++ hex [1]) []
  allowAny := false
  serverId := []
  rootName := none

/-- The request of `app_handshake`. -/
def appHandshake (clientId : Text) (chunkSize : UInt32) : HandshakeRequest :=
  ⟨opHandshake, 1, 1, clientId, [], chunkSize, ['m', 't', 'l', 's']⟩

theorem dispatched_admitted_after_handshake :
    ∃ c r, Reach (ConnTask.step smallEndpoint) anyLabel {} c ∧
    r ∈ c.dispatched ∧ smallEndpoint.authorized.contains r.identity = true := by
  obtain ⟨c, hreach, hne⟩ := Reach.of_check (ConnTask.step smallEndpoint) anyLabel {}
    [.incoming [1], .first (some (appHandshake [] 1)), .accept,
      .frame 0 (some { appHandshake [] 1 with op := 0x01 })]
    (fun c => c.dispatched.length = 1) (by decide +kernel)
  obtain ⟨r, hr⟩ := List.exists_mem_of_length_pos (Nat.lt_of_lt_of_eq Nat.zero_lt_one hne.symm)
  refine ⟨c, r, hreach, hr, ?_⟩
  rcases (dispatched_admitted smallEndpoint hreach hr).2.1 with h | ⟨-, h⟩
  · exact h
  · cases h

end QuicFs.Server
