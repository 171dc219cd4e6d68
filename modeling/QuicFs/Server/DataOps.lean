import QuicFs.Server.Meta

/-!
# The data handlers and the dispatch of requests

`handle_read`, `handle_write` and `handle_fsync` of `server/src/ops/data.rs` as programs
over the system calls. They work on the file the handle retains and never on a path. The
frame loop of Write is `frameLoop`; `Server.handleWrite` is the same loop on a file that
nobody else writes.

`serverMachine` is the server: any number of streams, each running the handler of its
request.
-/

namespace QuicFs.Server

open Lib

/-- `CHUNK`: the most one `read` asks for, 256 KiB. -/
def readChunk : Nat := 256 * 1024

/-- `MAX_READ_REQUEST`: 16 MiB. -/
def maxReadRequest : Nat := 16 * 1024 * 1024

def sendReadErr (seq offset : UInt64) (status : Status) : Calls Unit :=
  reply { op := .read, seq, status, offset, eof := true }

/-- The read loop; every round but the last reads at least one byte, so the length is enough
fuel. -/
def readLoop (f : File) (seq : UInt64) : Nat → (remaining : Nat) → (offset : UInt64) → Calls Unit
  | 0, _, _ => .ret ()
  | fuel + 1, remaining, offset =>
    if remaining = 0 then .ret ()
    else
      .act (.readAt f offset (min remaining readChunk)) fun (r : Except IoErrorKind Bytes) =>
        match r with
        | .error e => sendReadErr seq offset (.ofIo e)
        | .ok buf => do
          let left := remaining - buf.length
          let eof := buf.isEmpty
          reply { op := .read, seq, status := .ok, offset, data := buf, eof := eof || left = 0 }
          if eof then .ret () else readLoop f seq fuel left (offset + UInt64.ofNat buf.length)

def handleRead (session : Nat) (seq : UInt64) (handle : ServerHandle) (offset : UInt64)
    (length : UInt32) : Calls Unit :=
  if length.toNat > maxReadRequest then sendReadErr seq offset .invalidArg
  else
    .act (.getFile session handle) fun (r : Option File) =>
      match r with
      | none => sendReadErr seq offset .stale
      | some f => readLoop f seq length.toNat length.toNat offset

/-- `stripe_for`: which of the 1024 locks serialises the writes to a file. -/
def stripeFor (key : Nat) : Nat :=
  let lo := UInt64.ofNat key * 0x9E3779B97F4A7C15
  let hi := UInt64.ofNat (key / 2 ^ 64) * 0xD1B54A32D192ED03
  (lo ^^^ ((hi <<< 32) ||| (hi >>> 32))).toNat % 1024

/-- The frames of a Write, one after another; `fuel` bounds the frames still to come. -/
def frameLoop (f : File) (append : Bool) (seq : UInt64) :
    Nat → (total : Nat) → WriteRequest → Calls Unit
  | fuel, total, w =>
    .act (.writeAt f w.offset w.data append) fun (r : Option IoErrorKind) =>
      match r with
      | some e => reply { op := .write, seq, status := .ofIo e, written := total }
      | none =>
        let total := min (total + w.data.length) u64Max
        if w.done then reply { op := .write, seq, status := .ok, written := total }
        else
          match fuel with
          | 0 => .ret ()
          | fuel + 1 =>
            .act .recvFrame fun (next : Option WriteRequest) =>
              match next with
              | none => .ret ()
              | some w => frameLoop f append seq fuel total w

/-- The write lock is held for the whole RPC. `frames` is at least the number of frames. -/
def handleWriteRpc (frames : Nat) (session : Nat) (seq : UInt64) (first : WriteRequest) :
    Calls Unit :=
  .act (.getWriteCtx session first.handle) fun (r : Option (File × UInt32 × Nat)) =>
    match r with
    | none => reply { op := .write, seq, status := .stale }
    | some (f, flags, inoKey) =>
      .act (.lockStripe (stripeFor inoKey)) fun (locked : Bool) =>
        if locked then do
          frameLoop f (bit flags 0x400) seq frames 0 first
          Prog.call (Sys.unlockStripe (stripeFor inoKey))
        else .ret ()

def handleFsync (session : Nat) (seq : UInt64) (handle : ServerHandle) (_datasync : Bool) :
    Calls Unit :=
  .act (.getFile session handle) fun (r : Option File) =>
    match r with
    | none => reply { op := .fsync, seq, status := .stale }
    | some f => do
      let status ← statusOf (Io.sys (.fsync f.ino) id)
      reply { op := .fsync, seq, status }

/-- What the sessions are configured with. -/
structure Durability where
  syncMetadata : Bool
  syncOnClose : Bool

section
variable (ex : Export) (dur : Durability)

/-- `dispatch_inner`. -/
def handle (frames : Nat) (session : Nat) : Request → Calls Unit
  | .getAttr seq path => handleGetattr ex seq path
  | .setAttr seq path valid mode size atime mtime =>
    handleSetattr ex seq path valid mode size atime mtime
  | .mkDir seq path mode => handleMkdir ex dur.syncMetadata seq path mode
  | .rmDir seq path => handleRmdir ex dur.syncMetadata seq path
  | .unlink seq path => handleUnlink ex dur.syncMetadata seq path
  | .rename seq old new => handleRename ex dur.syncMetadata seq old new
  | .symlink seq target link => handleSymlink ex dur.syncMetadata seq target link
  | .link seq path link => handleLink ex dur.syncMetadata seq path link
  | .open seq path flags => handleOpen ex session seq path flags
  | .create seq path flags mode => handleCreate ex dur.syncMetadata session seq path flags mode
  | .release seq h => handleRelease dur.syncOnClose session seq h
  | .read seq h offset length => handleRead session seq h offset length
  | .write seq first => handleWriteRpc frames session seq first
  | .fsync seq h datasync => handleFsync session seq h datasync
  | .readDir seq path cursor => handleReaddir ex seq path cursor
  | .readLink seq path => handleReadlink ex seq path
  | .statFs seq path => handleStatfs ex seq path

end

/-- A request as a stream brings it: its session, and how many frames follow at most. -/
structure Incoming where
  session : Nat
  request : Request
  frames : Nat := 0
  deriving DecidableEq

/-- The server: any number of streams, each running one request at a time. -/
def serverMachine (kernel : Kernel) (ex : Export) (dur : Durability) :
    Machine Sys Sys.Ret Host Nat Choice Incoming Empty where
  exec := Sys.exec kernel ex
  env e := e.elim
  prog _ q := handle ex dur q.frames q.session q.request

/-- The record of a run of the server. -/
abbrev Log := List (Event Sys Sys.Ret Nat)

end QuicFs.Server
