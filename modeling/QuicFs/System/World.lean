import QuicFs.Client.Files
import QuicFs.Client.Flights
import QuicFs.Client.Conn
import QuicFs.Server.DataOps

/-!
# A mount and its server

The state shared by the tasks of one mount (the FUSE session thread, the background flush
task, the flush at unmount) and by the streams of the server. One `Act` is one acquisition of
a client lock, one atomic operation, one wait on the network, one message to or from the
kernel, or one step of a server stream; tasks interleave between acts.

An RPC is a message: once sent it may be taken up by the server at any later time, also after
the client has given up on it, and it is taken up once. An answer that is lost is one the
client gives up on. What the metadata cache holds is left out: a lookup in it may answer anything.

Some fields record what the code does not; no act depends on them. `Buf.lost` and
`Buf.reported` are the chunks dropped before and since the last error `flush` or `fsync`
replied, `Buf.owing` is the handle whose chunks a task has dropped without having set the
sticky error yet. `Files.home` and `Files.base` are the inode a handle was opened on and what
that file held then. An `Rpc` knows what it was sent for, how many chunks had been accepted
when the callback began, and the chunks of the flush it belongs to. `History` has the files
behind the server handles, the truncations and the record of the server's calls.
-/

namespace QuicFs.System

open Lib Client Server Function

/-- The tasks of a mount. -/
inductive Actor where
  | fuse | bg | shutdown
  deriving DecidableEq, Repr

instance : Fintype Actor := ⟨{.fuse, .bg, .shutdown}, fun a => by cases a <;> decide⟩

inductive Tid where
  | client (a : Actor)
  | stream (n : Nat)
  deriving DecidableEq, Repr

/-! ## The write buffer and the sticky errors -/

inductive BufAct where
  | push (fh : Fh) (offset : UInt64) (data : Bytes)
  | beginFlush (fh : Fh)
  | ackFlush (fh : Fh) (sentCount : Nat)
  | failFlush (fh : Fh)
  | dropHandle (fh : Fh)
  | hasBuffered (fh : Fh)
  | handles
  | totalBytes
  | olderThan (deadline : Nat)
  | expiredHandles
  | stickyInsert (fh : Fh)
  | stickyRemove (fh : Fh)

def BufAct.Ret : BufAct → Type
  | .push .. => PushDecision
  | .beginFlush _ => Option FlushBatch
  | .ackFlush .. | .failFlush _ | .stickyInsert _ => Unit
  | .dropHandle _ | .totalBytes => Nat
  | .hasBuffered _ | .stickyRemove _ => Bool
  | .handles | .olderThan _ | .expiredHandles => List Fh

structure Buf where
  pool : Pool Actor
  writeErrors : Finset Fh
  lost : Fh → List Tag
  reported : Fh → List Tag
  owing : Actor → Option Fh

def Buf.init (buf : WriteBuffer) : Buf where
  pool := .init buf
  writeErrors := ∅
  lost _ := []
  reported _ := []
  owing _ := none

/-- The end of a flush with the arguments of the call. -/
def endFlush (p : Pool Actor) (a : Actor) (buf : WriteBuffer) : Pool Actor :=
  { p with buf, flight := update p.flight a none }

/-- An iteration of the handle map in the order `iter`. -/
def iterate (b : Buf) (hs iter : List Fh) : Option (List Fh × Buf) :=
  if iter.Perm hs then some (iter, b) else none

def BufAct.exec (a : Actor) (now : Instant) (iter : List Fh) (b : Buf) :
    (op : BufAct) → Option (op.Ret × Buf)
  | .push fh offset data =>
    some ((b.pool.buf.push fh offset data now iter).1,
      { b with pool := b.pool.push fh offset data now iter })
  | .beginFlush fh => some ((b.pool.buf.beginFlush fh).1, { b with pool := b.pool.beginFlush a fh })
  | .ackFlush fh n =>
    let sent := ((b.pool.flight a).map Flight.snapshot).getD []
    some ((), { b with
      pool := { endFlush b.pool a (b.pool.buf.ackFlush fh n) with
        tags := update b.pool.tags fh ((b.pool.tags fh).drop n)
        acked := update b.pool.acked fh (b.pool.acked fh ++ sent) } })
  | .failFlush fh => some ((), { b with pool := endFlush b.pool a (b.pool.buf.failFlush fh) })
  | .dropHandle fh =>
    let bytes := (b.pool.buf.dropHandle fh).1
    some (bytes, { b with
      pool := b.pool.dropHandle a fh
      lost := update b.lost fh (b.lost fh ++ b.pool.tags fh)
      owing := if 0 < bytes then update b.owing a (some fh) else b.owing })
  | .hasBuffered fh => some (b.pool.buf.hasBuffered fh, b)
  | .handles => iterate b b.pool.buf.handles iter
  | .totalBytes => some (b.pool.buf.totalBytes, b)
  | .olderThan deadline => iterate b (b.pool.buf.olderThan deadline now) iter
  | .expiredHandles => iterate b (b.pool.buf.expiredHandles now) iter
  | .stickyInsert fh =>
    some ((), { b with
      writeErrors := insert fh b.writeErrors
      owing := if b.owing a = some fh then update b.owing a none else b.owing })
  | .stickyRemove fh =>
    some (decide (fh ∈ b.writeErrors), { b with writeErrors := b.writeErrors.erase fh })

/-- An error of `flush` or `fsync` reports the chunks lost so far. -/
def Buf.report (b : Buf) (fh : Fh) : Buf :=
  { b with
    lost := update b.lost fh []
    reported := update b.reported fh (b.reported fh ++ b.lost fh) }

/-! ## The open files -/

inductive FileAct where
  | get (fh : Fh)
  /-- A new server handle for an open file. -/
  | restamp (fh : Fh) (handle : ServerHandle) (gen : Nat)
  | nextFh
  /-- The inode is the one the server answered. -/
  | insert (fh : Fh) (file : OpenFile) (home : Ino)
  | remove (fh : Fh)

def FileAct.Ret : FileAct → Type
  | .get _ | .remove _ => Option OpenFile
  | .restamp .. | .insert .. => Unit
  | .nextFh => Fh

structure Files where
  opened : Fh → Option OpenFile
  next : Fh
  home : Fh → Option Ino
  base : Fh → Bytes

def FileAct.exec (fs : Fs) (f : Files) : (op : FileAct) → op.Ret × Files
  | .get fh => (f.opened fh, f)
  | .restamp fh handle gen =>
    ((), { f with
      opened := update f.opened fh
        ((f.opened fh).map ({ · with serverHandle := handle, openedGen := gen })) })
  | .nextFh => (f.next, { f with next := f.next + 1 })
  | .insert fh file home =>
    ((), { f with
      opened := update f.opened fh (some file)
      home := update f.home fh (some home)
      base := update f.base fh ((fs.content home).getD []) })
  | .remove fh => (f.opened fh, { f with opened := update f.opened fh none })

/-! ## Paths -/

inductive PathAct where
  | pathOf (ino : FuseIno)
  | getOrAlloc (path : Path)
  | removePath (path : Path)
  | renameIno (old new : Path)

def PathAct.Ret : PathAct → Type
  | .pathOf _ => Option Path
  | .getOrAlloc _ => FuseIno
  | .removePath _ | .renameIno .. => Unit

def PathAct.exec (t : InodeTable) : (op : PathAct) → op.Ret × InodeTable
  | .pathOf ino => (t.pathOf ino, t)
  | .getOrAlloc path => t.getOrAlloc path
  | .removePath path => ((), t.removePath path)
  | .renameIno old new => ((), t.renameIno old new)

/-! ## The metadata cache -/

inductive CacheAct where
  | get (path : Path)
  | insert (path : Path) (stat : Ino × Node)
  | insertNegative (path : Path)

def CacheAct.Ret : CacheAct → Type
  | .get _ => Option (Option (Ino × Node))
  | .insert .. | .insertNegative _ => Unit

/-- The answer of the cache, where `found` is what a lookup finds. -/
def CacheAct.answer (found : Option (Option (Ino × Node))) : (op : CacheAct) → op.Ret
  | .get _ => found
  | .insert .. | .insertNegative _ => ()

/-! ## The kernel -/

inductive Callback where
  | lookup (parent : FuseIno) (name : Name)
  | getattr (ino : FuseIno)
  | setattr (ino : FuseIno) (mode uid gid : Option UInt32) (size : Option UInt64)
      (atime mtime : Option Int64) (fh : Option Fh)
  | mkdir (parent : FuseIno) (name : Name) (mode : UInt32)
  | unlink (parent : FuseIno) (name : Name)
  | rmdir (parent : FuseIno) (name : Name)
  | symlink (parent : FuseIno) (name : Name) (target : List Char)
  | rename (parent : FuseIno) (name : Name) (newParent : FuseIno) (newName : Name)
  | link (ino newParent : FuseIno) (newName : Name)
  | open (ino : FuseIno) (flags : UInt32)
  | read (fh : Fh) (offset : UInt64) (size : UInt32)
  | write (fh : Fh) (offset : UInt64) (data : Bytes)
  | flush (fh : Fh)
  | release (fh : Fh)
  | fsync (fh : Fh) (datasync : Bool)
  | create (parent : FuseIno) (name : Name) (mode flags : UInt32)

inductive Answer where
  | ok
  | error (errno : FuseErrno)
  | attr (ino : FuseIno) (stat : Ino × Node)
  | opened (fh : Fh)
  | created (ino : FuseIno) (stat : Ino × Node) (fh : Fh)
  | data (data : Bytes)
  | written (n : Nat)

def Answer.isError : Answer → Bool
  | .error _ => true
  | _ => false

/-- A callback in progress, and how many chunks had been accepted before it. -/
structure Call where
  cb : Callback
  mark : Nat

inductive DevAct where
  | recv (cb : Callback)
  | reply (a : Answer)

/-! ## The network -/

/-- What an RPC is sent for. -/
inductive Purpose where
  | other
  | open
  | reopen (fh : Fh)
  | read (fh : Fh)
  | write (fh : Fh)
  /-- A change of size, with the handle it came through. -/
  | truncate (fh : Option Fh)
  deriving DecidableEq, Repr

structure Rpc where
  session : Nat
  request : Request
  /-- The frames that follow the request. -/
  more : List WriteRequest
  purpose : Purpose
  mark : Nat
  snapshot : List Tag
  /-- The server has taken it up. -/
  accepted : Bool := false
  /-- The answers the client has read. -/
  taken : Nat := 0
  /-- The client has given up on it. -/
  givenUp : Bool := false

inductive NetAct where
  | loadGen
  | bumpGen
  | nextSeq
  | liveConn
  /-- `reconnect` up to the installed connection; `none` if the deadline comes first. -/
  | connect
  /-- Open a stream and write the request with all its frames. -/
  | send (session : Nat) (request : Request) (more : List WriteRequest) (purpose : Purpose)
  /-- The next answer; `none` if the client gives up. -/
  | await (n : Nat)

def NetAct.Ret : NetAct → Type
  | .loadGen => Nat
  | .bumpGen => Unit
  | .nextSeq => UInt64
  | .liveConn | .connect | .send .. => Option Nat
  | .await _ => Option Response

structure Net where
  gen : Nat
  conn : Option Nat
  sessions : Nat
  closed : Nat → Bool
  seq : UInt64
  rpcs : Nat → Option Rpc
  nextRpc : Nat

/-! ## The world -/

structure History where
  /-- The file behind each server handle that was ever given out. -/
  issued : ServerHandle → Option Ino
  /-- The truncated files, with the mark of the callback. -/
  truncs : List (Ino × Nat)
  /-- The calls of the server's streams, in order. -/
  log : Log

structure World where
  buf : Buf
  files : Files
  inodes : InodeTable
  net : Net
  host : Host
  now : Instant
  call : Option Call
  hist : History

inductive Act where
  | buf (op : BufAct)
  | files (op : FileAct)
  | paths (op : PathAct)
  | cache (op : CacheAct)
  | dev (op : DevAct)
  | net (op : NetAct)
  /-- Take up the request of the stream. -/
  | accept
  | sys (a : Sys)

def Act.Ret : Act → Type
  | .buf op => op.Ret
  | .files op => op.Ret
  | .paths op => op.Ret
  | .cache op => op.Ret
  | .dev _ => Unit
  | .net op => op.Ret
  | .accept => Incoming
  | .sys a => a.Ret

/-- What a step leaves to the outside. -/
structure Chance extends Server.Choice where
  /-- The network fails or the deadline comes. -/
  fail : Bool := false
  /-- The epoch of a new session. -/
  epoch : UInt32 := 0
  /-- The order in which a map is iterated. -/
  iter : List Fh := []
  cached : Option (Option (Ino × Node)) := none

structure Setup where
  kernel : Kernel
  ex : Export
  dur : Durability
  maxHandles : UInt32
  /-- `chunk_size` of the client. -/
  chunkSize : UInt32

def answersOf (h : Host) (n : Nat) : List Response :=
  (h.replies.filter (·.1 = n)).map Prod.snd

/-- What a call of the kernel's `reply` leaves. -/
def World.replied (w : World) (a : Answer) : World :=
  let buf :=
    match w.call with
    | some ⟨.flush fh, _⟩ | some ⟨.fsync fh _, _⟩ => if a.isError then w.buf.report fh else w.buf
    | _ => w.buf
  { w with buf := { buf with owing := update buf.owing .fuse none }, call := none }

def World.setRpc (w : World) (n : Nat) (rpc : Rpc) : World :=
  { w with net := { w.net with rpcs := update w.net.rpcs n (some rpc) } }

/-- A new stream, with the frames that follow the request. -/
def World.post (w : World) (rpc : Rpc) (more : List WriteRequest) : World :=
  { w with
    net := { w.net with
      rpcs := update w.net.rpcs w.net.nextRpc (some rpc), nextRpc := w.net.nextRpc + 1 }
    host := { w.host with inbox := update w.host.inbox w.net.nextRpc more } }

def NetAct.exec (S : Setup) (a : Actor) (c : Chance) (w : World) :
    (op : NetAct) → Option (op.Ret × World)
  | .loadGen => some (w.net.gen, w)
  | .bumpGen => some ((), { w with net := { w.net with gen := w.net.gen + 1 } })
  | .nextSeq => some (w.net.seq, { w with net := { w.net with seq := w.net.seq + 1 } })
  | .liveConn => some (w.net.conn.filter (!w.net.closed ·), w)
  | .connect =>
    if c.fail then some (none, w)
    else
      let s := w.net.sessions
      some (some s, { w with
        net := { w.net with conn := some s, sessions := s + 1 }
        host := { w.host with
          tables := update w.host.tables s (.withLimit c.epoch S.maxHandles) } })
  | .send session request more purpose =>
    if c.fail || w.net.closed session then some (none, w)
    else
      some (some w.net.nextRpc, w.post
        { session, request, more, purpose
          mark := (w.call.map Call.mark).getD 0
          snapshot := ((w.buf.pool.flight a).map Flight.snapshot).getD [] } more)
  | .await n =>
    match w.net.rpcs n with
    | none => none
    | some rpc =>
      if c.fail then some (none, w.setRpc n { rpc with givenUp := true })
      else
        match (answersOf w.host n)[rpc.taken]? with
        | none => none
        | some r => some (some r, w.setRpc n { rpc with taken := rpc.taken + 1 })

/-- What a step of the stream `n` adds to the history. -/
def History.afterSys (hist : History) (rpc : Option Rpc) : (a : Sys) → a.Ret → History
  | .tryInsert _ h, r =>
    match (r : Option ServerHandle) with
    | some id => { hist with issued := update hist.issued id (some h.file.ino) }
    | none => hist
  | .setLen fd _, r =>
    match (r : Except Errno Unit), rpc with
    | .ok _, some rpc => { hist with truncs := (fd, rpc.mark) :: hist.truncs }
    | _, _ => hist
  | .openat2 _ flags _, r | .openPlain _ flags _, r =>
    match (r : Except Errno Ino), rpc with
    | .ok fd, some rpc =>
      if flags.trunc then { hist with truncs := (fd, rpc.mark) :: hist.truncs } else hist
    | _, _ => hist
  | _, _ => hist

/-- The record after a step of the stream `n`. -/
def History.record (hist : History) (n : Nat) (a : Sys) (r : a.Ret) : History :=
  { hist with log := hist.log ++ [⟨n, a, r⟩] }

def World.accept (w : World) (n : Nat) : Option (Incoming × World) :=
  match w.net.rpcs n with
  | none => none
  | some rpc =>
    if rpc.accepted then none
    else
      some (⟨rpc.session, rpc.request, rpc.more.length⟩, w.setRpc n { rpc with accepted := true })

/-- One step of a thread; `none` if it has to wait. -/
def World.exec (S : Setup) (t : Tid) (a : Act) (c : Chance) (w : World) : Option (a.Ret × World) :=
  match t, a with
  | .client actor, .buf op =>
    (op.exec actor w.now c.iter w.buf).map fun (r, buf) => (r, { w with buf })
  | .client _, .files op => let (r, files) := op.exec w.host.fs w.files; some (r, { w with files })
  | .client _, .paths op => let (r, inodes) := op.exec w.inodes; some (r, { w with inodes })
  | .client _, .cache op => some (op.answer c.cached, w)
  | .client _, .dev (.recv cb) => some ((), { w with call := some ⟨cb, w.buf.pool.next⟩ })
  | .client _, .dev (.reply a) => some ((), w.replied a)
  | .client actor, .net op => op.exec S actor c w
  | .stream n, .accept => w.accept n
  | .stream n, .sys a =>
    (a.exec S.kernel S.ex n c.toChoice w.host).map fun (r, host) =>
      (r, { w with host, hist := (w.hist.afterSys (w.net.rpcs n) a r).record n a r })
  | _, _ => none

/-- What happens by itself: a connection closes, time passes. -/
inductive Env where
  | close (session : Nat)
  | tick (n : Nat)

def World.env (w : World) : Env → World
  | .close s => { w with net := { w.net with closed := update w.net.closed s true } }
  | .tick n => { w with now := w.now + n }

/-- A fresh mount on one connection. -/
def World.init (S : Setup) (fs : Fs) (epoch : UInt32) (root : Path) (perHandle total window : Nat) :
    World where
  buf := .init (WriteBuffer.new perHandle total window)
  files := ⟨fun _ => none, 1, fun _ => none, fun _ => []⟩
  inodes := .new root
  net := ⟨0, some 0, 1, fun _ => false, 2, fun _ => none, 0⟩
  host := ⟨fs, fun _ => .withLimit epoch S.maxHandles, fun _ => [], fun _ => none, []⟩
  now := 0
  call := none
  hist := ⟨fun _ => none, [], []⟩

end QuicFs.System
