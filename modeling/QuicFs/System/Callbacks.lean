import QuicFs.System.World

/-!
# The client's tasks

`client/src/fuse_ops.rs`, the RPCs of `client/src/conn.rs` and the two flush tasks of
`client/src/mount.rs` as programs over the acts of a mount. Each callback runs between the
kernel's request and its reply. ReadLink, ReadDir and StatFs, which change nothing and read
no file, are left out; so are the callbacks that do nothing (`forget`, `opendir`,
`releasedir`).
-/

namespace QuicFs.System

open Lib Client Server

abbrev Task := Prog Act Act.Ret

section
variable (fh : Fh)

def push (offset : UInt64) (data : Bytes) : Task PushDecision :=
  Prog.call (Act.buf (.push fh offset data))
def beginFlush : Task (Option FlushBatch) := Prog.call (Act.buf (.beginFlush fh))
def ackFlush (sentCount : Nat) : Task Unit := Prog.call (Act.buf (.ackFlush fh sentCount))
def failFlush : Task Unit := Prog.call (Act.buf (.failFlush fh))
def dropHandle : Task Nat := Prog.call (Act.buf (.dropHandle fh))
def hasBuffered : Task Bool := Prog.call (Act.buf (.hasBuffered fh))
def handles : Task (List Fh) := Prog.call (Act.buf .handles)
def totalBytes : Task Nat := Prog.call (Act.buf .totalBytes)
def stickyInsert : Task Unit := Prog.call (Act.buf (.stickyInsert fh))
def stickyRemove : Task Bool := Prog.call (Act.buf (.stickyRemove fh))
def getOpen : Task (Option OpenFile) := Prog.call (Act.files (.get fh))
def restamp (handle : ServerHandle) (gen : Nat) : Task Unit :=
  Prog.call (Act.files (.restamp fh handle gen))
def reconnectGen : Task Nat := Prog.call (Act.net .loadGen)
def nextSeq : Task UInt64 := Prog.call (Act.net .nextSeq)
def pathFor (ino : FuseIno) : Task (Option Path) := Prog.call (Act.paths (.pathOf ino))
def getOrAlloc (path : Path) : Task FuseIno := Prog.call (Act.paths (.getOrAlloc path))
def send (session : Nat) (request : Request) (more : List WriteRequest) (purpose : Purpose) :
    Task (Option Nat) := Prog.call (Act.net (.send session request more purpose))
def await (n : Nat) : Task (Option Response) := Prog.call (Act.net (.await n))

end

/-! ## RPCs -/

/-- `ensure_conn`. The generation is bumped after the connection is installed. -/
def ensureConn : Task (Option Nat) := do
  match (← Prog.call (Act.net .liveConn) : Option Nat) with
  | some s => .ret (some s)
  | none =>
    match (← Prog.call (Act.net .connect) : Option Nat) with
    | none => .ret none
    | some s =>
      Prog.call (Act.net .bumpGen)
      .ret (some s)

def checkStatus (r : Response) : Except RpcError Response :=
  if r.status = .ok then .ok r else .error (.server r.status)

def awaitChecked (n : Nat) : Task (Except RpcError Response) := do
  match ← await n with
  | none => .ret (.error .other)
  | some r => .ret (checkStatus r)

def rpc (purpose : Purpose) (request : UInt64 → Request) : Task (Except RpcError Response) := do
  let seq ← nextSeq
  match ← ensureConn with
  | none => .ret (.error .other)
  | some s =>
    match ← send s (request seq) [] purpose with
    | none => .ret (.error .other)
    | some n => awaitChecked n

def rpcStat (purpose : Purpose) (request : UInt64 → Request) :
    Task (Except RpcError (Response × Ino × Node)) := do
  match ← rpc purpose request with
  | .error e => .ret (.error e)
  | .ok r =>
    match r.stat with
    | none => .ret (.error .other)
    | some st => .ret (.ok (r, st))

/-- Collect the frames of a Read; every frame but the last has a byte, so the length and one
more is enough fuel. -/
def readFrames (n : Nat) : Nat → Bytes → Task (Except RpcError Bytes)
  | 0, _ => .ret (.error .other)
  | fuel + 1, got => do
    match ← awaitChecked n with
    | .error e => .ret (.error e)
    | .ok r => if r.eof then .ret (.ok (got ++ r.data)) else readFrames n fuel (got ++ r.data)

def connRead (fh : Fh) (handle : ServerHandle) (offset : UInt64) (length : UInt32) :
    Task (Except RpcError Bytes) := do
  match ← ensureConn with
  | none => .ret (.error .other)
  | some s =>
    let seq ← nextSeq
    match ← send s (.read seq handle offset length) [] (.read fh) with
    | none => .ret (.error .other)
    | some n => readFrames n (length.toNat + 1) []

/-- With no data nothing is sent and the deadline comes. That no frame is too long for `write_frame`
once the server has accepted the chunk size is `reach_posted`. -/
def connWrite (chunkSize : UInt32) (fh : Fh) (handle : ServerHandle) (offset : UInt64)
    (data : Bytes) : Task (Except RpcError Unit) := do
  match ← ensureConn with
  | none => .ret (.error .other)
  | some s =>
    let seq ← nextSeq
    match writeFrames chunkSize handle offset data with
    | [] => .ret (.error .other)
    | first :: more =>
      match ← send s (.write seq first) more (.write fh) with
      | none => .ret (.error .other)
      | some n =>
        match ← awaitChecked n with
        | .error e => .ret (.error e)
        | .ok _ => .ret (.ok ())

/-! ## Live handles and flushes -/

/-- Drop what an append handle buffers, with the sticky error. -/
def dropAppends (fh : Fh) (isAppend : Bool) : Task Unit := do
  if isAppend then
    if ← hasBuffered fh then
      let dropped ← dropHandle fh
      if dropped > 0 then stickyInsert fh else .ret ()
    else .ret ()
  else .ret ()

/-- The live server handle of an open file, reopened by its path after a reconnect. -/
def ensureLive (fh : Fh) (allowReopen : Bool) : Task (Option ServerHandle) := do
  let cur ← reconnectGen
  match ← getOpen fh with
  | none => .ret none
  | some f =>
    if f.openedGen = cur then .ret (some f.serverHandle)
    else if !allowReopen then .ret none
    else
      match ← rpcStat (.reopen fh) fun seq => .open seq f.path (reopenFlags f.flags) with
      | .error _ => .ret none
      | .ok (r, _) =>
        restamp fh r.handle cur
        dropAppends fh f.isAppend
        .ret (some r.handle)

section
variable (chunkSize : UInt32) (fh : Fh)

def sendBatch (handle : ServerHandle) : List (UInt64 × Bytes) → Task (Except RpcError Unit)
  | [] => .ret (.ok ())
  | (offset, data) :: runs => do
    match ← connWrite chunkSize fh handle offset data with
    | .error e => .ret (.error e)
    | .ok () => sendBatch handle runs

variable (allowReopen : Bool)

/-- The attempts of `flush_one`. -/
def flushAttempts : Nat → RpcError → Task (Except RpcError Unit)
  | 0, last => .ret (.error last)
  | k + 1, _ => do
    match ← ensureLive fh allowReopen with
    | none => if ← hasBuffered fh then .ret (.error .other) else .ret (.ok ())
    | some handle =>
      match ← beginFlush fh with
      | none => .ret (.ok ())
      | some batch =>
        let genBefore ← reconnectGen
        match ← sendBatch chunkSize fh handle batch.chunks with
        | .ok () =>
          ackFlush fh batch.sentCount
          .ret (.ok ())
        | .error e =>
          let file ← getOpen fh
          if (file.map OpenFile.isAppend).getD false then
            let _ ← dropHandle fh
            stickyInsert fh
            .ret (.error e)
          else
            failFlush fh
            if allowReopen then
              let gen ← reconnectGen
              if gen ≠ genBefore then flushAttempts k e else .ret (.error e)
            else .ret (.error e)

/-- `flush_one`: at most two attempts. -/
def flushOne : Task (Except RpcError Unit) := flushAttempts chunkSize fh allowReopen 2 .other

def flushHandle : Task (Except RpcError Unit) := flushOne chunkSize fh true

/-- `flush_handle_drain`, with the rounds that are left. -/
def drainRounds : Nat → Task (Except RpcError Unit)
  | 0 => .ret (.error .other)
  | k + 1 => do
    match ← flushHandle chunkSize fh with
    | .error e => .ret (.error e)
    | .ok () => if ← hasBuffered fh then drainRounds k else .ret (.ok ())

def flushHandleDrain : Task (Except RpcError Unit) := drainRounds chunkSize fh 500

/-- Flush each handle; the first error is kept. -/
def flushEach : List Fh → Option RpcError → Task (Except RpcError Unit)
  | [], none => .ret (.ok ())
  | [], some e => .ret (.error e)
  | fh :: fhs, first => do
    match ← flushHandle chunkSize fh with
    | .ok () => flushEach fhs first
    | .error e => flushEach fhs (first.or (some e))

def flushAllHandles : Task (Except RpcError Unit) := do
  let hs ← handles
  flushEach chunkSize hs none

def fenceTruncatingOpen (flags : UInt32) : Task (Except RpcError Unit) := do
  if !bit flags oTrunc then .ret (.ok ())
  else
    let total ← totalBytes
    if total = 0 then .ret (.ok ()) else flushAllHandles chunkSize

def fenceSetattr (size : Option UInt64) (fh : Option Fh) : Task (Except RpcError Unit) :=
  match size, fh with
  | none, _ => .ret (.ok ())
  | some _, some fh => flushHandle chunkSize fh
  | some _, none => flushAllHandles chunkSize

end

/-! ## The callbacks -/

def withPath (ino : FuseIno) (k : Path → Task Answer) : Task Answer := do
  match ← pathFor ino with
  | none => .ret (.error .enoent)
  | some path => k path

def replyAttr (path : Path) (st : Ino × Node) : Task Answer := do
  let ino ← getOrAlloc path
  .ret (.attr ino st)

/-- The callbacks whose reply is the outcome of one RPC. -/
def viaStat (path : Path) (purpose : Purpose) (request : UInt64 → Request) : Task Answer := do
  match ← rpcStat purpose request with
  | .error e => .ret (.error (rpcToErrno e))
  | .ok (_, st) => replyAttr path st

/-- Likewise without attributes; on success a change of the path table. -/
def viaStatus (request : UInt64 → Request) (done : PathAct) : Task Answer := do
  match ← rpc .other request with
  | .error e => .ret (.error (rpcToErrno e))
  | .ok _ => Prog.act (.paths done) fun _ => .ret .ok

section
variable (chunkSize : UInt32)

/-- Flush whatever is buffered before the server's attributes are looked at; whether that
succeeded. -/
def flushPending : Task Bool := do
  let total ← totalBytes
  if total > 0 then
    match ← flushAllHandles chunkSize with
    | .ok () => .ret true
    | .error _ => .ret false
  else .ret true

/-- `get_stat`. An answer is cached only if the flush before it succeeded. -/
def getStat (path : Path) : Task (Except FuseErrno (Ino × Node)) := do
  let flushOk ← flushPending chunkSize
  match (← Prog.call (Act.cache (.get path)) : Option (Option (Ino × Node))) with
  | some (some st) => .ret (.ok st)
  | some none => .ret (.error .enoent)
  | none =>
    match ← rpcStat .other fun seq => .getAttr seq path with
    | .ok (_, st) =>
      if flushOk then Prog.act (.cache (.insert path st)) fun _ => .ret (.ok st) else .ret (.ok st)
    | .error e =>
      if e = .server .notFound then
        Prog.act (.cache (.insertNegative path)) fun _ => .ret (.error .enoent)
      else .ret (.error .eio)

/-- `lookup` and `getattr` of a path. -/
def attrOf (path : Path) : Task Answer := do
  match ← getStat chunkSize path with
  | .ok st => replyAttr path st
  | .error e => .ret (.error e)

/-- The attributes a `setattr` asks to change. -/
def validBits (mode uid gid : Option UInt32) (size : Option UInt64) (atime mtime : Option Int64) :
    UInt32 :=
  (if mode.isSome then 0x1 else 0) ||| (if uid.isSome then 0x2 else 0) |||
  (if gid.isSome then 0x4 else 0) ||| (if size.isSome then 0x8 else 0) |||
  (if atime.isSome then 0x10 else 0) ||| (if mtime.isSome then 0x20 else 0)

def setattr (ino : FuseIno) (mode uid gid : Option UInt32) (size : Option UInt64)
    (atime mtime : Option Int64) (fh : Option Fh) : Task Answer :=
  withPath ino fun path => do
    match ← fenceSetattr chunkSize size fh with
    | .error e => .ret (.error (rpcToErrno e))
    | .ok () =>
      viaStat path (if size.isSome then .truncate fh else .other) fun seq =>
        .setAttr seq path (validBits mode uid gid size atime mtime) (mode.getD 0) (size.getD 0)
          (atime.getD 0) (mtime.getD 0)

/-- `register_open`: a new client handle for a server handle. -/
def registerOpen (path : Path) (flags : UInt32) (handle : ServerHandle) (home : Ino) : Task Fh :=
  Prog.act (.files .nextFh) fun (fh : Fh) => do
    let gen ← reconnectGen
    Prog.act (.files (.insert fh ⟨path, flags, handle, gen, bit flags oAppend⟩ home)) fun _ =>
      .ret fh

def openFile (ino : FuseIno) (flags : UInt32) : Task Answer :=
  withPath ino fun path => do
    match ← fenceTruncatingOpen chunkSize flags with
    | .error e => .ret (.error (rpcToErrno e))
    | .ok () =>
      match ← rpcStat .open fun seq => .open seq path flags with
      | .error e => .ret (.error (rpcToErrno e))
      | .ok (r, st) =>
        let fh ← registerOpen path flags r.handle st.1
        .ret (.opened fh)

def create (parent : FuseIno) (name : Name) (mode flags : UInt32) : Task Answer :=
  withPath parent fun parent => do
    match ← fenceTruncatingOpen chunkSize flags with
    | .error e => .ret (.error (rpcToErrno e))
    | .ok () =>
      match ← rpcStat .open fun seq => .create seq (childPath parent name) flags mode with
      | .error e => .ret (.error (rpcToErrno e))
      | .ok (r, st) =>
        let fh ← registerOpen (childPath parent name) flags r.handle st.1
        let ino ← getOrAlloc (childPath parent name)
        .ret (.created ino st fh)

def read (fh : Fh) (offset : UInt64) (size : UInt32) : Task Answer := do
  match ← flushHandle chunkSize fh with
  | .error e => .ret (.error (rpcToErrno e))
  | .ok () =>
    match ← ensureLive fh true with
    | none => .ret (.error .estale)
    | some handle =>
      match ← connRead fh handle offset size with
      | .error e => .ret (.error (rpcToErrno e))
      | .ok data => .ret (.data data)

def write (fh : Fh) (offset : UInt64) (data : Bytes) : Task Answer := do
  let _ ← ensureLive fh true
  match ← push fh offset data with
  | .buffered => .ret (.written data.length)
  | .flushThis h | .flushOther h =>
    let _ ← flushHandle chunkSize h
    .ret (.written data.length)
  | .reject =>
    stickyInsert fh
    .ret (.error .eio)

/-- Drain a handle and take its sticky error, as `flush` and `fsync` begin. -/
def drainReply (fh : Fh) : Task (Except FuseErrno Unit) := do
  match ← flushHandleDrain chunkSize fh with
  | .ok () =>
    let hadSticky ← stickyRemove fh
    .ret (flushReply none hadSticky)
  | .error e =>
    let hadSticky ← stickyRemove fh
    .ret (flushReply (some (rpcToErrno e)) hadSticky)

def flush (fh : Fh) : Task Answer := do
  match ← drainReply chunkSize fh with
  | .ok () => .ret .ok
  | .error errno => .ret (.error errno)

def fsync (fh : Fh) (datasync : Bool) : Task Answer := do
  match ← drainReply chunkSize fh with
  | .error errno => .ret (.error errno)
  | .ok () =>
    match ← ensureLive fh true with
    | none => .ret (.error .estale)
    | some handle =>
      match ← rpc .other fun seq => .fsync seq handle datasync with
      | .error e => .ret (.error (rpcToErrno e))
      | .ok _ => .ret .ok

def release (fh : Fh) : Task Answer := do
  let _ ← flushHandleDrain chunkSize fh
  let _ ← stickyRemove fh
  Prog.act (.files (.remove fh)) fun (file : Option OpenFile) => do
    let _ ← dropHandle fh
    match file with
    | none => .ret .ok
    | some f =>
      let _ ← rpc .other fun seq => .release seq f.serverHandle
      .ret .ok

def callback : Callback → Task Answer
  | .lookup parent name => withPath parent fun p => attrOf chunkSize (childPath p name)
  | .getattr ino => withPath ino fun p => attrOf chunkSize p
  | .setattr ino mode uid gid size atime mtime fh =>
    setattr chunkSize ino mode uid gid size atime mtime fh
  | .mkdir parent name mode =>
    withPath parent fun p =>
      viaStat (childPath p name) .other fun seq => .mkDir seq (childPath p name) mode
  | .unlink parent name =>
    withPath parent fun p =>
      viaStatus (fun seq => .unlink seq (childPath p name)) (.removePath (childPath p name))
  | .rmdir parent name =>
    withPath parent fun p =>
      viaStatus (fun seq => .rmDir seq (childPath p name)) (.removePath (childPath p name))
  | .symlink parent name target =>
    withPath parent fun p =>
      viaStat (childPath p name) .other fun seq => .symlink seq target (childPath p name)
  | .rename parent name newParent newName =>
    withPath parent fun p => withPath newParent fun p' =>
      viaStatus (fun seq => .rename seq (childPath p name) (childPath p' newName))
        (.renameIno (childPath p name) (childPath p' newName))
  | .link ino newParent newName =>
    withPath ino fun src => withPath newParent fun p =>
      viaStat (childPath p newName) .other fun seq => .link seq src (childPath p newName)
  | .open ino flags => openFile chunkSize ino flags
  | .read fh offset size => read chunkSize fh offset size
  | .write fh offset data => write chunkSize fh offset data
  | .flush fh => flush chunkSize fh
  | .release fh => release chunkSize fh
  | .fsync fh datasync => fsync chunkSize fh datasync
  | .create parent name mode flags => create chunkSize parent name mode flags

def serve (cb : Callback) : Task Unit :=
  Prog.act (.dev (.recv cb)) fun _ => do
    let a ← callback chunkSize cb
    Prog.call (Act.dev (.reply a))

/-! ## The flush tasks -/

/-- `MAX_UNACKED_AGE`, in milliseconds. -/
def maxUnackedAge : Nat := 120 * 1000

def dropOld : List Fh → Task Unit
  | [] => .ret ()
  | fh :: fhs => do
    let dropped ← dropHandle fh
    if dropped > 0 then
      stickyInsert fh
      dropOld fhs
    else dropOld fhs

def flushList (allowReopen : Bool) : List Fh → Task Unit
  | [] => .ret ()
  | fh :: fhs => do
    let _ ← flushOne chunkSize fh allowReopen
    flushList allowReopen fhs

def backgroundTick : Task Unit :=
  Prog.act (.buf (.olderThan maxUnackedAge)) fun (tooOld : List Fh) => do
    dropOld tooOld
    Prog.act (.buf .expiredHandles) fun (expired : List Fh) => flushList chunkSize false expired

def unmountFlush : Task Unit := do
  let hs ← handles
  flushList chunkSize true hs

end

/-! ## The machine -/

/-- What a thread is started on. -/
inductive Job where
  | callback (cb : Callback)
  | tick
  | unmount
  | stream

/-- A program of the server as a program of the mount. -/
def onServer {α : Type} : Calls α → Task α
  | .ret x => .ret x
  | .act a k => .act (.sys a) fun r => onServer (k r)

def serveStream (S : Setup) : Task Unit :=
  Prog.act .accept fun (q : Incoming) => onServer (handle S.ex S.dur q.frames q.session q.request)

/-- The tasks of a mount and the streams of its server. -/
def mountMachine (S : Setup) : Machine Act Act.Ret World Tid Chance Job Env where
  exec := World.exec S
  env e w := some (w.env e)
  prog
    | .client .fuse, .callback cb => serve S.chunkSize cb
    | .client .bg, .tick => backgroundTick S.chunkSize
    | .client .shutdown, .unmount => unmountFlush S.chunkSize
    | .stream _, .stream => serveStream S
    | _, _ => .ret ()

/-! ## A small mount -/

/-- A host whose `/` holds an empty directory `/srv`, which is exported. -/
def smallNodes : List Node :=
  [⟨.dir [(['s', 'r', 'v'], 1)], 0o755, 0, 0⟩, ⟨.dir [], 0o755, 0, 0⟩]

def smallSetup : Setup := ⟨linux, srv, ⟨false, false⟩, 100, 65536⟩

/-- Mounted at its root, with room for a million bytes on a handle and a window of 10 ms. -/
def smallMount : World :=
  .init smallSetup ⟨fun i => smallNodes[i]?, 2, fun _ hi => List.getElem?_eq_none hi⟩ 7 ['/']
    1000000 10000000 10

abbrev MountLabel := Label Tid Chance Job Env

/-- The next `n` acts of a thread, none of which fails. -/
def acts (t : Tid) (n : Nat) : List MountLabel := List.replicate n (.run t {})

/-- The stream `n` is taken up and takes `k` steps. -/
def taken (n k : Nat) : List MountLabel := .start (.stream n) .stream :: acts (.stream n) k

/-- A callback, up to its `n`th act. -/
def called (cb : Callback) (n : Nat) : List MountLabel :=
  .start (.client .fuse) (.callback cb) :: acts (.client .fuse) n

/-- A round of the background task that finds nothing too old and the handle `1` due, up to the
`n`th act after that. -/
def ticked (n : Nat) : List MountLabel :=
  .start (.client .bg) .tick :: .run (.client .bg) {} :: .run (.client .bg) { iter := [1] } ::
    acts (.client .bg) n

/-- `/a` is created and opened as the handle `1`. -/
def createA : List MountLabel :=
  called (.create 1 ['a'] 0o644 2) 5 ++ taken 0 7 ++ acts (.client .fuse) 6

end QuicFs.System
