import QuicFs.Server.Sanitize

/-!
# The metadata handlers

The handlers of `server/src/ops/meta.rs` and `handle_create` of `ops/data.rs` as programs
over the system calls, each ending in its answer. `uid` and `gid` of SetAttr and `flags` of
Rename are read by no handler and left out. A handler that runs into the RPC's time limit
is dropped while it waits for the network, after its last system call; here its stream
takes no more steps.
-/

namespace QuicFs.Server

open Lib

inductive Request where
  | getAttr (seq : UInt64) (path : List Char)
  | setAttr (seq : UInt64) (path : List Char) (valid mode : UInt32) (size : UInt64)
    (atime mtime : Int64)
  | mkDir (seq : UInt64) (path : List Char) (mode : UInt32)
  | rmDir (seq : UInt64) (path : List Char)
  | unlink (seq : UInt64) (path : List Char)
  | rename (seq : UInt64) (old new : List Char)
  | symlink (seq : UInt64) (target link : List Char)
  | link (seq : UInt64) (path link : List Char)
  | open (seq : UInt64) (path : List Char) (flags : UInt32)
  | create (seq : UInt64) (path : List Char) (flags mode : UInt32)
  | release (seq : UInt64) (handle : ServerHandle)
  | read (seq : UInt64) (handle : ServerHandle) (offset : UInt64) (length : UInt32)
  /-- The first frame; the others follow on the stream. -/
  | write (seq : UInt64) (first : WriteRequest)
  | fsync (seq : UInt64) (handle : ServerHandle) (datasync : Bool)
  | readDir (seq : UInt64) (path : List Char) (cursor : UInt64)
  | readLink (seq : UInt64) (path : List Char)
  | statFs (seq : UInt64) (path : List Char)
  deriving DecidableEq

def bit (flags mask : UInt32) : Bool := flags &&& mask ≠ 0

def reply (r : Response) : Calls Unit := Prog.call (Sys.reply r)

/-- The status of an operation that answers nothing else. -/
def statusOf (p : Io Unit) : Calls Status :=
  p.toCalls.bind fun
    | .ok () => .ret .ok
    | .error e => .ret e.status

/-- `sync_parent_dir`; a failure is only logged. -/
def syncParentDir (resolved : RootPath) : Calls Unit :=
  if resolved = [] then .ret ()
  else (fsyncDirConfined resolved.dropLast).toCalls.bind fun _ => .ret ()

/-- `sync_parent_dir` after a success, when the session asks for it. -/
def syncIf (sync : Bool) (status : Status) (resolved : RootPath) : Calls Unit :=
  if status = .ok ∧ sync then syncParentDir resolved else .ret ()

def statIf (status : Status) (a : Sys) (f : a.Ret → Except Errno (Ino × Node)) :
    Calls (Option (Ino × Node)) :=
  if status = .ok then .act a fun r => .ret (f r).toOption else .ret none

section
variable (ex : Export)

/-- Resolve a path; a path that is refused is answered with `Permission`. -/
def withResolved (op : Op) (seq : UInt64) (path : List Char) (k : RootPath → Calls Unit) :
    Calls Unit :=
  (resolve ex path).bind fun
    | .error _ => reply { op, seq, status := .permission }
    | .ok resolved => k resolved

def handleGetattr (seq : UInt64) (path : List Char) : Calls Unit :=
  withResolved ex .getAttr seq path fun resolved =>
    .act (.stat resolved) fun (r : Except Errno (Ino × Node)) =>
      match r with
      | .ok st => reply { op := .getAttr, seq, status := .ok, stat := some st }
      | .error e => reply { op := .getAttr, seq, status := .ofIo e.kind }

/-- `ReadDir` answers at most so many entries. -/
def maxDirEntries : Nat := 256

/-- At most `room` entries from position `pos` on. -/
def collectEntries (dir : Ino) : (room : Nat) → (pos : Nat) → Calls (List DirEntry)
  | 0, _ => .ret []
  | room + 1, pos =>
    .act (.nextEntry dir pos) fun (name : Option Name) =>
      match name with
      | none => .ret []
      | some name =>
        .act (.statEntry dir name) fun (st : Except Errno (Ino × Node)) =>
          let (ino, mode) := (st.toOption.map fun st => (st.1, st.2.stMode)).getD (0, 0)
          (collectEntries dir room (pos + 1)).bind fun out => .ret (⟨name, ino, mode⟩ :: out)

/-- The entries after the first `skip`. -/
def dirEntries (dir : Ino) : (skip : Nat) → (pos : Nat) → Calls (List DirEntry)
  | 0, pos => collectEntries dir maxDirEntries pos
  | skip + 1, pos =>
    .act (.nextEntry dir pos) fun (name : Option Name) =>
      match name with
      | none => .ret []
      | some _ => dirEntries dir skip (pos + 1)

def handleReaddir (seq : UInt64) (path : List Char) (cursor : UInt64) : Calls Unit :=
  (resolve ex path).bind fun
    | .error _ => reply { op := .readDir, seq, status := .permission, eof := true }
    | .ok resolved =>
      .act (.readDir resolved) fun (r : Except Errno Ino) =>
        match r with
        | .error e => reply { op := .readDir, seq, status := .ofIo e.kind, cursor, eof := true }
        | .ok dir =>
          (dirEntries dir cursor.toNat 0).bind fun entries =>
            reply { op := .readDir, seq, status := .ok, entries,
                    cursor := cursor + UInt64.ofNat entries.length,
                    eof := entries.length < maxDirEntries }

def handleReadlink (seq : UInt64) (path : List Char) : Calls Unit :=
  withResolved ex .readLink seq path fun resolved =>
    (readlinkConfined ex resolved).toCalls.bind fun
      | .ok target => reply { op := .readLink, seq, status := .ok, target }
      | .error e => reply { op := .readLink, seq, status := e.status }

/-- `query_statfs` of a path that cannot be asked about answers the default figures. -/
def handleStatfs (seq : UInt64) (path : List Char) : Calls Unit :=
  withResolved ex .statFs seq path fun resolved =>
    .act (.statvfs resolved) fun (r : Except Errno (Ino × StatFs)) =>
      reply { op := .statFs, seq, status := .ok,
              statfs := some ((r.toOption.map Prod.snd).getD {}) }

variable (sync : Bool)

def handleMkdir (seq : UInt64) (path : List Char) (mode : UInt32) : Calls Unit :=
  withResolved ex .mkDir seq path fun resolved => do
    let status ← statusOf (mkdirConfined ex resolved mode)
    syncIf sync status resolved
    let stat ← statIf status (.stat resolved) id
    reply { op := .mkDir, seq, status, stat }

def handleRemove (op : Op) (isDir : Bool) (seq : UInt64) (path : List Char) : Calls Unit :=
  withResolved ex op seq path fun resolved => do
    let status ← statusOf (removeConfined ex resolved isDir)
    syncIf sync status resolved
    reply { op, seq, status }

def handleRmdir (seq : UInt64) (path : List Char) : Calls Unit :=
  handleRemove ex sync .rmDir true seq path

def handleUnlink (seq : UInt64) (path : List Char) : Calls Unit :=
  handleRemove ex sync .unlink false seq path

def handleRename (seq : UInt64) (old new : List Char) : Calls Unit :=
  withResolved ex .rename seq old fun old =>
    withResolved ex .rename seq new fun new => do
      let status ← statusOf (renameConfined ex old new)
      syncIf sync status old
      -- the parents of the root and of a path below it differ
      if old.dropLast ≠ new.dropLast ∨ old.isEmpty ≠ new.isEmpty then syncIf sync status new
      reply { op := .rename, seq, status }

def maxSymlinkTargetLen : Nat := 4096

def handleSymlink (seq : UInt64) (target link : List Char) : Calls Unit :=
  if utf8Len target > maxSymlinkTargetLen then reply { op := .symlink, seq, status := .invalidArg }
  else
    withResolved ex .symlink seq link fun link => do
      let status ← statusOf (symlinkConfined ex link target)
      syncIf sync status link
      let stat ← statIf status (.lstat link) id
      reply { op := .symlink, seq, status, stat }

def handleLink (seq : UInt64) (path link : List Char) : Calls Unit :=
  withResolved ex .link seq path fun src =>
    withResolved ex .link seq link fun dst => do
      let status ← statusOf (linkConfined ex src dst)
      syncIf sync status dst
      let stat ← statIf status (.stat dst) id
      reply { op := .link, seq, status, stat }

/-- `File::set_len`. -/
def setLen (fd : Ino) (size : UInt64) : Io Unit :=
  if size.toNat ≥ 2 ^ 63 then Io.throw (.kind .invalidInput) else Io.sys (.setLen fd size.toNat) id

def nsToTimespec (ns : Int64) : Timespec :=
  ⟨ns.toInt.tdiv 1000000000, ns.toInt.tmod 1000000000⟩

theorem nanos_nsToTimespec (ns : Int64) :
    (nsToTimespec ns).sec * 1000000000 + (nsToTimespec ns).nsec = ns.toInt := by
  have := Int.tdiv_mul_add_tmod ns.toInt 1000000000
  exact this

/-- The mode and the times, through one descriptor. -/
def setModeTimes (resolved : RootPath) (valid mode : UInt32) (atime mtime : Int64) : Io Unit := do
  let fd ← openConfined resolved { access := .path } 0
  Io.when (bit valid 0x1) (Io.sys (.fchmod fd (permBits mode)) id)
  Io.when (bit valid 0x10 || bit valid 0x20)
    (Io.sys (.utimens fd (if bit valid 0x10 then some (nsToTimespec atime) else none)
      (if bit valid 0x20 then some (nsToTimespec mtime) else none)) id)

/-- The changes of a SetAttr, up to the first that fails. -/
def applySetattr (resolved : RootPath) (valid mode : UInt32) (size : UInt64) (atime mtime : Int64) :
    Io Unit := do
  Io.when (bit valid 0x8) (do
    let fd ← openConfined resolved { access := .wronly, noFollow := true } 0
    setLen fd size)
  Io.when (bit valid (0x1 ||| 0x10 ||| 0x20)) (setModeTimes resolved valid mode atime mtime)

def handleSetattr (seq : UInt64) (path : List Char) (valid mode : UInt32) (size : UInt64)
    (atime mtime : Int64) : Calls Unit :=
  withResolved ex .setAttr seq path fun resolved => do
    let status ← statusOf (applySetattr resolved valid mode size atime mtime)
    if status ≠ .ok then reply { op := .setAttr, seq, status }
    else
      .act (.stat resolved) fun (r : Except Errno (Ino × Node)) =>
        match r with
        | .ok st => reply { op := .setAttr, seq, status := .ok, stat := some st }
        | .error e => reply { op := .setAttr, seq, status := .ofIo e.kind }

/-- The handle for an opened file, with its attributes. The key of the write lock is the
inode number, the files being all on one device. -/
def retain (op : Op) (session : Nat) (seq : UInt64) (resolved : RootPath)
    (flags : UInt32) (f : File) (k : Calls Unit) : Calls Unit :=
  .act (.fstat f.ino) fun (st : Except Errno (Ino × Node)) =>
    .act (.tryInsert session ⟨resolved, flags, f, f.ino⟩) fun (id : Option ServerHandle) =>
      match id with
      | none => reply { op, seq, status := .noSpace }
      | some handle =>
        k.bind fun _ => reply { op, seq, status := .ok, handle, stat := st.toOption }

/-- `O_TRUNC` of the client is not looked at. -/
def openFlags (flags : UInt32) : OpenFlags where
  access := if flags &&& 0x3 = 1 then .wronly else if flags &&& 0x3 = 2 then .rdwr else .rdonly
  append := bit flags 0x400

def handleOpen (session : Nat) (seq : UInt64) (path : List Char) (flags : UInt32) : Calls Unit :=
  withResolved ex .open seq path fun resolved =>
    (openConfined resolved (openFlags flags) 0).toCalls.bind fun
      | .error e => reply { op := .open, seq, status := e.status }
      | .ok fd => retain .open session seq resolved flags ⟨fd, (openFlags flags).access⟩ (.ret ())

def createFlags (flags : UInt32) : OpenFlags where
  access := .rdwr
  creat := true
  noFollow := true
  excl := bit flags 0x80
  trunc := bit flags 0x200
  append := bit flags 0x400

def handleCreate (session : Nat) (seq : UInt64) (path : List Char) (flags mode : UInt32) :
    Calls Unit :=
  withResolved ex .create seq path fun resolved =>
    (openConfined resolved (createFlags flags) (permBits mode)).toCalls.bind fun
      | .error e => reply { op := .create, seq, status := e.status }
      | .ok fd =>
        -- a failure of the chmod is ignored
        .act (.fchmod fd (permBits mode)) fun _ =>
          retain .create session seq resolved flags ⟨fd, .rdwr⟩ (syncIf sync .ok resolved)

end

/-- Forget a handle; with `onClose` its file is synced first. -/
def handleRelease (onClose : Bool) (session : Nat) (seq : UInt64) (handle : ServerHandle) :
    Calls Unit :=
  .act (.removeHandle session handle) fun (removed : Option OpenHandle) =>
    match removed with
    | some h =>
      if onClose then do
        let status ← statusOf (Io.sys (.fsync h.file.ino) id)
        reply { op := .release, seq, status }
      else reply { op := .release, seq, status := .ok }
    | none => reply { op := .release, seq, status := .ok }

end QuicFs.Server
