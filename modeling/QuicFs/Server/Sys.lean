import QuicFs.Lib.Prog
import QuicFs.Server.Data
import QuicFs.Server.Handles

/-!
# System calls of the request handlers

One action of `Sys` is one system call of a handler, one short critical section on the
handle table, or one wait on the network, the finest grain at which the handlers of
different streams interleave. A descriptor is the inode it pins. The `Choice` of a step
may be a fault, with which the call fails and does nothing, and may cut a read or a write
short.

`Kernel` is what is assumed of `openat2` with `RESOLVE_BENEATH | RESOLVE_NO_MAGICLINKS`:
the object or the directory it arrives at is beneath the directory it starts from. `linux`
is the walk of `Fs.lean`, which is confined in that sense. Paths are relative to the export
root, which is where every path of the server starts.
-/

namespace QuicFs.Server

open Lib

structure Kernel where
  /-- Where `openat2(RESOLVE_BENEATH)` arrives; the flag says whether a last link is followed. -/
  beneath : Fs → Ino → Bool → List Name → WalkEnd
  confined : ∀ fs r follow todo, (beneath fs r follow todo).Stacks fun st => Beneath fs r (top r st)
  /-- The kernel has the system call (5.6 and later). -/
  hasOpenat2 : Bool

def linux : Kernel where
  beneath fs r follow todo :=
    if utf8Len (List.intercalate ['/'] todo) < pathMax then
      walk fs r true follow maxSymlinks [] todo
    else .err .enametoolong
  confined fs r follow todo := by
    split
    swap
    · trivial
    have h : (walk fs r true follow maxSymlinks [] todo).Stacks (Chain fs r) :=
      walk_chain maxSymlinks trivial
    cases e : walk fs r true follow maxSymlinks [] todo with
    | found stack => rw [e] at h; exact h.beneath
    | absent stack name => rw [e] at h; exact h.beneath
    | link stack todo => rw [e] at h; exact h.beneath
    | err _ => trivial
  hasOpenat2 := true

/-- The export root: its inode, the entries from `/` down to it, the last one first, and its path as
it is configured, which may be relative. The server starts only if the path leads somewhere. -/
structure Export where
  root : Ino
  stack : List (Name × Ino)
  text : List Char
  text_ne : text ≠ []
  text_fits : utf8Len text < pathMax

namespace Export

/-- `root.join`. -/
def joined (ex : Export) (path : RootPath) : List Char := (path.map (·.1)).foldl pushName ex.text

def Fits (ex : Export) (path : RootPath) : Prop := utf8Len (ex.joined path) < pathMax

instance (ex : Export) (path : RootPath) : Decidable (ex.Fits path) :=
  inferInstanceAs (Decidable (_ < _))

end Export

/-- The export of `/srv`, where the runs below take place. -/
def srv : Export := ⟨1, [(['s', 'r', 'v'], 1)], ['/', 's', 'r', 'v'], by decide, by decide⟩

structure OpenFlags where
  access : Access
  creat : Bool := false
  excl : Bool := false
  trunc : Bool := false
  append : Bool := false
  noFollow : Bool := false
  directory : Bool := false
  deriving DecidableEq, Repr

structure Timespec where
  sec : Int
  nsec : Int
  deriving DecidableEq, Repr

def Timespec.Valid (ts : Timespec) : Prop := 0 ≤ ts.nsec ∧ ts.nsec < 1000000000

instance (ts : Timespec) : Decidable ts.Valid := inferInstanceAs (Decidable (_ ∧ _))

inductive Op where
  | getAttr | read | write | fsync | release | setAttr | mkDir | rmDir | unlink | rename | symlink
  | link | open | create
  | readDir | readLink | statFs
  deriving DecidableEq, Repr

/-- An entry of a directory as it is sent. -/
structure DirEntry where
  name : Name
  ino : Ino
  mode : Nat
  deriving DecidableEq, Repr

/-- What a filesystem says of itself; all zero by default. -/
structure StatFs where
  blocks : UInt64 := 0
  bfree : UInt64 := 0
  bavail : UInt64 := 0
  files : UInt64 := 0
  ffree : UInt64 := 0
  bsize : UInt32 := 0
  namelen : UInt32 := 0
  frsize : UInt32 := 0
  deriving DecidableEq, Repr

/-- A frame a handler answers with; the fields after `status` where the operation has them. -/
structure Response where
  op : Op
  seq : UInt64
  status : Status
  handle : ServerHandle := 0
  stat : Option (Ino × Node) := none
  written : Nat := 0
  offset : UInt64 := 0
  data : Bytes := []
  eof : Bool := false
  entries : List DirEntry := []
  cursor : UInt64 := 0
  target : List Char := []
  statfs : Option StatFs := none

inductive Sys where
  /-- `Path::exists`. -/
  | exists (path : RootPath)
  /-- Whether `symlink_metadata` finds a symbolic link. -/
  | isSymlink (path : RootPath)
  | lstat (path : RootPath)
  | stat (path : RootPath)
  | canonicalize (path : RootPath)
  /-- `read_dir`: the directory, opened. -/
  | readDir (path : RootPath)
  /-- The entry at a position of an opened directory. -/
  | nextEntry (dir : Ino) (pos : Nat)
  /-- `DirEntry::metadata`: of the name in the opened directory, a link not followed. -/
  | statEntry (dir : Ino) (name : Name)
  | readlinkat (dir : Ino) (name : Component)
  | statvfs (path : RootPath)
  | openat2 (path : RootPath) (flags : OpenFlags) (mode : Nat)
  | openPlain (path : RootPath) (flags : OpenFlags) (mode : Nat)
  | mkdirat (dir : Ino) (name : Component) (mode : Nat)
  | fchmodat (dir : Ino) (name : Component) (mode : Nat)
  | unlinkat (dir : Ino) (name : Component) (removeDir : Bool)
  | symlinkat (target : List Char) (dir : Ino) (name : Component)
  | linkat (dir : Ino) (name : Component) (dir' : Ino) (name' : Component)
  | renameat (dir : Ino) (name : Component) (dir' : Ino) (name' : Component)
  | setLen (fd : Ino) (size : Nat)
  | fchmod (fd : Ino) (mode : Nat)
  | utimens (fd : Ino) (atime mtime : Option Timespec)
  | fstat (fd : Ino)
  | fsync (fd : Ino)
  | tryInsert (session : Nat) (h : OpenHandle)
  | getFile (session : Nat) (id : ServerHandle)
  | getWriteCtx (session : Nat) (id : ServerHandle)
  | removeHandle (session : Nat) (id : ServerHandle)
  | lockStripe (i : Nat)
  | unlockStripe (i : Nat)
  | recvFrame
  | writeAt (f : File) (offset : UInt64) (data : Bytes) (append : Bool)
  | readAt (f : File) (offset : UInt64) (len : Nat)
  | reply (r : Response)

/-- The type of the answer. With what is read from an object comes the object. -/
def Sys.Ret : Sys → Type
  | .exists _ | .isSymlink _ => Bool
  | .lstat _ | .stat _ | .fstat _ | .statEntry .. => Except Errno (Ino × Node)
  | .canonicalize _ => Except Errno (List Name)
  | .openat2 .. | .openPlain .. | .readDir _ => Except Errno Ino
  | .nextEntry .. => Option Name
  | .readlinkat .. => Except Errno (Ino × List Char)
  | .statvfs _ => Except Errno (Ino × StatFs)
  | .tryInsert .. => Option ServerHandle
  | .getFile .. => Option File
  | .getWriteCtx .. => Option (File × UInt32 × Nat)
  | .removeHandle .. => Option OpenHandle
  | .lockStripe _ => Bool
  | .recvFrame => Option WriteRequest
  | .writeAt .. => Option IoErrorKind
  | .readAt .. => Except IoErrorKind Bytes
  | .reply _ | .unlockStripe _ => Unit
  | .mkdirat .. | .fchmodat .. | .unlinkat .. | .symlinkat .. | .linkat ..
  | .renameat .. | .setLen .. | .fchmod .. | .utimens .. | .fsync _ => Except Errno Unit

/-- The server host: its filesystem, the handle tables of the sessions, the frames of each
stream that have not been read, the stripes of the write lock, and the answers sent, each
with its stream. -/
structure Host where
  fs : Fs
  tables : Nat → HandleTable
  inbox : Nat → List WriteRequest
  stripes : Nat → Option Nat
  replies : List (Nat × Response)

/-- What a step leaves to the outside: an error, how many bytes a read or write takes, and
the figures of a filesystem. -/
structure Choice where
  fault : Option Errno := none
  room : Option Nat := none
  figures : StatFs := {}
  deriving DecidableEq, Repr

namespace Fs

/-- A directory that holds `d`, and the name of `d` in it. -/
def parentOf (fs : Fs) (d : Ino) : Option (Ino × Name) :=
  (List.range fs.next).findSome? fun p =>
    ((fs.entries p).getD []).findSome? fun e => if e.2 = d then some (p, e.1) else none

/-- The entries from `/` down to a directory, which is on top. -/
def stackOf (fs : Fs) : Nat → Ino → List (Name × Ino)
  | 0, d => [([], d)]
  | fuel + 1, d =>
    if d = slash then []
    else
      match fs.parentOf d with
      | none => [([], d)]
      | some (p, name) => (name, d) :: fs.stackOf fuel p

theorem top_stackOf (fs : Fs) (fuel : Nat) (d : Ino) : top slash (fs.stackOf fuel d) = d := by
  cases fuel with
  | zero => rfl
  | succ fuel =>
    unfold stackOf
    split
    · next e => exact e.symm
    · split <;> rfl

/-- What an `open` does once the walk has ended. -/
def openAt (fs : Fs) (base : Ino) (flags : OpenFlags) (mode : Nat) :
    WalkEnd → Except Errno (Ino × Fs)
  | .err e => .error e
  | .link .. => .error .eloop
  | .absent stack name =>
    if flags.creat then
      .ok (fs.next, fs.create (top base stack) name (.file []) mode)
    else .error .enoent
  | .found stack =>
    let i := top base stack
    if flags.creat && flags.excl then .error .eexist
    else
      match fs.nodes i with
      | none => .error .enoent
      | some n =>
        match n.kind with
        | .symlink _ => if flags.access = .path then .ok (i, fs) else .error .eloop
        | .dir _ =>
          if flags.creat || flags.access = .wronly || flags.access = .rdwr then .error .eisdir
          else .ok (i, fs)
        | .file _ =>
          if flags.directory then .error .enotdir
          else if flags.trunc then .ok (i, fs.set i (some { n with kind := .file [] }))
          else .ok (i, fs)

def mkdirat (fs : Fs) (d : Ino) (name : Name) (mode : Nat) : Except Errno Fs :=
  match fs.entries d with
  | none => .error .enoent
  | some es =>
    if (es.lookup name).isSome then .error .eexist else .ok (fs.create d name (.dir []) mode)

def symlinkat (fs : Fs) (target : List Char) (d : Ino) (name : Name) : Except Errno Fs :=
  if target = [] then .error .enoent
  else if pathMax ≤ utf8Len target then .error .enametoolong
  else
    match fs.entries d with
    | none => .error .enoent
    | some es =>
      if (es.lookup name).isSome then .error .eexist
      else .ok (fs.create d name (.symlink target) 0o777)

def unlinkat (fs : Fs) (d : Ino) (name : Name) (removeDir : Bool) : Except Errno Fs :=
  match fs.lookup d name with
  | none => .error .enoent
  | some i =>
    match fs.entries i with
    | none => if removeDir then .error .enotdir else .ok (fs.dropEntry d name)
    | some es =>
      if !removeDir then .error .eisdir
      else if es ≠ [] then .error .enotempty
      else .ok ((fs.dropEntry d name).set i none)

def linkat (fs : Fs) (d : Ino) (name : Name) (d' : Ino) (name' : Name) : Except Errno Fs :=
  match fs.lookup d name with
  | none => .error .enoent
  | some i =>
    if !fs.isDir d' then .error .enoent
    else if (fs.lookup d' name').isSome then .error .eexist
    else if fs.isDir i then .error .eperm
    else .ok (fs.addEntry d' name' i)

/-- Move the entry over whatever is at the destination. -/
def moveEntry (fs : Fs) (d : Ino) (name : Name) (d' : Ino) (name' : Name) (i : Ino) : Fs :=
  ((fs.dropEntry d name).dropEntry d' name').addEntry d' name' i

def renameat (fs : Fs) (d : Ino) (name : Name) (d' : Ino) (name' : Name) : Except Errno Fs :=
  match fs.lookup d name with
  | none => .error .enoent
  | some i =>
    if !fs.isDir d' then .error .enoent
    else if fs.isDir i ∧ i ∈ (fs.stackOf fs.next d').map Prod.snd then .error .einval
    else
      match fs.lookup d' name' with
      | none => .ok (fs.moveEntry d name d' name' i)
      | some j =>
        if i = j then .ok fs
        else
          match fs.entries i, fs.entries j with
          | some _, none => .error .enotdir
          | none, some _ => .error .eisdir
          | none, none => .ok (fs.moveEntry d name d' name' i)
          | some _, some es =>
            if es ≠ [] then .error .enotempty else .ok ((fs.moveEntry d name d' name' i).set j none)

def modify (fs : Fs) (i : Ino) (f : Node → Node) : Except Errno Fs :=
  match fs.nodes i with
  | none => .error .enoent
  | some n => .ok (fs.set i (some (f n)))

/-- `utimensat`; a time that is left out stays. -/
def utimens (fs : Fs) (i : Ino) (atime mtime : Option Timespec) : Except Errno Fs :=
  if (∀ ts ∈ atime, ts.Valid) ∧ ∀ ts ∈ mtime, ts.Valid then
    fs.modify i fun n =>
      { n with
        atime := (atime.map fun ts => ts.sec * 1000000000 + ts.nsec).getD n.atime
        mtime := (mtime.map fun ts => ts.sec * 1000000000 + ts.nsec).getD n.mtime }
  else .error .einval

/-- `readlinkat`. -/
def readlinkat (fs : Fs) (d : Ino) (name : Name) : Except Errno (Ino × List Char) :=
  match fs.lookup d name with
  | none => .error .enoent
  | some i =>
    match fs.kind i with
    | some (.symlink target) => .ok (i, target)
    | _ => .error .einval

/-- `fstatat` that follows no link. -/
def fstatat (fs : Fs) (d : Ino) (name : Name) : Except Errno (Ino × Node) :=
  match fs.lookup d name with
  | none => .error .enoent
  | some i =>
    match fs.nodes i with
    | some n => .ok (i, n)
    | none => .error .enoent

/-- `fchmodat` with no flags: a symbolic link at the name is followed, to wherever it leads. -/
def fchmodat (fs : Fs) (d : Ino) (name : Name) (mode : Nat) : Except Errno Fs :=
  match walk fs slash false true maxSymlinks (fs.stackOf fs.next d) [name] with
  | .found stack => fs.modify (top slash stack) ({ · with mode })
  | .absent .. => .error .enoent
  | .err e => .error e
  | .link .. => .error .eloop

def content (fs : Fs) (i : Ino) : Option Bytes :=
  match fs.kind i with
  | some (.file data) => some data
  | _ => none

def setContent (fs : Fs) (i : Ino) (data : Bytes) : Fs :=
  fs.set i ((fs.nodes i).map ({ · with kind := .file data }))

/-- `ftruncate`. -/
def setLen (fs : Fs) (i : Ino) (size : Nat) : Except Errno Fs :=
  match fs.nodes i with
  | some ⟨.file data, mode, atime, mtime⟩ =>
    .ok (fs.set i (some ⟨.file (data.takeD size 0), mode, atime, mtime⟩))
  | _ => .error .einval

end Fs

section
variable (kernel : Kernel) (ex : Export)

/-- Where a path leads: from the export root, links free to go anywhere. -/
def walkPlain (fs : Fs) (follow : Bool) (path : RootPath) : WalkEnd :=
  walk fs slash false follow maxSymlinks ex.stack (path.map (·.1))

def walkPath (fs : Fs) (follow : Bool) (path : RootPath) : WalkEnd :=
  if ex.Fits path then walkPlain ex fs follow path else .err .enametoolong

variable {ex} in
theorem walkPath_found {fs : Fs} {follow : Bool} {path : RootPath} {stack : List (Name × Ino)} :
    walkPath ex fs follow path = .found stack ↔ ex.Fits path ∧
      walkPlain ex fs follow path = .found stack := by
  unfold walkPath
  split
  · next h => simp [h]
  · next h => simp [h]

/-- `realpath`. -/
def realpath (fs : Fs) (path : RootPath) : Except Errno (List Name) :=
  if peak fs maxSymlinks ex.stack (path.map (·.1)) < pathMax then
    match walkPlain ex fs true path with
    | .found stack => .ok (stack.reverse.map Prod.fst)
    | .absent .. => .error .enoent
    | .err e => .error e
    | .link .. => .error .eloop
  else .error .enametoolong

def statAt (fs : Fs) : WalkEnd → Except Errno (Ino × Node)
  | .found stack =>
    match fs.nodes (top slash stack) with
    | some n => .ok (top slash stack, n)
    | none => .error .enoent
  | .absent .. => .error .enoent
  | .err e => .error e
  | .link .. => .error .eloop

/-- The result of a call on the filesystem that may also fail on its own. -/
def withFault {α : Type} (fault : Option Errno) (h : Host) (r : Except Errno (α × Fs)) :
    Option (Except Errno α × Host) :=
  match fault, r with
  | some e, _ | none, .error e => some (.error e, h)
  | none, .ok (x, fs) => some (.ok x, { h with fs })

/-- `withFault` for a call that answers nothing. -/
def withFault_ (fault : Option Errno) (h : Host) (r : Except Errno Fs) :
    Option (Except Errno Unit × Host) := withFault fault h (r.map fun fs => ((), fs))

/-- `openat2`. A kernel that has the call does not answer that it has not. -/
def openBeneath (h : Host) (path : RootPath) (flags : OpenFlags) (mode : Nat)
    (fault : Option Errno) : Option (Except Errno Ino × Host) :=
  if kernel.hasOpenat2 then
    match withFault fault h (h.fs.openAt ex.root flags mode
      (kernel.beneath h.fs ex.root (!flags.noFollow) (path.map (·.1)))) with
    | some (.error .enosys, _) => none
    | r => r
  else some (.error .enosys, h)

def File.Writable (f : File) : Prop := f.access = .wronly ∨ f.access = .rdwr

def File.Readable (f : File) : Prop := f.access = .rdonly ∨ f.access = .rdwr

instance (f : File) : Decidable f.Writable := inferInstanceAs (Decidable (_ ∨ _))

instance (f : File) : Decidable f.Readable := inferInstanceAs (Decidable (_ ∨ _))

/-- What a choice makes of a `write_all` of the data; on a handle that is not open for writing the
first `write` fails, if there is one. -/
def osOf (f : File) (c : Choice) (data : Bytes) : OsWrite :=
  if f.Writable then ⟨c.room.getD data.length, (c.fault.getD .eio).kind⟩ else ⟨0, Errno.ebadf.kind⟩

/-- The positioned write of `write_at`: `write_all` until the data, the room or the largest
offset is exhausted. -/
def writeFile (h : Host) (f : File) (offset : UInt64) (data : Bytes) (append : Bool) (c : Choice) :
    Option IoErrorKind × Host :=
  match h.fs.content f.ino with
  | none => (some .other, h)
  | some file =>
    match writeAt ⟨file, 0⟩ offset data append (osOf f c data) with
    | (r, st) => (r, { h with fs := h.fs.setContent f.ino st.file })

/-- One `read`: at least one byte unless at the end of the file. -/
def readFile (h : Host) (f : File) (offset : UInt64) (len : Nat) (c : Choice) :
    Except IoErrorKind Bytes :=
  if offsetMax < offset.toNat then .error .invalidInput
  else
    match c.fault, h.fs.content f.ino with
    | some e, _ => .error e.kind
    | none, none => .error .other
    | none, some file =>
      if f.Readable then
        if offsetMax < offset.toNat + len then .error .invalidInput
        else .ok ((file.drop offset.toNat).take (min len (max 1 (c.room.getD len))))
      else .error Errno.ebadf.kind

/-- One step of the stream. -/
def Sys.exec (stream : Nat) (a : Sys) (c : Choice) (h : Host) : Option (a.Ret × Host) :=
  match a with
  | .exists path =>
    some (c.fault.isNone && (statAt h.fs (walkPath ex h.fs true path)).toOption.isSome, h)
  | .isSymlink path =>
    some (c.fault.isNone && (statAt h.fs (walkPath ex h.fs false path)).toOption.any
      (h.fs.isSymlink ·.1), h)
  | .readDir path =>
    withFault c.fault h <|
      match statAt h.fs (walkPath ex h.fs true path) with
      | .ok (i, _) => if h.fs.isDir i then .ok (i, h.fs) else .error .enotdir
      | .error e => .error e
  | .nextEntry dir pos =>
    -- an error ends the listing as the end does
    some (if c.fault.isSome then none else (((h.fs.entries dir).getD [])[pos]?).map Prod.fst, h)
  | .statEntry dir name => withFault c.fault h ((h.fs.fstatat dir name).map (·, h.fs))
  | .readlinkat dir name => withFault c.fault h ((h.fs.readlinkat dir name.1).map (·, h.fs))
  | .statvfs path =>
    withFault c.fault h
      ((statAt h.fs (walkPath ex h.fs true path)).map fun st => ((st.1, c.figures), h.fs))
  | .lstat path => withFault c.fault h ((statAt h.fs (walkPath ex h.fs false path)).map (·, h.fs))
  | .stat path => withFault c.fault h ((statAt h.fs (walkPath ex h.fs true path)).map (·, h.fs))
  | .canonicalize path => withFault c.fault h ((realpath ex h.fs path).map (·, h.fs))
  | .openat2 path flags mode => openBeneath kernel ex h path flags mode c.fault
  | .openPlain path flags mode =>
    withFault c.fault h (h.fs.openAt slash flags mode (walkPath ex h.fs (!flags.noFollow) path))
  | .mkdirat d name mode => withFault_ c.fault h (h.fs.mkdirat d name.1 mode)
  | .fchmodat d name mode => withFault_ c.fault h (h.fs.fchmodat d name.1 mode)
  | .unlinkat d name removeDir => withFault_ c.fault h (h.fs.unlinkat d name.1 removeDir)
  | .symlinkat target d name => withFault_ c.fault h (h.fs.symlinkat target d name.1)
  | .linkat d name d' name' => withFault_ c.fault h (h.fs.linkat d name.1 d' name'.1)
  | .renameat d name d' name' => withFault_ c.fault h (h.fs.renameat d name.1 d' name'.1)
  | .setLen fd size => withFault_ c.fault h (h.fs.setLen fd size)
  | .fchmod fd mode => withFault_ c.fault h (h.fs.modify fd ({ · with mode }))
  | .utimens fd atime mtime => withFault_ c.fault h (h.fs.utimens fd atime mtime)
  | .fstat fd =>
    withFault c.fault h <|
      match h.fs.nodes fd with
      | some n => .ok ((fd, n), h.fs)
      | none => .error .enoent
  | .fsync _ => withFault_ c.fault h (.ok h.fs)
  | .tryInsert session handle =>
    match (h.tables session).tryInsert handle with
    | none => some (none, h)
    | some (id, t) => some (some id, { h with tables := Function.update h.tables session t })
  | .getFile session id => some ((h.tables session).getFile id, h)
  | .getWriteCtx session id => some ((h.tables session).getWriteCtx id, h)
  | .removeHandle session id =>
    let (r, t) := (h.tables session).remove id
    some (r, { h with tables := Function.update h.tables session t })
  | .lockStripe i =>
    -- a handler that runs into its time limit while it waits is dropped
    if c.fault.isSome then some (false, h)
    else if h.stripes i = none then
      some (true, { h with stripes := Function.update h.stripes i (some stream) })
    else none
  | .unlockStripe i => some ((), { h with stripes := Function.update h.stripes i none })
  | .recvFrame =>
    if c.fault.isSome then some (none, h)
    else
      match h.inbox stream with
      | [] => none
      | w :: ws => some (some w, { h with inbox := Function.update h.inbox stream ws })
  | .writeAt f offset data append => some (writeFile h f offset data append c)
  | .readAt f offset len => some (readFile h f offset len c, h)
  | .reply r => some ((), { h with replies := h.replies ++ [(stream, r)] })

end

end QuicFs.Server
