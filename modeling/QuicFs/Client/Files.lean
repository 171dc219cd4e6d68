import QuicFs.Client.WriteBuf
import QuicFs.Common.Path

/-!
# Open files, paths and errors of the client

`OpenFile` and `InodeTable` of `client/src/fuse_ops.rs` and the mapping of failures to error
numbers. Neither table is ever iterated, so a map is a function. Remote paths are strings; a
map from `PathBuf` is a function of what two paths are compared by (`pathComponents`).

An RPC fails with a status the server answered or for a reason of its own (no connection,
the deadline, an answer without attributes). The error number is chosen by words in the
error's text, which only the name of a status contains.
-/

namespace QuicFs.Client

open Function

/-- A remote path. -/
abbrev Path := List Char

/-- The number the kernel knows a path by. -/
abbrev FuseIno := Nat

structure OpenFile where
  path : Path
  flags : UInt32
  serverHandle : ServerHandle
  /-- The reconnect generation the server handle belongs to. -/
  openedGen : Nat
  isAppend : Bool

def oAppend : UInt32 := 0x400

def oTrunc : UInt32 := 0x200

/-- The access mode and `O_APPEND`, without the creation flags. -/
def reopenFlags (flags : UInt32) : UInt32 := (flags &&& 0x3) ||| (flags &&& oAppend)

/-- The characters `str::trim` takes off: `White_Space` of Unicode. -/
def isWhiteSpace (c : Char) : Bool :=
  (c.toNat.ble 0xD && Nat.ble 0x9 c.toNat) || (c.toNat.ble 0x200A && Nat.ble 0x2000 c.toNat) ||
    [0x20, 0x85, 0xA0, 0x1680, 0x2028, 0x2029, 0x202F, 0x205F, 0x3000].contains c.toNat

/-- A remote root with one leading `/` at least and no trailing one, `/` itself apart. -/
def normalizeRoot (root : List Char) : Path :=
  let r := (root.dropWhile isWhiteSpace).rdropWhile isWhiteSpace
  let r := if r = [] then ['/'] else r
  let withLead := if r.head? = some '/' then r else '/' :: r
  let trimmed := withLead.rdropWhile (· = '/')
  if trimmed = [] then ['/'] else trimmed

structure InodeTable where
  inoToPath : FuseIno → Option Path
  pathToIno : List Name → Option FuseIno
  next : FuseIno

namespace InodeTable

def rootIno : FuseIno := 1

/-- The table of a mount of the remote path `root`, which is normalised. -/
def new (root : Path) : InodeTable where
  inoToPath := update (fun _ => none) rootIno (some root)
  pathToIno := update (fun _ => none) (pathComponents root) (some rootIno)
  next := rootIno + 1

def getOrAlloc (t : InodeTable) (path : Path) : FuseIno × InodeTable :=
  match t.pathToIno (pathComponents path) with
  | some ino => (ino, t)
  | none =>
    (t.next, {
      inoToPath := update t.inoToPath t.next (some path)
      pathToIno := update t.pathToIno (pathComponents path) (some t.next)
      next := t.next + 1 })

def pathOf (t : InodeTable) (ino : FuseIno) : Option Path := t.inoToPath ino

def removePath (t : InodeTable) (path : Path) : InodeTable :=
  match t.pathToIno (pathComponents path) with
  | none => t
  | some ino =>
    { t with
      inoToPath := update t.inoToPath ino none
      pathToIno := update t.pathToIno (pathComponents path) none }

def renameIno (t : InodeTable) (old new : Path) : InodeTable :=
  match t.pathToIno (pathComponents old) with
  | none => t
  | some ino =>
    { t with
      inoToPath := update t.inoToPath ino (some new)
      pathToIno := update (update t.pathToIno (pathComponents old) none)
        (pathComponents new) (some ino) }

end InodeTable

/-- `Path::join` of a name. -/
def joinPath (path : Path) (name : Name) : Path :=
  if path = [] ∨ path.getLast? = some '/' then path ++ name else path ++ '/' :: name

def childPath (parent : Path) (name : Name) : Path :=
  if pathComponents parent = pathComponents ['/'] then '/' :: name else joinPath parent name

/-- The path that `readdir` makes of an entry. -/
def entryPath (path : Path) (name : Name) : Path := path.rdropWhile (· = '/') ++ '/' :: name

inductive RpcError where
  | server (status : Status)
  | other
  deriving DecidableEq, Repr

/-- The error numbers a callback answers with. -/
inductive FuseErrno where
  | enoent | eacces | eexist | enotempty | enotdir | eisdir | enospc | estale | eio
  deriving DecidableEq, Repr

def rpcToErrno : RpcError → FuseErrno
  | .server .notFound => .enoent
  | .server .permission => .eacces
  | .server .exists => .eexist
  | .server .notEmpty => .enotempty
  | .server .notDir => .enotdir
  | .server .isDir => .eisdir
  | .server .noSpace => .enospc
  | .server .stale => .estale
  | _ => .eio

/-- What `flush` and `fsync` reply, given the failure of the flush and the sticky error. -/
def flushReply (flushErr : Option FuseErrno) (hadSticky : Bool) : Except FuseErrno Unit :=
  match flushErr with
  | some errno => .error errno
  | none => if hadSticky then .error .eio else .ok ()

theorem flushReply_eq_ok {flushErr : Option FuseErrno} {hadSticky : Bool} :
    flushReply flushErr hadSticky = .ok () ↔ flushErr = none ∧ hadSticky = false := by
  cases flushErr <;> cases hadSticky <;> simp [flushReply]

end QuicFs.Client
