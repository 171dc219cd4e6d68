import QuicFs.Server.Sys

/-!
# Paths of requests and the confined operations

`server/src/sanitize.rs` as programs over the system calls. `resolve` checks a client's path
and then looks at the filesystem, so it is a sequence of calls like everything after it;
what it saw may have changed by the next call. The confined operations open the parent
directory with `openat2` and name the entry in it.

The code that is only compiled where there is no `openat2` at all is left out; the fallback
for a kernel that answers `ENOSYS` is `openPlain`.
-/

namespace QuicFs.Server

open Lib

inductive IoError where
  | os (e : Errno)
  | kind (k : IoErrorKind)
  deriving DecidableEq, Repr

def IoError.toKind : IoError → IoErrorKind
  | .os e => e.kind
  | .kind k => k

/-- `Status::from(io::Error)`. -/
def IoError.status (e : IoError) : Status := .ofIo e.toKind

/-- A program of system calls. -/
abbrev Calls (α : Type) := Prog Sys Sys.Ret α

/-- A program that may end in an `io::Error`. -/
def Io (α : Type) := Calls (Except IoError α)

namespace Io

variable {α β : Type}

def throw (e : IoError) : Io α := .ret (.error e)

/-- The operator `?`. -/
def bind (p : Io α) (f : α → Io β) : Io β :=
  Prog.bind p fun
    | .ok x => f x
    | .error e => throw e

instance : Monad Io where
  pure x := .ret (.ok x)
  bind := bind

def sys (a : Sys) (f : a.Ret → Except Errno α) : Io α :=
  .act a fun r => .ret ((f r).mapError .os)

def when (c : Bool) (p : Io Unit) : Io Unit := if c then p else pure ()

def toCalls (p : Io α) : Calls (Except IoError α) := p

end Io

def maxPathLen : Nat := 4096

def maxPathDepth : Nat := 128

/-- The components of a path, or why it is refused. -/
def collectComponents : List Name → Except String RootPath
  | [] => .ok []
  | p :: ps =>
    if h : p = [] ∨ p = ['.'] then collectComponents ps
    else if h' : p = ['.', '.'] then .error "path traversal rejected"
    else if utf8Len p > 255 then .error "path component too long"
    else (collectComponents ps).map (⟨p, fun e => h (.inl e), fun e => h (.inr e), h'⟩ :: ·)

/-- What `resolve` decides from the text alone. -/
def normalise (clientPath : List Char) : Except String RootPath :=
  if utf8Len clientPath > maxPathLen then .error "path too long"
  else if '\x00' ∈ clientPath then .error "path contains null byte"
  else
    match collectComponents (splitSlash (clientPath.dropWhile (· = '/'))) with
    | .error e => .error e
    | .ok cs => if cs.length > maxPathDepth then .error "path too deep" else .ok cs

/-- No component before the last one is a symbolic link. -/
def checkIntermediate (walking : RootPath) : RootPath → Calls (Except String Unit)
  | [] | [_] => .ret (.ok ())
  | c :: c' :: cs =>
    .act (.isSymlink (walking ++ [c])) fun (link : Bool) =>
      if link then .ret (.error "path escapes export root")
      else checkIntermediate (walking ++ [c]) (c' :: cs)

section
variable (ex : Export)

/-- Where the path leads, if it exists, is under the root. -/
def checkCanonical (joined : RootPath) : Calls (Except String Unit) :=
  .act (.exists joined) fun (there : Bool) =>
    if there then
      .act (.canonicalize joined) fun (c : Except Errno (List Name)) =>
        .act (.canonicalize []) fun (rc : Except Errno (List Name)) =>
          let canonical := (c.toOption.map (['/'] :: ·)).getD (pathComponents (ex.joined joined))
          let rootCanonical := (rc.toOption.map (['/'] :: ·)).getD (pathComponents ex.text)
          .ret (if rootCanonical.isPrefixOf canonical then .ok ()
            else .error "path escapes export root")
    else .ret (.ok ())

def resolve (clientPath : List Char) : Calls (Except String RootPath) :=
  match normalise clientPath with
  | .error e => .ret (.error e)
  | .ok joined =>
    (checkIntermediate [] joined).bind fun
      | .error e => .ret (.error e)
      | .ok () =>
        (checkCanonical ex joined).bind fun
          | .error e => .ret (.error e)
          | .ok () => .ret (.ok joined)

end

/-- `open_confined`: `openat2`, and plain `open` on a kernel without it. -/
def openConfined (path : RootPath) (flags : OpenFlags) (mode : Nat) : Io Ino :=
  .act (.openat2 path flags mode) fun (r : Except Errno Ino) =>
    match r with
    | .error .enosys => Io.sys (.openPlain path flags mode) id
    | .error e => Io.throw (.os e)
    | .ok fd => .ret (.ok fd)

def fsyncDirConfined (dir : RootPath) : Io Unit := do
  let fd ← openConfined dir { access := .rdonly, directory := true, noFollow := true } 0
  Io.sys (.fsync fd) id

section
variable (ex : Export)

/-- The parent directory, opened, and the last name. The root has no parent beneath it: its
parent directory is refused, or it has no last name at all. -/
def confinedParent (resolved : RootPath) : Io (Ino × Component) :=
  match resolved.getLast? with
  | none =>
    Io.throw (.kind
      (if (components ex.text).getLast?.all (· = ['.', '.']) then .invalidInput
      else .permissionDenied))
  | some name => do
    let dir ← openConfined resolved.dropLast { access := .path, directory := true } 0
    pure (dir, name)

def permBits (mode : UInt32) : Nat := (mode &&& 0o777).toNat

def mkdirConfined (resolved : RootPath) (mode : UInt32) : Io Unit := do
  let (dir, name) ← confinedParent ex resolved
  Io.sys (.mkdirat dir name (permBits mode)) id
  Io.sys (.fchmodat dir name (permBits mode)) id

def removeConfined (resolved : RootPath) (isDir : Bool) : Io Unit := do
  let (dir, name) ← confinedParent ex resolved
  Io.sys (.unlinkat dir name isDir) id

def symlinkConfined (link : RootPath) (target : List Char) : Io Unit := do
  let (dir, name) ← confinedParent ex link
  if '\x00' ∈ target then Io.throw (.kind .invalidInput)
  else Io.sys (.symlinkat target dir name) id

def linkConfined (src dst : RootPath) : Io Unit := do
  let (sdir, sname) ← confinedParent ex src
  let (ddir, dname) ← confinedParent ex dst
  Io.sys (.linkat sdir sname ddir dname) id

def readlinkConfined (resolved : RootPath) : Io (List Char) := do
  let (dir, name) ← confinedParent ex resolved
  Io.sys (.readlinkat dir name) fun (r : Except Errno (Ino × List Char)) => r.map Prod.snd

def renameConfined (old new : RootPath) : Io Unit := do
  let (odir, oname) ← confinedParent ex old
  let (ndir, nname) ← confinedParent ex new
  Io.sys (.renameat odir oname ndir nname) id

end

end QuicFs.Server
