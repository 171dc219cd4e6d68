import QuicFs.Client.Cache
import QuicFs.Client.Paths
import QuicFs.Server.Faultless
import QuicFs.System.Callbacks

/-!
# The namespace callbacks with the metadata cache

`client/src/fuse_ops.rs` once more, as far as the inode table and the metadata cache go: the
FUSE session thread runs one callback after the other, and an RPC is served to its end before
the callback goes on. What is left open is in `Outside`: what becomes of each RPC, what its
system calls come to, the times that are read, whether the connection was renewed since the
last look. There are no writes, so the flushes of `get_stat` and of a truncating `create`
find nothing; the table of open files is left out, and so is `symlink`.

`Names.origin` is not in the code: the object an inode number was allocated for, which is what
the server had at its path then.
-/

namespace QuicFs.System

open Lib Client Server

/-- A name the kernel asks for. -/
abbrev FuseName := { n : Name // ValidName n }

/-- What becomes of an RPC. -/
inductive Fate where
  | answered
  /-- It does not get to the server. -/
  | unsent
  /-- It is served, and the answer is lost. -/
  | unanswered
  deriving DecidableEq, Repr

/-- What a callback does not decide, with one entry for each of its RPCs. -/
structure Outside where
  session : Nat := 0
  seq : UInt64 := 0
  reconnected : Bool := false
  now : Nat := 0
  later : Nat := 0
  /-- The number of answers to a directory listing. -/
  pages : Nat := 1
  /-- The entries the reply to `readdir` has room for. -/
  room : Nat := 0
  fate : Nat → Fate := fun _ => .answered
  choices : Nat → Nat → Choice := fun _ _ => {}

/-- The store of the metadata cache. -/
abbrev StatStore := Store Path (CacheEntry (Ino × Node))

structure Names (L : StatStore) where
  inodes : InodeTable
  cache : MetaCache L
  host : Host
  origin : FuseIno → Option Ino

inductive NameReply where
  | ok
  | error (errno : FuseErrno)
  | entry (ino : FuseIno) (stat : Ino × Node)
  | listing (entries : List (FuseIno × Nat × Name))

section
variable {L : StatStore} (S : Setup)

/-- A request served by itself: its last answer and what it leaves. -/
def serveAlone (session : Nat) (q : Request) (cs : Nat → Choice) (h : Host) :
    Option (Response × Host) :=
  ((handle S.ex S.dur 0 session q).run (Sys.exec S.kernel S.ex 0) cs h).bind fun (_, h', _) =>
    h'.replies.getLast?.map fun r => (r.2, h')

variable (o : Outside)

/-- The RPC number `k` of a callback. -/
def Names.rpc (k : Nat) (q : UInt64 → Request) (s : Names L) :
    Option (Except RpcError Response × Names L) :=
  if o.fate k = .unsent then some (.error .other, s)
  else
    (serveAlone S o.session (q o.seq) (o.choices k) s.host).map fun (r, host) =>
      (if o.fate k = .answered then checkStatus r else .error .other, { s with host })

def Names.rpcStat (q : UInt64 → Request) (s : Names L) :
    Option (Except RpcError (Ino × Node) × Names L) :=
  (s.rpc S o 0 q).map fun (r, s) =>
    (match r with
    | .error e => .error e
    | .ok r =>
      match r.stat with
      | none => .error .other
      | some st => .ok st, s)

def statIsDir (st : Ino × Node) : Bool :=
  match st.2.kind with
  | .dir _ => true
  | _ => false

def cacheStat (path : Path) (st : Ino × Node) (s : Names L) : Names L :=
  { s with cache := s.cache.insert path st (statIsDir st) o.later }

def cacheNegative (path : Path) (s : Names L) : Names L :=
  { s with cache := s.cache.insertNegative path o.later }

def invalidateCache (path : Path) (s : Names L) : Names L :=
  { s with cache := s.cache.invalidate path }

def checkReconnect (s : Names L) : Names L :=
  if o.reconnected then { s with cache := s.cache.clear } else s

namespace Names

def getStat (path : Path) (s : Names L) : Option (Except FuseErrno (Ino × Node) × Names L) :=
  let s := checkReconnect o s
  let (hit, cache) := s.cache.get path o.now
  let s := { s with cache }
  match hit with
  | some (some st) => some (.ok st, s)
  | some none => some (.error .enoent, s)
  | none =>
    (s.rpcStat S o (.getAttr · path)).map fun (r, s) =>
      match r with
      | .ok st => (.ok st, cacheStat o path st s)
      | .error e =>
        if e = .server .notFound then (.error .enoent, cacheNegative o path s) else (.error .eio, s)

/-- `make_file_attr`: the inode number of a path with its attributes. -/
def makeFileAttr (path : Path) (st : Ino × Node) (s : Names L) : NameReply × Names L :=
  let (ino, inodes) := s.inodes.getOrAlloc path
  (.entry ino st, { s with inodes })

/-- `lookup` and `getattr` of a path. -/
def attrOf (path : Path) (s : Names L) : Option (NameReply × Names L) :=
  (s.getStat S o path).map fun (r, s) =>
    match r with
    | .ok st => s.makeFileAttr path st
    | .error e => (.error e, s)

def withPath (ino : FuseIno) (s : Names L) (k : Path → Option (NameReply × Names L)) :
    Option (NameReply × Names L) :=
  match s.inodes.pathOf ino with
  | none => some (.error .enoent, s)
  | some path => k path

def lookup (parent : FuseIno) (name : FuseName) (s : Names L) : Option (NameReply × Names L) :=
  s.withPath parent fun path => s.attrOf S o (childPath path name.1)

def getattr (ino : FuseIno) (s : Names L) : Option (NameReply × Names L) :=
  s.withPath ino fun path => s.attrOf S o path

def mkdir (parent : FuseIno) (name : FuseName) (mode : UInt32) (s : Names L) :
    Option (NameReply × Names L) :=
  s.withPath parent fun parent =>
    let path := childPath parent name.1
    ((invalidateCache parent s).rpcStat S o (.mkDir · path mode)).map fun (r, s) =>
      match r with
      | .ok st => (cacheStat o path st s).makeFileAttr path st
      | .error e => (.error (rpcToErrno e), s)

/-- `unlink` and `rmdir`. -/
def remove (q : UInt64 → Path → Request) (parent : FuseIno) (name : FuseName) (s : Names L) :
    Option (NameReply × Names L) :=
  s.withPath parent fun parent =>
    let path := childPath parent name.1
    ((invalidateCache path s).rpc S o 0 (q · path)).map fun (r, s) =>
      match r with
      | .ok _ => (.ok, { s with inodes := s.inodes.removePath path })
      | .error e => (.error (rpcToErrno e), s)

def unlink : FuseIno → FuseName → Names L → Option (NameReply × Names L) :=
  remove S o fun seq path => .unlink seq path

def rmdir : FuseIno → FuseName → Names L → Option (NameReply × Names L) :=
  remove S o fun seq path => .rmDir seq path

def rename (parent : FuseIno) (name : FuseName) (newParent : FuseIno) (newName : FuseName)
    (s : Names L) : Option (NameReply × Names L) :=
  s.withPath parent fun oldParent => s.withPath newParent fun newPar =>
    let old := childPath oldParent name.1
    let new := childPath newPar newName.1
    (s.rpc S o 0 (.rename · old new)).map fun (r, s) =>
      match r with
      | .ok _ =>
        let s := invalidateCache new (invalidateCache old s)
        -- the listing of the destination's parent
        let s := (parentPath new).elim s fun p => invalidateCache p s
        (.ok, { s with inodes := s.inodes.renameIno old new })
      | .error e => (.error (rpcToErrno e), s)

def link (ino : FuseIno) (newParent : FuseIno) (newName : FuseName) (s : Names L) :
    Option (NameReply × Names L) :=
  s.withPath ino fun src => s.withPath newParent fun newPar =>
    let new := childPath newPar newName.1
    (s.rpcStat S o (.link · src new)).map fun (r, s) =>
      match r with
      | .ok st =>
        let s := cacheStat o src st (invalidateCache src s)
        let s := cacheStat o new st (invalidateCache new s)
        s.makeFileAttr new st
      | .error e => (.error (rpcToErrno e), s)

def create (parent : FuseIno) (name : FuseName) (mode flags : UInt32) (s : Names L) :
    Option (NameReply × Names L) :=
  s.withPath parent fun parent =>
    let path := childPath parent name.1
    ((invalidateCache path (invalidateCache parent s)).rpcStat S o
      (.create · path flags mode)).map fun (r, s) =>
        match r with
        | .ok st => (cacheStat o path st s).makeFileAttr path st
        | .error e => (.error (rpcToErrno e), s)

/-- `ConnManager::readdir`: one answer after the other, up to the one that says it is the last.
The end has to come with the number of answers given. -/
def readdirPages (path : Path) : (pages : Nat) → (cursor : UInt64) → Names L →
    Option (Except RpcError (List DirEntry) × Names L)
  | 0, _, _ => none
  | k + 1, cursor, s =>
    (s.rpc S o k (.readDir · path cursor)).bind fun (r, s) =>
      match r with
      | .error e => some (.error e, s)
      | .ok r =>
        if r.eof then some (.ok r.entries, s)
        else (readdirPages path k r.cursor s).map fun (rest, s) => (rest.map (r.entries ++ ·), s)

/-- The entries of a listing with their inode numbers and offsets. The entry that does not fit
any more has its number by then. -/
def addEntries (path : Path) : (room : Nat) → List (DirEntry × Nat) → InodeTable →
    List (FuseIno × Nat × Name) × InodeTable
  | _, [], t => ([], t)
  | room, (e, i) :: es, t =>
    let (ino, t) := t.getOrAlloc (entryPath path e.name)
    match room with
    | 0 => ([], t)
    | room + 1 =>
      let (out, t) := addEntries path room es t
      ((ino, i + 1, e.name) :: out, t)

def readdir (ino : FuseIno) (offset : Nat) (s : Names L) : Option (NameReply × Names L) :=
  s.withPath ino fun path =>
    (s.readdirPages S o path o.pages 0).map fun (r, s) =>
      match r with
      | .error e => (.error (rpcToErrno e), s)
      | .ok entries =>
        let (out, inodes) := addEntries path o.room (entries.zipIdx.drop offset) s.inodes
        (.listing out, { s with inodes })

end Names

inductive NameOp where
  | lookup (parent : FuseIno) (name : FuseName)
  | getattr (ino : FuseIno)
  | mkdir (parent : FuseIno) (name : FuseName) (mode : UInt32)
  | unlink (parent : FuseIno) (name : FuseName)
  | rmdir (parent : FuseIno) (name : FuseName)
  | rename (parent : FuseIno) (name : FuseName) (newParent : FuseIno) (newName : FuseName)
  | link (ino : FuseIno) (newParent : FuseIno) (newName : FuseName)
  | create (parent : FuseIno) (name : FuseName) (mode flags : UInt32)
  | readdir (ino : FuseIno) (offset : Nat)

/-- The paths that the callback asks the server about. -/
def NameOp.paths (t : InodeTable) : NameOp → List Path
  | .lookup parent name | .mkdir parent name _ | .unlink parent name | .rmdir parent name
  | .create parent name _ _ => (t.pathOf parent).toList.map (childPath · name.1)
  | .getattr ino | .readdir ino _ => (t.pathOf ino).toList
  | .rename parent name newParent newName => (t.pathOf parent).toList.map (childPath · name.1) ++
      (t.pathOf newParent).toList.map (childPath · newName.1)
  | .link ino newParent newName =>
    (t.pathOf ino).toList ++ (t.pathOf newParent).toList.map (childPath · newName.1)

def Names.callback : NameOp → Names L → Option (NameReply × Names L)
  | .lookup parent name => lookup S o parent name
  | .getattr ino => getattr S o ino
  | .mkdir parent name mode => mkdir S o parent name mode
  | .unlink parent name => unlink S o parent name
  | .rmdir parent name => rmdir S o parent name
  | .rename parent name newParent newName => rename S o parent name newParent newName
  | .link ino newParent newName => link S o ino newParent newName
  | .create parent name mode flags => create S o parent name mode flags
  | .readdir ino offset => readdir S o ino offset

/-- One callback; the numbers it allocated are for what the server has at their paths. -/
def Names.step (s : Names L) (l : Outside × NameOp) : Option (Names L) :=
  (s.callback S l.1 l.2).map fun (_, s') => { s' with
    origin := fun ino =>
      if s.inodes.next ≤ ino then
        (s'.inodes.pathOf ino).bind fun p => s'.host.fs.descend S.ex.root (components p)
      else s.origin ino }

def Names.mount (root : List Char) (cfg : CacheConfig) (host : Host) : Names L where
  inodes := .new (normalizeRoot root)
  cache := .new cfg
  host := host
  origin := Function.update (fun _ => none) InodeTable.rootIno
    (host.fs.descend S.ex.root (components (normalizeRoot root)))

end

end QuicFs.System
