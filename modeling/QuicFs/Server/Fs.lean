import QuicFs.Common.Frames
import QuicFs.Common.Path

/-!
# The server host's filesystem

Inodes with directories, regular files and symbolic links, the kernel's path walk and the
directory operations of the `*at` system calls. `Beneath fs r i`: `i` is reached from the
directory `r` by entries alone.

The walk keeps the chain of entries it came by, so that `..` goes back along it. It is
used in two ways: from `/` with symbolic links free to go anywhere (`open`, `stat`,
`fchmodat`), and confined to a directory (`openat2` with `RESOLVE_BENEATH`), where an
absolute link or a `..` above the start is refused. Link counts are not kept: a file whose
last name is removed stays as an inode that no entry names.
-/

namespace QuicFs.Server

abbrev Ino := Nat

inductive Errno where
  | enoent | eacces | eexist | einval | eloop | enotdir | eisdir | enotempty | eperm
  | exdev | enosys
  | eio | ebadf | enametoolong
  deriving DecidableEq, Repr

/-- `std::io::Error::kind` of an error number. -/
def Errno.kind : Errno → IoErrorKind
  | .enoent => .notFound
  | .eacces | .eperm => .permissionDenied
  | .eexist => .alreadyExists
  | .einval => .invalidInput
  | .eloop | .enotdir | .eisdir | .enotempty | .exdev | .enosys | .eio
  | .ebadf | .enametoolong => .other

inductive Kind where
  | file (data : Bytes)
  | dir (entries : List (Name × Ino))
  | symlink (target : List Char)
  deriving DecidableEq, Repr

structure Node where
  kind : Kind
  mode : Nat
  atime : Int
  mtime : Int
  deriving DecidableEq, Repr

/-- The bits of `st_mode` that say what an object is. -/
def Kind.typeBits : Kind → Nat
  | .file _ => 0o100000
  | .dir _ => 0o040000
  | .symlink _ => 0o120000

/-- `st_mode`: the type of the object over its twelve mode bits. -/
def Node.stMode (n : Node) : Nat := n.kind.typeBits + n.mode % 0o10000

structure Fs where
  nodes : Ino → Option Node
  /-- Inode numbers from here on have not been used. -/
  next : Ino
  fresh : ∀ i, next ≤ i → nodes i = none

/-- The inode of `/`. -/
def slash : Ino := 0

namespace Fs

def kind (fs : Fs) (i : Ino) : Option Kind := (fs.nodes i).map Node.kind

def entries (fs : Fs) (d : Ino) : Option (List (Name × Ino)) :=
  match fs.kind d with
  | some (.dir es) => some es
  | _ => none

def lookup (fs : Fs) (d : Ino) (name : Name) : Option Ino := (fs.entries d).bind (·.lookup name)

def isSymlink (fs : Fs) (i : Ino) : Bool :=
  match fs.kind i with
  | some (.symlink _) => true
  | _ => false

def isDir (fs : Fs) (i : Ino) : Bool := (fs.entries i).isSome

/-- Change a node; an inode that was never used stays as it is. -/
def set (fs : Fs) (i : Ino) (n : Option Node) : Fs where
  nodes j := if j = i ∧ i < fs.next then n else fs.nodes j
  next := fs.next
  fresh j hj := by
    have : ¬(j = i ∧ i < fs.next) := fun ⟨e, h⟩ => Nat.not_lt.mpr hj (e ▸ h)
    simp only [this, if_false, fs.fresh j hj]

/-- A new inode that no directory names yet. -/
def alloc (fs : Fs) (n : Node) : Fs where
  nodes j := if j = fs.next then some n else fs.nodes j
  next := fs.next + 1
  fresh j hj := by
    have : j ≠ fs.next := Nat.ne_of_gt hj
    simp only [this, if_false, fs.fresh j (Nat.le_of_succ_le hj)]

def setEntries (fs : Fs) (d : Ino) (es : List (Name × Ino)) : Fs :=
  fs.set d ((fs.nodes d).map ({ · with kind := .dir es }))

def addEntry (fs : Fs) (d : Ino) (name : Name) (i : Ino) : Fs :=
  fs.setEntries d ((fs.entries d).getD [] ++ [(name, i)])

def dropEntry (fs : Fs) (d : Ino) (name : Name) : Fs :=
  fs.setEntries d (((fs.entries d).getD []).filter (·.1 ≠ name))

/-- A new inode, entered in the directory `d`. -/
def create (fs : Fs) (d : Ino) (name : Name) (kind : Kind) (mode : Nat) : Fs :=
  (fs.alloc ⟨kind, mode, 0, 0⟩).addEntry d name fs.next

end Fs

/-- `i` is reached from the directory `r` by entries alone. -/
inductive Beneath (fs : Fs) (r : Ino) : Ino → Prop where
  | root : Beneath fs r r
  | entry {d i : Ino} {name : Name} {es : List (Name × Ino)} : Beneath fs r d →
      fs.entries d = some es → (name, i) ∈ es → Beneath fs r i

/-! ## The path walk -/

def isAbsolute (path : List Char) : Bool := path.head? = some '/'

/-- Where a walk ends: at an object, at a missing last component, at an error, or at a link
that is to be followed. -/
inductive WalkEnd where
  | found (stack : List (Name × Ino))
  | absent (stack : List (Name × Ino)) (name : Name)
  | err (e : Errno)
  | link (stack : List (Name × Ino)) (todo : List Name)
  deriving DecidableEq, Repr

/-- The object on top of the stack of entries taken from `base`. -/
def top (base : Ino) (stack : List (Name × Ino)) : Ino := (stack.head?.map Prod.snd).getD base

section
variable (fs : Fs) (base : Ino) (confined follow : Bool)

/-- Walk to the end or to the next link. -/
def walkTo (stack : List (Name × Ino)) : List Name → WalkEnd
  | [] => .found stack
  | c :: cs =>
    match fs.entries (top base stack) with
    | none => .err .enotdir
    | some es =>
      if c = ['.', '.'] then
        match stack with
        | [] => if confined then .err .exdev else walkTo [] cs
        | _ :: stack => walkTo stack cs
      else
        match es.lookup c with
        | none => if cs = [] then .absent stack c else .err .enoent
        | some i =>
          match fs.kind i with
          | some (.symlink target) =>
            if cs = [] ∧ !follow then .found ((c, i) :: stack)
            else if isAbsolute target then
              if confined then .err .exdev else .link [] (components target ++ cs)
            else .link stack (components target ++ cs)
          | some _ => walkTo ((c, i) :: stack) cs
          | none => .err .enoent

/-- The whole walk, following at most `links` symbolic links. -/
def walk (links : Nat) (stack : List (Name × Ino)) (todo : List Name) : WalkEnd :=
  match walkTo fs base confined follow stack todo with
  | .link stack todo =>
    match links with
    | 0 => .err .eloop
    | links + 1 => walk links stack todo
  | r => r

end

/-- `MAXSYMLINKS`. -/
def maxSymlinks : Nat := 40

/-- The length of the path from `/`. -/
def canonLen (stack : List (Name × Ino)) : Nat := namesLen (stack.map Prod.fst)

/-- The longest path that `realpath` asks about on its way: it follows a path name by name, and asks
the kernel for each prefix whether it is a link. -/
def peakTo (fs : Fs) (stack : List (Name × Ino)) : List Name → Nat
  | [] => canonLen stack
  | c :: cs =>
    if c = ['.', '.'] then max (canonLen stack) (peakTo fs stack.tail cs)
    else
      match fs.lookup (top slash stack) c with
      | none => canonLen stack + utf8Len c + 1
      | some i =>
        if fs.isSymlink i then canonLen stack + utf8Len c + 1 else peakTo fs ((c, i) :: stack) cs

def peak (fs : Fs) (links : Nat) (stack : List (Name × Ino)) (todo : List Name) : Nat :=
  match links, walkTo fs slash false true stack todo with
  | links + 1, .link stack' todo' => max (peakTo fs stack todo) (peak fs links stack' todo')
  | _, _ => peakTo fs stack todo

/-- The entries from `base` down to the top of the stack are all there. -/
def Chain (fs : Fs) (base : Ino) : List (Name × Ino) → Prop
  | [] => True
  | (name, i) :: stack =>
    Chain fs base stack ∧ ∃ es, fs.entries (top base stack) = some es ∧ (name, i) ∈ es

theorem Chain.beneath {fs : Fs} {base : Ino} {stack : List (Name × Ino)} (h : Chain fs base stack) :
    Beneath fs base (top base stack) := by
  induction stack with
  | nil => exact .root
  | cons e stack ih =>
    obtain ⟨hc, es, he, hm⟩ := h
    exact .entry (ih hc) he hm

theorem mem_of_lookup {es : List (Name × Ino)} {name : Name} {i : Ino}
    (h : es.lookup name = some i) : (name, i) ∈ es := by
  obtain ⟨l₁, l₂, rfl, -⟩ := List.lookup_eq_some_iff.mp h
  simp

def WalkEnd.Stacks (P : List (Name × Ino) → Prop) : WalkEnd → Prop
  | .found stack | .absent stack _ | .link stack _ => P stack
  | .err _ => True

instance {P : List (Name × Ino) → Prop} [DecidablePred P] : DecidablePred (WalkEnd.Stacks P)
  | .found stack | .absent stack _ | .link stack _ => inferInstanceAs (Decidable (P stack))
  | .err _ => isTrue trivial

theorem walkTo_chain {fs : Fs} {base : Ino} (follow : Bool) (todo : List Name) :
    ∀ {stack : List (Name × Ino)}, Chain fs base stack →
      (walkTo fs base true follow stack todo).Stacks (Chain fs base) := by
  induction todo with
  | nil => intro stack h; exact h
  | cons c cs ih =>
    intro stack h
    unfold walkTo
    split
    · trivial
    · rename_i es hes
      split
      · cases stack with
        | nil => trivial
        | cons e stack => exact ih h.1
      · split
        · split
          · exact h
          · trivial
        · rename_i i hi
          have hpush : Chain fs base ((c, i) :: stack) := ⟨h, es, hes, mem_of_lookup hi⟩
          split
          · split
            · exact hpush
            · split
              · trivial
              · exact h
          · exact ih hpush
          · trivial

/-- **A confined walk stays beneath its start.** -/
theorem walk_chain {fs : Fs} {base : Ino} {follow : Bool} (links : Nat) :
    ∀ {stack : List (Name × Ino)} {todo : List Name}, Chain fs base stack →
      (walk fs base true follow links stack todo).Stacks (Chain fs base) := by
  induction links with
  | zero =>
    intro stack todo h
    have := walkTo_chain follow todo h
    unfold walk
    split
    · trivial
    · exact this
  | succ links ih =>
    intro stack todo h
    have := walkTo_chain follow todo h
    unfold walk
    split
    · rename_i e; rw [e] at this; exact ih this
    · exact this

end QuicFs.Server
