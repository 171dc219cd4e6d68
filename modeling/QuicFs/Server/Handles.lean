import Mathlib
import QuicFs.Server.Fs

/-!
# The table of open handles of a session

`HandleTable` of `server/src/handles.rs`. A handle keeps the file that was opened, as its
inode, so that Read and Write never go back to a path. Ids come from a 64-bit counter that
starts at the session's epoch in the high half; `withLimit` takes the epoch the code draws
at random. A table entry keeps its file for as long as it is there.
-/

namespace QuicFs.Server

/-- A component of a path below the export root. -/
abbrev Component := { c : Name // c ≠ [] ∧ c ≠ ['.'] ∧ c ≠ ['.', '.'] }

/-- A path below the export root. -/
abbrev RootPath := List Component

inductive Access where
  | rdonly | wronly | rdwr | path
  deriving DecidableEq, Repr

/-- An open file: the inode it pins and what it was opened for. -/
structure File where
  ino : Ino
  access : Access
  deriving DecidableEq, Repr

structure OpenHandle where
  path : RootPath
  flags : UInt32
  file : File
  /-- Which stripe of the write lock the file takes. -/
  inoKey : Nat
  deriving DecidableEq

structure HandleTable where
  counter : UInt64
  maxHandles : UInt32
  inner : AList (fun _ : ServerHandle => OpenHandle)

namespace HandleTable

def withLimit (epoch : UInt32) (maxHandles : UInt32) : HandleTable where
  counter := (epoch.toUInt64 <<< 32) ||| 1
  maxHandles := maxHandles
  inner := ∅

/-- A new handle, or `none` when the table is at its limit. -/
def tryInsert (t : HandleTable) (h : OpenHandle) : Option (ServerHandle × HandleTable) :=
  if t.inner.entries.length ≥ t.maxHandles.toNat then none
  else some (t.counter, { t with counter := t.counter + 1, inner := t.inner.insert t.counter h })

def remove (t : HandleTable) (id : ServerHandle) : Option OpenHandle × HandleTable :=
  (t.inner.lookup id, { t with inner := t.inner.erase id })

/-- The retained file, `none` for a stale handle. -/
def getFile (t : HandleTable) (id : ServerHandle) : Option File := (t.inner.lookup id).map (·.file)

/-- The retained file, the open flags and the key of the write lock. -/
def getWriteCtx (t : HandleTable) (id : ServerHandle) : Option (File × UInt32 × Nat) :=
  (t.inner.lookup id).map fun h => (h.file, h.flags, h.inoKey)

def getPath (t : HandleTable) (id : ServerHandle) : Option RootPath :=
  (t.inner.lookup id).map (·.path)

theorem getFile_tryInsert {t t' : HandleTable} {h : OpenHandle} {id : ServerHandle}
    (e : t.tryInsert h = some (id, t')) (k : ServerHandle) :
    t'.getFile k = if k = id then some h.file else t.getFile k := by
  unfold tryInsert at e
  split at e
  · cases e
  · obtain ⟨rfl, rfl⟩ := Prod.mk.inj (Option.some.inj e)
    unfold getFile
    split
    · next hk => subst hk; simp
    · next hk => simp [AList.lookup_insert_ne hk]

theorem getFile_remove (t : HandleTable) (id k : ServerHandle) :
    (t.remove id).2.getFile k = if k = id then none else t.getFile k := by
  unfold getFile remove
  split
  · next e => subst e; simp
  · next e => simp [AList.lookup_erase_ne e]

theorem getWriteCtx_fst (t : HandleTable) (id : ServerHandle) :
    (t.getWriteCtx id).map Prod.fst = t.getFile id := by
  unfold getWriteCtx getFile
  cases t.inner.lookup id <;> rfl

end HandleTable

end QuicFs.Server
