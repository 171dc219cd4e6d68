import QuicFs.Client.Files
import QuicFs.Lib.Store

/-!
# The metadata cache

`MetaCache` of `client/src/cache.rs`: attributes and absences by path, each with the time it
expires, in a store `L`, which is the `LruCache` of the crate `lru`. Instants are numbers of
milliseconds, read by the caller. The times to live are milliseconds in a `u64`, as a mount is
given them, and an `Instant` has room for the sum.

`known` is what the cache holds for a path, expired or not; no operation but an insertion adds to
it, and each insertion adds one path (`known_insert`, `known_insertNegative`, `Forgets`).
-/

namespace QuicFs.Client

open Lib

structure CacheConfig where
  maxEntries : Nat := 8192
  posTtl : UInt64 := 2000
  negTtl : UInt64 := 500
  dirTtl : UInt64 := 1000
  deriving DecidableEq, Repr

/-- How many entries there is room for; 8192 if none are asked for. -/
def CacheConfig.capacity (cfg : CacheConfig) : Nat :=
  if cfg.maxEntries = 0 then 8192 else cfg.maxEntries

inductive CacheEntry (Stat : Type) where
  | found (stat : Stat) (expires : Nat)
  | notFound (expires : Nat)
  deriving DecidableEq, Repr

structure MetaCache {Stat : Type} (L : Store Path (CacheEntry Stat)) where
  lru : L.Map
  cfg : CacheConfig

/-- `Path::parent`: the path without its last component, and without the separators and dots that
stand around it. -/
def parentPath (path : Path) : Option Path :=
  let trim := List.rdropWhile fun p => decide (p = [] ∨ p = ['.'])
  let first := (splitSlash path).headD []
  let parts := trim (splitSlash path).tail
  if parts = [] then
    -- the first part is a component by itself, a dot included
    if first = [] then none else some []
  else
    let before := trim parts.dropLast
    some (if first = [] then '/' :: List.intercalate ['/'] before
      else List.intercalate ['/'] (first :: before))

namespace CacheEntry

variable {Stat : Type}

def expires : CacheEntry Stat → Nat
  | .found _ t | .notFound t => t

def stat? : CacheEntry Stat → Option Stat
  | .found st _ => some st
  | .notFound _ => none

end CacheEntry

namespace MetaCache

section
variable {Stat : Type} {L : Store Path (CacheEntry Stat)}

def new (cfg : CacheConfig) : MetaCache L := ⟨L.new cfg.capacity, cfg⟩

/-- The attributes of the path, or that it is known not to exist; `none` if nothing is known or
it has expired. -/
def get (c : MetaCache L) (path : Path) (now : Nat) : Option (Option Stat) × MetaCache L :=
  match L.peek c.lru path with
  | none => (none, c)
  | some e =>
    if e.expires ≤ now then (none, { c with lru := L.pop c.lru path })
    else
      let (e, lru) := L.get c.lru path
      (e.map CacheEntry.stat?, { c with lru })

def insert (c : MetaCache L) (path : Path) (stat : Stat) (isDir : Bool) (now : Nat) : MetaCache L :=
  let ttl := if isDir then c.cfg.dirTtl else c.cfg.posTtl
  { c with lru := L.put c.lru path (.found stat (now + ttl.toNat)) }

def insertNegative (c : MetaCache L) (path : Path) (now : Nat) : MetaCache L :=
  { c with lru := L.put c.lru path (.notFound (now + c.cfg.negTtl.toNat)) }

def invalidate (c : MetaCache L) (path : Path) : MetaCache L :=
  let lru := L.pop c.lru path
  { c with lru := (parentPath path).elim lru (L.pop lru) }

def clear (c : MetaCache L) : MetaCache L := { c with lru := L.clear c.lru }

/-- What the cache holds for a path, expired or not. -/
def known (c : MetaCache L) (path : Path) : Option (Option Stat) :=
  (L.peek c.lru path).map CacheEntry.stat?

/-- Nothing is in the second cache that is not in the first. -/
def Forgets (c c' : MetaCache L) : Prop := ∀ p x, c'.known p = some x → c.known p = some x

theorem Forgets.trans {c c' c'' : MetaCache L} (h : c.Forgets c') (h' : c'.Forgets c'') :
    c.Forgets c'' := fun p x hx => h p x (h' p x hx)

end

section
variable {Stat : Type} {L : Store Path (CacheEntry Stat)} (hL : L.Laws) {c : MetaCache L}
  {path p : Path} {x : Option Stat} {now : Nat}
include hL

theorem forgets_clear (c : MetaCache L) : c.Forgets c.clear := by
  intro p x h
  obtain ⟨e, he, -⟩ := Option.map_eq_some_iff.mp h
  cases (hL.clear c.lru p).symm.trans he

theorem known_pop (h : ({ c with lru := L.pop c.lru path } : MetaCache L).known p = some x) :
    p ≠ path ∧ c.known p = some x := by
  obtain ⟨e, he, rfl⟩ := Option.map_eq_some_iff.mp h
  obtain ⟨hne, he⟩ := hL.pop he
  exact ⟨hne, by rw [known, he]; rfl⟩

theorem known_invalidate (h : (c.invalidate path).known p = some x) :
    p ≠ path ∧ c.known p = some x := by
  unfold invalidate at h
  cases hp : parentPath path with
  | none =>
    rw [hp] at h
    exact known_pop hL h
  | some q =>
    rw [hp] at h
    exact known_pop hL (known_pop (c := { c with lru := L.pop c.lru path }) hL h).2

theorem forgets_invalidate (c : MetaCache L) (path : Path) : c.Forgets (c.invalidate path) :=
  fun _ _ h => (known_invalidate hL h).2

theorem known_put {e : CacheEntry Stat}
    (h : ({ c with lru := L.put c.lru path e } : MetaCache L).known p = some x) :
    p = path ∧ x = e.stat? ∨ p ≠ path ∧ c.known p = some x := by
  obtain ⟨e', he, rfl⟩ := Option.map_eq_some_iff.mp h
  rcases hL.put he with ⟨rfl, rfl⟩ | ⟨hne, he⟩
  · exact .inl ⟨rfl, rfl⟩
  · exact .inr ⟨hne, by rw [known, he]; rfl⟩

theorem known_insert {stat : Stat} {isDir : Bool}
    (h : (c.insert path stat isDir now).known p = some x) :
    p = path ∧ x = some stat ∨ p ≠ path ∧ c.known p = some x := known_put hL h

theorem known_insertNegative (h : (c.insertNegative path now).known p = some x) :
    p = path ∧ x = none ∨ p ≠ path ∧ c.known p = some x := known_put hL h

theorem forgets_get (c : MetaCache L) (path : Path) (now : Nat) : c.Forgets (c.get path now).2 := by
  intro p x h
  unfold get at h
  split at h
  · exact h
  · split at h
    · exact (known_pop hL h).2
    · obtain ⟨e, he, rfl⟩ := Option.map_eq_some_iff.mp h
      rw [known, hL.get he]
      rfl

theorem peek_of_get (h : (c.get path now).1 = some x) :
    ∃ e, L.peek c.lru path = some e ∧ e.stat? = x ∧ now < e.expires := by
  unfold get at h
  split at h
  · cases h
  · next e he =>
    split_ifs at h with hexp
    obtain ⟨e', he', rfl⟩ := Option.map_eq_some_iff.mp h
    obtain rfl : e = e' := Option.some.inj (he.symm.trans (hL.found he'))
    exact ⟨e, he, rfl, Nat.not_le.mp hexp⟩

theorem known_of_get (h : (c.get path now).1 = some x) : c.known path = some x := by
  obtain ⟨e, he, rfl, -⟩ := peek_of_get hL h
  rw [known, he]
  rfl

end

end MetaCache

/-! ## Runs -/

inductive CacheOp (Stat : Type) where
  | get (path : Path)
  | insert (path : Path) (stat : Stat) (isDir : Bool)
  | insertNegative (path : Path)
  | invalidate (path : Path)
  | clear

namespace MetaCache

section
variable {Stat : Type}

def apply {L : Store Path (CacheEntry Stat)} (c : MetaCache L) (now : Nat) :
    CacheOp Stat → MetaCache L
  | .get path => (c.get path now).2
  | .insert path stat isDir => c.insert path stat isDir now
  | .insertNegative path => c.insertNegative path now
  | .invalidate path => c.invalidate path
  | .clear => c.clear

/-- The calls with the time of each, one after the other. -/
def runOps (L : Store Path (CacheEntry Stat)) (cfg : CacheConfig)
    (ops : List (Nat × CacheOp Stat)) :
    MetaCache L := ops.foldl (fun c o => c.apply o.1 o.2) (new cfg)

/-- A map that is told the same and forgets nothing by itself. -/
def tell (cfg : CacheConfig) (m : Path → Option (CacheEntry Stat)) (now : Nat) :
    CacheOp Stat → Path → Option (CacheEntry Stat)
  | .get _ => m
  | .insert path stat isDir =>
    let ttl := if isDir then cfg.dirTtl else cfg.posTtl
    Function.update m path (some (.found stat (now + ttl.toNat)))
  | .insertNegative path => Function.update m path (some (.notFound (now + cfg.negTtl.toNat)))
  | .invalidate path => fun p => if p = path ∨ parentPath path = some p then none else m p
  | .clear => fun _ => none

def told (cfg : CacheConfig) (ops : List (Nat × CacheOp Stat)) : Path → Option (CacheEntry Stat) :=
  ops.foldl (fun m o => tell cfg m o.1 o.2) fun _ => none

/-- What is in the cache is what the map was told last. -/
def Within {L : Store Path (CacheEntry Stat)} (c : MetaCache L)
    (m : Path → Option (CacheEntry Stat)) : Prop := ∀ p e, L.peek c.lru p = some e → m p = some e

end

section
variable {Stat : Type} {L : Store Path (CacheEntry Stat)} (hL : L.Laws) {c : MetaCache L}
  {m : Path → Option (CacheEntry Stat)} {now : Nat}
include hL

theorem Within.put (h : c.Within m) (path : Path) (e : CacheEntry Stat) :
    ({ c with lru := L.put c.lru path e } : MetaCache L).Within
      (Function.update m path (some e)) := by
  intro p e' he
  rcases hL.put he with ⟨rfl, rfl⟩ | ⟨hp, he⟩
  · exact Function.update_self ..
  · rw [Function.update_of_ne hp]
    exact h p e' he

theorem Within.apply (h : c.Within m) (now : Nat) (op : CacheOp Stat) :
    (c.apply now op).cfg = c.cfg ∧ (c.apply now op).Within (tell c.cfg m now op) := by
  cases op with
  | get path =>
    simp only [MetaCache.apply, get]
    split
    · exact ⟨rfl, h⟩
    · split
      · exact ⟨rfl, fun p e he => h p e (hL.pop he).2⟩
      · exact ⟨rfl, fun p e he => h p e (hL.get he)⟩
  | insert path stat isDir => exact ⟨rfl, h.put hL path _⟩
  | insertNegative path => exact ⟨rfl, h.put hL path _⟩
  | invalidate path =>
    refine ⟨rfl, fun p e he => ?_⟩
    simp only [MetaCache.apply, invalidate, tell] at he ⊢
    cases hq : parentPath path with
    | none =>
      rw [hq] at he
      obtain ⟨hp, he⟩ := hL.pop he
      simpa [hp] using h p e he
    | some q =>
      rw [hq] at he
      obtain ⟨hp', he⟩ := hL.pop he
      obtain ⟨hp, he⟩ := hL.pop he
      simpa [hp, Ne.symm hp'] using h p e he
  | clear => exact ⟨rfl, fun p e he => by cases (hL.clear c.lru p).symm.trans he⟩

theorem within_runOps (cfg : CacheConfig) (ops : List (Nat × CacheOp Stat)) :
    (runOps L cfg ops).cfg = cfg ∧ (runOps L cfg ops).Within (told cfg ops) := by
  induction ops using List.reverseRecOn with
  | nil => exact ⟨rfl, fun p e he => by cases (hL.new _ p).symm.trans he⟩
  | append_singleton ops o ih =>
    obtain ⟨hcfg, hw⟩ := ih.2.apply hL o.1 o.2
    rw [ih.1] at hcfg hw
    simpa [runOps, told] using ⟨hcfg, hw⟩

/-- **A hit is what was told last and has not expired**: after any calls at any times, and whatever
was dropped, a lookup answers with the latest entry of the path since it was last invalidated, by
itself or as the parent of another, or the cache was cleared. -/
theorem hit_told (cfg : CacheConfig) (ops : List (Nat × CacheOp Stat)) {path : Path}
    {x : Option Stat} (h : ((runOps L cfg ops).get path now).1 = some x) :
    ∃ e, told cfg ops path = some e ∧ e.stat? = x ∧ now < e.expires := by
  obtain ⟨e, he, hx, hexp⟩ := peek_of_get hL h
  exact ⟨e, (within_runOps hL cfg ops).2 path e he, hx, hexp⟩

end

theorem hit_told_one : ∃ e, told {} [(0, .insert ['/'] (7 : Nat) false)] ['/'] = some e ∧
    e.stat? = some 7 ∧ 1 < e.expires := hit_told lru_laws {} _ (by decide +kernel)

end MetaCache

end QuicFs.Client
