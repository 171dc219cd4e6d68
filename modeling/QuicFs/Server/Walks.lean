import QuicFs.Server.Effects
import QuicFs.Server.Resolve

/-!
# Walks that arrive at the same object

A walk that arrives needs only what it looked up on its way: it arrives in any filesystem that
still has that (`walk_extends`), without the confinement (`walk_unconfined`), and, unless it
stopped at a link, if the last link is to be followed too (`walk_follow`). So the calls of one
handler on one path all meet the same object as long as nothing is moved between them.

`openConfined_ends` is what `open_confined` comes to, with `openat2` or without it.
-/

namespace QuicFs.Server

open Lib

/-- A kind without the bytes of a file and the entries of a directory. -/
def Kind.shape : Kind → Kind
  | .file _ => .file []
  | .dir _ => .dir []
  | .symlink target => .symlink target

namespace Fs

/-- What is there is still there: every entry, and every object as the kind it is. -/
structure Extends (fs fs' : Fs) : Prop where
  lookup : ∀ {x m i}, fs.lookup x m = some i → fs'.lookup x m = some i
  shape : ∀ {x k}, fs.kind x = some k → (fs'.kind x).map Kind.shape = some k.shape

variable {fs fs' fs'' : Fs} {i d : Ino}

theorem extends_set {node node' : Node} (hn : fs.nodes i = some node)
    (hentries : ∀ es, node.kind = .dir es → node'.kind = .dir es)
    (hshape : node'.kind.shape = node.kind.shape) : fs.Extends (fs.set i (some node')) := by
  have hlt := lt_next_of_sort (sort_of_node hn)
  constructor
  · intro x m j hl
    obtain ⟨es, he, hl⟩ := Option.bind_eq_some_iff.mp hl
    rw [lookup, Option.bind_eq_some_iff]
    refine ⟨es, ?_, hl⟩
    by_cases e : x = i
    · subst e
      have hk : node.kind = .dir es := by
        unfold entries kind at he
        rw [hn] at he
        cases hk : node.kind <;> simp_all
      simp [entries, kind, nodes_set hlt, hentries es hk]
    · simpa [entries, kind, nodes_set hlt, e] using he
  · intro x k hk
    by_cases e : x = i
    · subst e
      obtain rfl : node.kind = k := by simpa [kind, hn] using hk
      simp [kind, nodes_set hlt, hshape]
    · simpa [kind, nodes_set hlt, e] using congrArg (Option.map Kind.shape) hk

theorem modify_extends {f : Node → Node} (hf : ∀ node, (f node).kind = node.kind)
    (h : fs.modify i f = .ok fs') : fs.Extends fs' := by
  obtain ⟨node, hn, rfl⟩ := modify_eq_ok h
  exact extends_set hn (fun es he => by rw [hf, he]) (by rw [hf])

theorem create_extends {name : Name} {mode : Nat} (hd : fs.sort d = some .dir)
    (hfree : fs.lookup d name = none) : fs.Extends (fs.create d name (.file []) mode) := by
  obtain ⟨hadds, -⟩ := create_adds hd hfree (show (Kind.file []).Leaf from trivial) mode
  constructor
  · intro x m j hl
    rw [hadds.lookup, if_neg]
    · exact hl
    · rintro ⟨rfl, rfl⟩
      rw [hfree] at hl
      cases hl
  · intro x k hk
    have hx : x ≠ fs.next := Nat.ne_of_lt (lt_next_of_sort (k := k.sort) (by rw [sort, hk]; rfl))
    have hd' : (fs.alloc ⟨.file [], mode, 0, 0⟩).sort d = some .dir := by
      rw [sort_alloc, if_neg (Nat.ne_of_lt (lt_next_of_sort hd)), hd]
    rw [create, addEntry, kind, nodes_setEntries hd']
    split
    · next e =>
      subst e
      obtain ⟨es, he⟩ := entries_of_sort hd
      have hkind : fs.kind x = some (.dir es) := by
        unfold entries at he
        split at he <;> simp_all
      obtain rfl : Kind.dir es = k := Option.some.inj (hkind.symm.trans hk)
      obtain ⟨node, hn, -⟩ := Option.map_eq_some_iff.mp hkind
      simp [alloc, hx, hn, Kind.shape]
    · simp only [alloc, if_neg hx]
      exact congrArg (Option.map Kind.shape) hk

end Fs

/-! ## The walk -/

section
variable {fs fs' : Fs} {base : Ino} {confined follow : Bool}

def WalkEnd.Arrives : WalkEnd → Prop
  | .found _ | .link .. => True
  | _ => False

theorem entries_extends (hx : fs.Extends fs') {x : Ino} {es : List (Name × Ino)}
    (he : fs.entries x = some es) :
    ∃ es', fs'.entries x = some es' ∧ ∀ {m i}, es.lookup m = some i → es'.lookup m = some i := by
  have hk : fs.kind x = some (.dir es) := by
    unfold Fs.entries at he
    split at he <;> simp_all
  obtain ⟨k', hk', hs⟩ := Option.map_eq_some_iff.mp (hx.shape hk)
  cases k' with
  | dir es' =>
    have he' : fs'.entries x = some es' := by rw [Fs.entries, hk']
    refine ⟨es', he', fun {m i} hl => ?_⟩
    rw [← Fs.lookup_of_entries he']
    exact hx.lookup (by rw [Fs.lookup_of_entries he, hl])
  | file _ | symlink _ => cases hs

theorem walkTo_extends (hx : fs.Extends fs') (todo : List Name) : ∀ {stack : List (Name × Ino)},
    (walkTo fs base confined follow stack todo).Arrives →
      walkTo fs' base confined follow stack todo = walkTo fs base confined follow stack todo := by
  induction todo with
  | nil => intro stack _; rfl
  | cons c cs ih =>
    intro stack h
    unfold walkTo at h ⊢
    cases he : fs.entries (top base stack) with
    | none => rw [he] at h; exact h.elim
    | some es =>
      obtain ⟨es', he', hsub⟩ := entries_extends hx he
      rw [he] at h
      rw [he']
      simp only at h ⊢
      split at h
      · next hdots =>
        simp only [if_pos hdots]
        cases stack with
        | nil =>
          simp only at h ⊢
          split at h
          · exact h.elim
          · next hc => simpa only [if_neg hc] using ih h
        | cons e stack => exact ih h
      · next hdots =>
        simp only [if_neg hdots]
        cases hl : es.lookup c with
        | none =>
          simp only [hl] at h
          split at h <;> exact h.elim
        | some i =>
          rw [hsub hl]
          simp only [hl] at h ⊢
          cases hk : fs.kind i with
          | none => simp only [hk] at h; exact h.elim
          | some k =>
            obtain ⟨k', hk', hs⟩ := Option.map_eq_some_iff.mp (hx.shape hk)
            rw [hk']
            cases k <;> cases k' <;> cases hs <;> simp only [hk] at h ⊢
            · exact ih h
            · exact ih h

theorem walk_extends (hx : fs.Extends fs') (links : Nat) :
    ∀ {stack st : List (Name × Ino)} {todo : List Name},
    walk fs base confined follow links stack todo = .found st →
      walk fs' base confined follow links stack todo = .found st := by
  induction links with
  | zero =>
    intro stack st todo h
    unfold walk at h ⊢
    split at h
    · cases h
    · rw [walkTo_extends hx todo (by rw [h]; trivial), h]
  | succ links ih =>
    intro stack st todo h
    unfold walk at h ⊢
    split at h
    · next e =>
      rw [walkTo_extends hx todo (by rw [e]; trivial), e]
      exact ih h
    · rw [walkTo_extends hx todo (by rw [h]; trivial), h]

theorem walkTo_absent (todo : List Name) : ∀ {stack st : List (Name × Ino)} {name : Name},
    walkTo fs base confined follow stack todo = .absent st name →
      fs.sort (top base st) = some .dir ∧ fs.lookup (top base st) name = none := by
  induction todo with
  | nil => intro stack st name h; cases h
  | cons c cs ih =>
    intro stack st name h
    unfold walkTo at h
    split at h
    · cases h
    · next es he =>
      split at h
      · split at h
        · split at h
          · cases h
          · exact ih h
        · exact ih h
      · split at h
        · next hl =>
          split at h
          · cases h
            exact ⟨Fs.sort_of_entries he, by rw [Fs.lookup_of_entries he, hl]⟩
          · cases h
        · split at h
          · split at h
            · cases h
            · split at h
              · split at h <;> cases h
              · cases h
          · exact ih h
          · cases h

theorem walk_absent (links : Nat) :
    ∀ {stack st : List (Name × Ino)} {todo : List Name} {name : Name},
    walk fs base confined follow links stack todo = .absent st name →
      fs.sort (top base st) = some .dir ∧ fs.lookup (top base st) name = none := by
  induction links with
  | zero =>
    intro stack st todo name h
    unfold walk at h
    split at h
    · cases h
    · exact walkTo_absent todo h
  | succ links ih =>
    intro stack st todo name h
    unfold walk at h
    split at h
    · exact ih h
    · exact walkTo_absent todo h

theorem walkTo_created {mode : Nat} (todo : List Name) :
    ∀ {stack st : List (Name × Ino)} {name : Name},
    walkTo fs base confined follow stack todo = .absent st name →
      walkTo (fs.create (top base st) name (.file []) mode) base confined follow stack todo =
        .found ((name, fs.next) :: st) := by
  induction todo with
  | nil => intro stack st name h; cases h
  | cons c cs ih =>
    intro stack st name h
    obtain ⟨hd, hfree⟩ := walkTo_absent _ h
    obtain ⟨hadds, hsort⟩ := Fs.create_adds hd hfree (show (Kind.file []).Leaf from trivial) mode
    have hx : fs.Extends (fs.create (top base st) name (.file []) mode) :=
      Fs.create_extends hd hfree
    unfold walkTo at h ⊢
    cases he : fs.entries (top base stack) with
    | none => rw [he] at h; cases h
    | some es =>
      obtain ⟨es', he', hsub⟩ := entries_extends hx he
      rw [he] at h
      rw [he']
      simp only at h ⊢
      split at h
      · next hdots =>
        simp only [if_pos hdots]
        cases stack with
        | nil =>
          simp only at h ⊢
          split at h
          · cases h
          · next hc => simpa only [if_neg hc] using ih h
        | cons e stack => exact ih h
      · next hdots =>
        simp only [if_neg hdots]
        cases hl : es.lookup c with
        | none =>
          simp only [hl] at h
          split at h
          · next hcs =>
            cases h
            -- the name that was free
            have hnew : es'.lookup c = some fs.next := by
              rw [← Fs.lookup_of_entries he', hadds.lookup, if_pos ⟨rfl, rfl⟩]
            obtain ⟨k, hk, hks⟩ := Option.map_eq_some_iff.mp hsort
            rw [hnew]
            simp only [hk]
            subst hcs
            cases k with
            | file data => rfl
            | dir _ | symlink _ => cases hks
          · cases h
        | some i =>
          rw [hsub hl]
          simp only [hl] at h ⊢
          cases hk : fs.kind i with
          | none => simp only [hk] at h; cases h
          | some k =>
            obtain ⟨k', hk', hs⟩ := Option.map_eq_some_iff.mp (hx.shape hk)
            rw [hk']
            cases k <;> cases k' <;> cases hs <;> simp only [hk] at h ⊢
            · exact ih h
            · exact ih h
            · split at h
              · cases h
              · split at h
                · split at h <;> cases h
                · cases h

theorem walk_created {mode : Nat} (links : Nat) :
    ∀ {stack st : List (Name × Ino)} {todo : List Name}
    {name : Name}, walk fs base confined follow links stack todo = .absent st name →
      walk (fs.create (top base st) name (.file []) mode) base confined follow links stack todo =
        .found ((name, fs.next) :: st) := by
  induction links with
  | zero =>
    intro stack st todo name h
    unfold walk at h ⊢
    split at h
    · cases h
    · rw [walkTo_created todo h]
  | succ links ih =>
    intro stack st todo name h
    have hfree := walk_absent (links + 1) h
    unfold walk at h ⊢
    split at h
    · next e =>
      rw [walkTo_extends (Fs.create_extends hfree.1 hfree.2) todo (by rw [e]; trivial), e]
      exact ih h
    · rw [walkTo_created todo h]

/-- The same walk with more entries below its start. -/
def WalkEnd.over (up : List (Name × Ino)) : WalkEnd → WalkEnd
  | .found stack => .found (stack ++ up)
  | .absent stack name => .absent (stack ++ up) name
  | .err e => .err e
  | .link stack todo => .link (stack ++ up) todo

theorem top_append (stack up : List (Name × Ino)) :
    top slash (stack ++ up) = top (top slash up) stack := by
  cases stack <;> rfl

theorem walkTo_unconfined (up : List (Name × Ino)) (todo : List Name) :
    ∀ {stack : List (Name × Ino)},
    (walkTo fs (top slash up) true follow stack todo).Arrives →
      walkTo fs slash false follow (stack ++ up) todo =
        (walkTo fs (top slash up) true follow stack todo).over up := by
  induction todo with
  | nil => intro stack _; rfl
  | cons c cs ih =>
    intro stack h
    unfold walkTo at h ⊢
    rw [top_append]
    split at h
    · exact h.elim
    · split at h
      · next hdots =>
        simp only [if_pos hdots]
        cases stack with
        | nil => exact h.elim
        | cons e stack => exact ih h
      · next hdots =>
        simp only [if_neg hdots]
        split at h
        · split at h <;> exact h.elim
        · split at h
          · next target _ =>
            simp only [Bool.false_eq_true, if_false]
            split at h
            · next hlast => rw [if_pos hlast, if_pos hlast]; rfl
            · next hlast =>
              rw [if_neg hlast, if_neg hlast]
              split at h
              · exact h.elim
              · next habs => rw [if_neg habs, if_neg habs]; rfl
          · exact ih h
          · exact h.elim

/-- **A confined walk arrives where the same walk does that is not confined.** -/
theorem walk_unconfined (up : List (Name × Ino)) (links : Nat) : ∀ {stack st : List (Name × Ino)}
    {todo : List Name}, walk fs (top slash up) true follow links stack todo = .found st →
      walk fs slash false follow links (stack ++ up) todo = .found (st ++ up) := by
  induction links with
  | zero =>
    intro stack st todo h
    unfold walk at h ⊢
    split at h
    · cases h
    · rw [walkTo_unconfined up todo (by rw [h]; trivial), h]
      rfl
  | succ links ih =>
    intro stack st todo h
    unfold walk at h ⊢
    split at h
    · next e =>
      rw [walkTo_unconfined up todo (by rw [e]; trivial), e]
      exact ih h
    · rw [walkTo_unconfined up todo (by rw [h]; trivial), h]
      rfl

theorem walkTo_follow (todo : List Name) : ∀ {stack : List (Name × Ino)},
    (walkTo fs base confined false stack todo).Arrives →
    (∀ st, walkTo fs base confined false stack todo = .found st →
      fs.isSymlink (top base st) = false) →
      walkTo fs base confined true stack todo = walkTo fs base confined false stack todo := by
  induction todo with
  | nil => intro stack _ _; rfl
  | cons c cs ih =>
    intro stack h hlink
    unfold walkTo at h hlink ⊢
    split at h
    · exact h.elim
    · next es he =>
      simp only [he] at hlink ⊢
      split at h
      · next hdots =>
        simp only [if_pos hdots] at hlink ⊢
        cases stack with
        | nil =>
          simp only at h hlink ⊢
          split at h
          · exact h.elim
          · next hc =>
            simp only [if_neg hc] at hlink ⊢
            exact ih h hlink
        | cons e stack => exact ih h hlink
      · next hdots =>
        simp only [if_neg hdots] at hlink ⊢
        split at h
        · split at h <;> exact h.elim
        · next i hl =>
          simp only [hl] at hlink ⊢
          split at h
          · next target hk =>
            simp only [hk] at hlink ⊢
            split at h
            · next hlast =>
              rw [if_pos hlast] at hlink
              have := hlink _ rfl
              simp [top, Fs.isSymlink, hk] at this
            · next hlast =>
              have hcs : ¬(cs = [] ∧ (!true) = true) := by simp
              rw [if_neg hlast, if_neg hcs]
          · next k hns hk =>
            rw [hk] at hlink
            cases k with
            | symlink target => exact absurd rfl (hns target)
            | file _ | dir _ => exact ih h hlink
          · exact h.elim

/-- **A walk that stops at no link goes on to the same object if links are followed.** -/
theorem walk_follow (links : Nat) : ∀ {stack st : List (Name × Ino)} {todo : List Name},
    walk fs base confined false links stack todo = .found st → fs.isSymlink (top base st) = false →
      walk fs base confined true links stack todo = .found st := by
  induction links with
  | zero =>
    intro stack st todo h hlink
    unfold walk at h ⊢
    split at h
    · cases h
    · rw [walkTo_follow todo (by rw [h]; trivial) (by rw [h]; rintro _ ⟨⟩; exact hlink), h]
  | succ links ih =>
    intro stack st todo h hlink
    unfold walk at h ⊢
    split at h
    · next e =>
      rw [walkTo_follow todo (by rw [e]; trivial) (by rw [e]; rintro _ ⟨⟩), e]
      exact ih h hlink
    · rw [walkTo_follow todo (by rw [h]; trivial) (by rw [h]; rintro _ ⟨⟩; exact hlink), h]

end

theorem WalkEnd.place_eq_obj {base i : Ino} {w : WalkEnd} :
    w.place base = .obj i ↔ ∃ st, w = .found st ∧ top base st = i := by
  cases w <;> simp [WalkEnd.place]

theorem WalkEnd.place_eq_free {base d : Ino} {w : WalkEnd} {name : Name} :
    w.place base = .free d name ↔ ∃ st, w = .absent st name ∧ top base st = d := by
  cases w with
  | absent st m =>
    simp only [WalkEnd.place, Place.free.injEq, WalkEnd.absent.injEq]
    constructor
    · rintro ⟨h, rfl⟩
      exact ⟨st, ⟨rfl, rfl⟩, h⟩
    · rintro ⟨st', ⟨rfl, rfl⟩, h⟩
      exact ⟨h, rfl⟩
  | found _ | err _ | link _ _ => simp [WalkEnd.place]

theorem statAt_of_place {fs : Fs} {w : WalkEnd} {i : Ino} {node : Node}
    (hw : w.place slash = .obj i) (hn : fs.nodes i = some node) : statAt fs w = .ok (i, node) := by
  rw [Fs.statAt_eq, hw, Fs.statPlace, hn]

theorem place_of_statAt {fs : Fs} {w : WalkEnd} {st : Ino × Node} (hst : statAt fs w = .ok st) :
    w.place slash = .obj st.1 ∧ fs.nodes st.1 = some st.2 := by
  cases w with
  | found stack =>
    simp only [statAt] at hst
    split at hst
    · next node hn => cases hst; exact ⟨rfl, hn⟩
    · cases hst
  | absent _ _ | err _ | link _ _ => cases hst

/-! ## What `open_confined` opens -/

/-- Where `open_confined` looks: beneath the root, or along the path where there is no `openat2`. -/
def Kernel.place (kernel : Kernel) (ex : Export) (fs : Fs) (follow : Bool) (path : RootPath) :
    Place :=
  if kernel.hasOpenat2 then (kernel.beneath fs ex.root follow path.names).place ex.root
  else (walkPath ex fs follow path).place slash

theorem limited_found {P : Prop} [Decidable P] {w : WalkEnd} {st : List (Name × Ino)} :
    (if P then w else .err .enametoolong) = .found st ↔ P ∧ w = .found st := by
  split <;> simp_all

theorem limited_absent {P : Prop} [Decidable P] {w : WalkEnd} {st : List (Name × Ino)}
    {name : Name} :
    (if P then w else .err .enametoolong) = .absent st name ↔ P ∧ w = .absent st name := by
  split <;> simp_all

section
variable {kernel : Kernel} {ex : Export} {fs fs' : Fs} {follow : Bool} {path : RootPath} {i d : Ino}
  (hs : Standing kernel ex)
include hs

theorem place_extends (hx : fs.Extends fs') (h : kernel.place ex fs follow path = .obj i) :
    kernel.place ex fs' follow path = .obj i := by
  unfold Kernel.place at h ⊢
  rw [hs.walks] at h ⊢
  split at h
  · next hk =>
    rw [if_pos hk]
    obtain ⟨st, hw, hi⟩ := WalkEnd.place_eq_obj.mp h
    exact WalkEnd.place_eq_obj.mpr
      ⟨st, limited_found.mpr ((limited_found.mp hw).imp_right (walk_extends hx _)), hi⟩
  · next hk =>
    rw [if_neg hk]
    obtain ⟨st, hw, hi⟩ := WalkEnd.place_eq_obj.mp h
    exact WalkEnd.place_eq_obj.mpr
      ⟨st, limited_found.mpr ((limited_found.mp hw).imp_right (walk_extends hx _)), hi⟩

theorem place_created {name : Name} {mode : Nat}
    (h : kernel.place ex fs follow path = .free d name) :
    kernel.place ex (fs.create d name (.file []) mode) follow path = .obj fs.next := by
  unfold Kernel.place at h ⊢
  rw [hs.walks] at h ⊢
  split at h
  · next hk =>
    rw [if_pos hk]
    obtain ⟨st, hw, rfl⟩ := WalkEnd.place_eq_free.mp h
    exact WalkEnd.place_eq_obj.mpr
      ⟨_, limited_found.mpr ((limited_absent.mp hw).imp_right (walk_created _)), rfl⟩
  · next hk =>
    rw [if_neg hk]
    obtain ⟨st, hw, rfl⟩ := WalkEnd.place_eq_free.mp h
    exact WalkEnd.place_eq_obj.mpr
      ⟨_, limited_found.mpr ((limited_absent.mp hw).imp_right (walk_created _)), rfl⟩

theorem place_follow (h : kernel.place ex fs false path = .obj i) (hi : fs.isSymlink i = false) :
    kernel.place ex fs true path = .obj i := by
  unfold Kernel.place at h ⊢
  rw [hs.walks] at h ⊢
  split at h
  · next hk =>
    rw [if_pos hk]
    obtain ⟨st, hw, rfl⟩ := WalkEnd.place_eq_obj.mp h
    have hw := limited_found.mp hw
    exact WalkEnd.place_eq_obj.mpr ⟨st, limited_found.mpr ⟨hw.1, walk_follow _ hw.2 hi⟩, rfl⟩
  · next hk =>
    rw [if_neg hk]
    obtain ⟨st, hw, rfl⟩ := WalkEnd.place_eq_obj.mp h
    have hw := limited_found.mp hw
    exact WalkEnd.place_eq_obj.mpr ⟨st, limited_found.mpr ⟨hw.1, walk_follow _ hw.2 hi⟩, rfl⟩

theorem place_plain (h : kernel.place ex fs follow path = .obj i) :
    (walkPlain ex fs follow path).place slash = .obj i := by
  unfold Kernel.place at h
  rw [hs.walks, ← hs.root] at h
  split at h
  · obtain ⟨st, hw, rfl⟩ := WalkEnd.place_eq_obj.mp h
    exact WalkEnd.place_eq_obj.mpr
      ⟨st ++ ex.stack, walk_unconfined ex.stack _ (limited_found.mp hw).2,
      top_append st ex.stack⟩
  · obtain ⟨st, hw, rfl⟩ := WalkEnd.place_eq_obj.mp h
    exact WalkEnd.place_eq_obj.mpr ⟨st, (walkPath_found.mp hw).2, rfl⟩

end

/-- The call does not do what the filesystem says, or it is asked for a time that is none or about a
path that is too long. -/
def Sys.fails (kernel : Kernel) (ex : Export) (a : Sys) (c : Choice) : Bool :=
  match a with
  | .reply _ | .tryInsert .. | .getFile .. | .getWriteCtx .. | .removeHandle .. | .unlockStripe _ =>
    false
  | .openat2 .. => kernel.hasOpenat2 && c.fault.isSome
  | .utimens _ atime mtime =>
    c.fault.isSome || !decide ((∀ ts ∈ atime, ts.Valid) ∧ ∀ ts ∈ mtime, ts.Valid)
  | .stat path => c.fault.isSome || !decide (ex.Fits path)
  | _ => c.fault.isSome

section
variable {kernel : Kernel} {ex : Export} {n : Nat} {h : Host}
    {K : Sys → Choice → Host → Prop} {P : Prop}

theorem reply_ends {r : Response} {Q : Unit → Host → Prop → Prop}
    (hQ : ∀ c, Q () { h with replies := h.replies ++ [(n, r)] } (K (.reply r) c h ∧ True)) :
    (reply r).Ends (Sys.exec kernel ex n) K h Q := by
  rintro c _ _ ⟨⟩
  exact hQ c

/-- The operator `?`: the rest runs on a success. -/
theorem Io.ends_bind {α β : Type} {p : Io α} {f : α → Io β}
    {Q : Except IoError β → Host → Prop → Prop}
    (hp : p.toCalls.Ends (Sys.exec kernel ex n) K h fun r h' ok =>
      (∀ x, r = .ok x → (f x).toCalls.Ends (Sys.exec kernel ex n) K h' fun y h'' ok' => Q y h''
        (ok ∧ ok')) ∧
        ∀ e, r = .error e → Q (.error e) h' ok) :
    (p >>= f).toCalls.Ends (Sys.exec kernel ex n) K h Q := by
  refine Prog.Ends.bind (hp.mono ?_)
  rintro (e | x) h' ok ⟨hok, herr⟩
  · have := herr e rfl
    rwa [← and_true ok] at this
  · exact hok x rfl

/-- **What `open_confined` comes to.** `P` stands for the states in which a call must not fail. -/
theorem openConfined_ends {path : RootPath} {flags : OpenFlags} {mode : Nat}
    (hK : ∀ a c, a = .openat2 path flags mode ∨ a = .openPlain path flags mode →
      (K a c h ↔ (P → a.fails kernel ex c = false))) :
    (openConfined path flags mode).toCalls.Ends (Sys.exec kernel ex n) K h fun r h' ok =>
      (∃ i fs, r = .ok i ∧ h' = { h with fs } ∧
        h.fs.openPlace flags mode (kernel.place ex h.fs (!flags.noFollow) path) =
        .ok (i, fs) ∧ ok) ∨
      (∃ e, r = .error e ∧ h' = h ∧ (¬P → ok) ∧
        (P → ok → ∃ e', h.fs.openPlace flags mode (kernel.place ex h.fs (!flags.noFollow) path) =
          .error e')) := by
  intro c r h' he
  have hK₂ := hK (.openat2 path flags mode) c (.inl rfl)
  change openBeneath kernel ex h path flags mode c.fault = some (r, h') at he
  unfold openBeneath at he
  unfold Kernel.place
  by_cases hk : kernel.hasOpenat2
  · rw [if_pos hk] at he
    rw [if_pos hk, ← Fs.openAt_eq]
    have hfails : (Sys.openat2 path flags mode).fails kernel ex c = c.fault.isSome := by
      simp [Sys.fails, hk]
    rw [hfails] at hK₂
    split at he
    · cases he
    · next hno =>
      rcases withFault_eq_some he with ⟨hf, i, fs, hx, rfl, rfl⟩ | ⟨⟨e, rfl⟩, hsame, hx⟩
      · refine .inl ⟨i, fs, rfl, rfl, hx, ?_, trivial⟩
        exact hK₂.mpr fun _ => by rw [hf]; rfl
      · have hne : e ≠ .enosys := fun h => hno _ (h ▸ he)
        have hkept : ¬P → K (.openat2 path flags mode) c h ∧ True := fun hp =>
          ⟨hK₂.mpr fun h => absurd h hp, trivial⟩
        have hfault : P → K (.openat2 path flags mode) c h ∧ True →
            ∃ e', h.fs.openAt ex.root flags mode
              (kernel.beneath h.fs ex.root (!flags.noFollow) (path.map (·.1))) = .error e' := by
          rintro hp ⟨hk, -⟩
          exact hx (by simpa using hK₂.mp hk hp)
        cases e with
        | enosys => exact absurd rfl hne
        | _ => exact .inr ⟨_, rfl, hsame, hkept, hfault⟩
  · rw [if_neg hk] at he
    rw [if_neg hk, ← Fs.openAt_eq]
    cases he
    have hbeneath : K (.openat2 path flags mode) c h := hK₂.mpr fun _ => by simp [Sys.fails, hk]
    intro c' r h' he
    have hK₁ := hK (.openPlain path flags mode) c' (.inr rfl)
    rcases withFault_eq_some he with ⟨hf, i, fs, hx, rfl, rfl⟩ | ⟨⟨e, rfl⟩, hsame, hx⟩
    · refine .inl ⟨i, fs, rfl, rfl, hx, hbeneath, ?_, trivial⟩
      exact hK₁.mpr fun _ => by simp [Sys.fails, hf]
    · refine .inr ⟨_, rfl, hsame, fun hp => ⟨hbeneath, hK₁.mpr fun h => absurd h hp, trivial⟩, ?_⟩
      rintro hp ⟨-, hk₁, -⟩
      exact hx (by simpa [Sys.fails] using hK₁.mp hk₁ hp)

/-! ## What `resolve` comes to -/

def Sys.Looks : Sys → Prop
  | .exists _ | .isSymlink _ | .canonicalize _ => True
  | _ => False

theorem Sys.Looks.reads {a : Sys} (ha : a.Looks) : a.Reads := by
  cases a with
  | «exists» | isSymlink | canonicalize => trivial
  | _ => exact ha.elim

theorem checkIntermediate_looks (path : RootPath) : ∀ walking : RootPath,
    (checkIntermediate walking path).Only Sys.Looks := by
  induction path with
  | nil => exact fun _ => trivial
  | cons c cs ih =>
    intro walking
    cases cs with
    | nil => trivial
    | cons c' cs =>
      refine ⟨trivial, fun link => ?_⟩
      dsimp only
      split
      · trivial
      · exact ih _

theorem checkCanonical_looks (path : RootPath) : (checkCanonical ex path).Only Sys.Looks := by
  refine ⟨trivial, fun there => ?_⟩
  dsimp only
  split
  · exact ⟨trivial, fun _ => ⟨trivial, fun _ => trivial⟩⟩
  · trivial

theorem resolve_ends (hK : ∀ a c, a.Looks → K a c h) (path : List Char) :
    (resolve ex path).Ends (Sys.exec kernel ex n) K h fun r h' ok =>
      h' = h ∧ ok ∧ ∀ p, r = .ok p → normalise path = .ok p := by
  have hlook : ∀ a : Sys, a.Looks → ∀ c r h', a.exec kernel ex n c h = some (r, h') →
      h' = h ∧ K a c h :=
    fun a ha c _ _ he => ⟨exec_reads ha.reads he, hK a c ha⟩
  unfold resolve
  cases hn : normalise path with
  | error e => exact ⟨rfl, trivial, fun p hp => by cases hp⟩
  | ok joined =>
    refine .bind ((Prog.ends_of_only (checkIntermediate_looks joined []) hlook).mono ?_)
    rintro (e | u) h₁ ok ⟨rfl, hok⟩
    · exact ⟨rfl, ⟨hok, trivial⟩, fun p hp => by cases hp⟩
    · refine .bind ((Prog.ends_of_only (checkCanonical_looks joined) hlook).mono ?_)
      rintro (e | u) h₂ ok' ⟨rfl, hok'⟩
      · exact ⟨rfl, ⟨hok, hok', trivial⟩, fun p hp => by cases hp⟩
      · exact ⟨rfl, ⟨hok, hok', trivial⟩, fun p hp => hp⟩

end

end QuicFs.Server
