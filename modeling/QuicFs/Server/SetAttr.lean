import QuicFs.Server.Create

/-!
# What a SetAttr leaves behind

`handle_setattr` makes up to three changes by separate calls, each to what was opened at the path,
and stops at the first call that fails. All the calls meet the same object (`applySetattr_ends`),
so the request is carried out whole unless a call fails after the first change. The owner is never
changed, whatever the `valid` bits ask for. `setattr_atomic_iff` says that nothing else goes wrong.

The owners are a function of the inode that no call changes.
-/

namespace QuicFs.Server

open Lib

/-- `SetAttrRequest`. -/
structure SetAttr where
  seq : UInt64
  path : List Char
  valid : UInt32
  mode : UInt32
  uid : UInt32
  gid : UInt32
  size : UInt64
  atime : Int64
  mtime : Int64
  deriving DecidableEq

/-- The uid and the gid. -/
abbrev Owner := UInt32 × UInt32

namespace SetAttr

/-- The handler reads neither the uid nor the gid. -/
def handler (q : SetAttr) (ex : Export) : Calls Unit :=
  handleSetattr ex q.seq q.path q.valid q.mode q.size q.atime q.mtime

/-- The owner that is asked for is the one there is. -/
def OwnerAsked (q : SetAttr) (own : Ino → Owner) (i : Ino) : Prop :=
  (bit q.valid 0x2 → (own i).1 = q.uid) ∧ (bit q.valid 0x4 → (own i).2 = q.gid)

/-- The object with the mode and the times that are asked for. -/
def timed (q : SetAttr) (node : Node) : Node where
  kind := node.kind
  mode := if bit q.valid 0x1 then permBits q.mode else node.mode
  atime := if bit q.valid 0x10 then q.atime.toInt else node.atime
  mtime := if bit q.valid 0x20 then q.mtime.toInt else node.mtime

def sized (q : SetAttr) (node : Node) (data : Bytes) : Node :=
  { node with kind := .file (data.takeD q.size.toNat 0) }

/-- The object has every attribute that is asked for, and the others as they were. -/
structure Carried (q : SetAttr) (own : Ino → Owner) (i : Ino) (node node' : Node) : Prop where
  mode : node'.mode = if bit q.valid 0x1 then permBits q.mode else node.mode
  owner : q.OwnerAsked own i
  size : bit q.valid 0x8 → ∃ data, node.kind = .file data ∧
    node'.kind = .file (data.takeD q.size.toNat 0)
  content : bit q.valid 0x8 = false → node'.kind = node.kind
  atime : node'.atime = if bit q.valid 0x10 then q.atime.toInt else node.atime
  mtime : node'.mtime = if bit q.valid 0x20 then q.mtime.toInt else node.mtime

end SetAttr

/-- A SetAttr that is refused has changed nothing. One that is granted has done to the object at
the path what it asks for, and nothing else. -/
def AllOrNothing (q : SetAttr) (own : Ino → Owner) (ex : Export) (n : Nat) (h h' : Host) : Prop :=
  ∃ r, h'.replies = h.replies ++ [(n, r)] ∧ (r.status ≠ .ok → h'.fs = h.fs) ∧
    (r.status = .ok → ∃ p i node node', normalise q.path = .ok p ∧
      (walkPlain ex h.fs true p).place slash = .obj i ∧ h.fs.nodes i = some node ∧
      h'.fs.nodes i = some node' ∧ q.Carried own i node node' ∧ ∀ j, j ≠ i →
      h'.fs.nodes j = h.fs.nodes j)

/-- Once the filesystem is not as it was no call fails, and the owner that is asked for is the one
of the object the last call finds. -/
def Sparing (q : SetAttr) (own : Ino → Owner) (kernel : Kernel) (ex : Export) (fs₀ : Fs) (a : Sys)
    (c : Choice) (h : Host) : Prop :=
  (h.fs ≠ fs₀ → a.fails kernel ex c = false) ∧
    ∀ path st, a = .stat path → c.fault = none →
      statAt h.fs (walkPath ex h.fs true path) = .ok st → q.OwnerAsked own st.1

namespace Fs

theorem ext_nodes {fs fs' : Fs} (hn : fs.nodes = fs'.nodes) (hx : fs.next = fs'.next) :
    fs = fs' := by
  cases fs
  cases fs'
  cases hn
  cases hx
  rfl

variable {fs : Fs} {i : Ino} {node node' : Node}

theorem lt_next_of_node (h : fs.nodes i = some node) : i < fs.next :=
  lt_next_of_sort (sort_of_node h)

theorem set_set (a b : Option Node) : (fs.set i a).set i b = fs.set i b := by
  refine ext_nodes (funext fun j => ?_) rfl
  simp only [set]
  split <;> rfl

theorem set_self (h : fs.nodes i = some node) : fs.set i (some node) = fs := by
  refine ext_nodes (funext fun j => ?_) rfl
  simp only [set]
  split
  · next hj => rw [hj.1, h]
  · rfl

theorem nodes_set_self (h : fs.nodes i = some node) (n : Option Node) :
    (fs.set i n).nodes i = n := by
  rw [nodes_set (lt_next_of_node h), if_pos rfl]

theorem nodes_set_of_ne {j : Ino} (hj : j ≠ i) (n : Option Node) :
    (fs.set i n).nodes j = fs.nodes j := by
  simp [set, hj]

end Fs

theorem bit_modeTimes {valid : UInt32} (h : bit valid (0x1 ||| 0x10 ||| 0x20) = false) :
    bit valid 0x1 = false ∧ bit valid 0x10 = false ∧ bit valid 0x20 = false := by
  have hmask : ∀ m : UInt32, (0x1 ||| 0x10 ||| 0x20) &&& m = m → bit valid m = false := by
    intro m hm
    have h0 : valid &&& (0x1 ||| 0x10 ||| 0x20) = 0 := by simpa [bit] using h
    have hm' : valid &&& m = 0 := by rw [← hm, ← UInt32.and_assoc, h0, UInt32.zero_and]
    simp [bit, hm']
  exact ⟨hmask _ rfl, hmask _ rfl, hmask _ rfl⟩

section
variable {q : SetAttr} {own : Ino → Owner} {kernel : Kernel} {ex : Export} {fs₀ : Fs}
    {n : Nat} {h : Host}

theorem sparing_iff {a : Sys} {c : Choice} (ha : ∀ path, a ≠ .stat path) :
    Sparing q own kernel ex fs₀ a c h ↔ (h.fs ≠ fs₀ → a.fails kernel ex c = false) :=
  and_iff_left fun path _ e => absurd e (ha path)

/-- How a change ends: it is made, or its call fails and all is as before. -/
def Made (h : Host) (fs₀ fs : Fs) (r : Except IoError Unit) (h' : Host) (ok : Prop) : Prop :=
  (r = .ok () ∧ h' = { h with fs } ∧ ok) ∨ ∃ e, r = .error e ∧ h' = h ∧ (ok ↔ h.fs = fs₀)

theorem fchmod_ends {fd : Ino} {node : Node} (hn : h.fs.nodes fd = some node) (mode : Nat) :
    (Io.sys (.fchmod fd mode) id).toCalls.Ends (Sys.exec kernel ex n)
    (Sparing q own kernel ex fs₀) h
      (Made h fs₀ (h.fs.set fd (some { node with mode }))) := by
  intro c r h' he
  have hK : Sparing q own kernel ex fs₀ (.fchmod fd mode) c h ↔
      (h.fs ≠ fs₀ → c.fault.isSome = false) :=
    sparing_iff fun _ e => by cases e
  have hset : h.fs.modify fd ({ · with mode }) = .ok (h.fs.set fd (some { node with mode })) := by
    rw [Fs.modify, hn]
  rcases withFault_unit_eq_some he with ⟨hf, fs, hx, rfl, rfl⟩ | ⟨⟨e, rfl⟩, hsame, hx⟩
  · obtain rfl := Except.ok.inj (hset.symm.trans hx)
    exact .inl ⟨rfl, rfl, hK.mpr fun _ => by rw [hf]; rfl, trivial⟩
  · refine .inr ⟨_, rfl, hsame, ?_⟩
    have hf : c.fault.isSome = true := by
      by_contra hf
      obtain ⟨e, hx⟩ := hx (by simpa using hf)
      rw [hset] at hx
      cases hx
    rw [and_true, hK, hf]
    simp

theorem utimens_ends {fd : Ino} {node : Node} (hn : h.fs.nodes fd = some node)
    (atime mtime : Option Timespec) :
    (Io.sys (.utimens fd atime mtime) id).toCalls.Ends (Sys.exec kernel ex n)
    (Sparing q own kernel ex fs₀) h
      (Made h fs₀ (h.fs.set fd (some { node with
        atime := (atime.map fun ts => ts.sec * 1000000000 + ts.nsec).getD node.atime
        mtime := (mtime.map fun ts => ts.sec * 1000000000 + ts.nsec).getD node.mtime }))) := by
  intro c r h' he
  have hK : Sparing q own kernel ex fs₀ (.utimens fd atime mtime) c h ↔
      (h.fs ≠ fs₀ → (Sys.utimens fd atime mtime).fails kernel ex c = false) :=
    sparing_iff fun _ e => by cases e
  rcases withFault_unit_eq_some he with ⟨hf, fs, hx, rfl, rfl⟩ | ⟨⟨e, rfl⟩, hsame, hx⟩
  · unfold Fs.utimens at hx
    split at hx
    · next hvalid =>
      rw [Fs.modify, hn] at hx
      obtain rfl := Except.ok.inj hx
      refine .inl ⟨rfl, rfl, hK.mpr fun _ => ?_, trivial⟩
      simp only [Sys.fails, hf, decide_eq_true hvalid]
      rfl
    · cases hx
  · refine .inr ⟨_, rfl, hsame, ?_⟩
    have hfails : (Sys.utimens fd atime mtime).fails kernel ex c = true := by
      by_contra hnot
      simp only [Sys.fails, Bool.or_eq_true, Bool.not_eq_true', decide_eq_false_iff_not, not_or,
        not_not] at hnot
      obtain ⟨e, hx⟩ := hx (by simpa using hnot.1)
      rw [Fs.utimens, if_pos hnot.2, Fs.modify, hn] at hx
      cases hx
    rw [and_true, hK, hfails]
    simp

theorem openPlace_path {fs fs' : Fs} {pl : Place} {j : Ino}
    (hopen : fs.openPlace { access := .path } 0 pl = .ok (j, fs')) :
    fs' = fs ∧ pl = .obj j ∧ ∃ node, fs.nodes j = some node := by
  have hsame := openPlace_same rfl rfl hopen
  cases pl with
  | err e => cases hopen
  | free d name => cases hopen
  | obj k =>
    simp only [Fs.openPlace, Fs.openAt] at hopen
    split at hopen
    · cases hopen
    · split at hopen
      · cases hopen
      · next node hn =>
        have hk : k = j := by
          split at hopen <;> simp at hopen <;> exact hopen.1
        subst hk
        exact ⟨hsame, rfl, node, hn⟩

theorem openPlace_path_ne {fs : Fs} {j : Ino} {node : Node} (hn : fs.nodes j = some node)
    (e : Errno) : fs.openPlace { access := .path } 0 (.obj j) ≠ .error e := by
  simp only [Fs.openPlace, Fs.openAt]
  simp only [top, List.head?_nil, Option.map_none, Option.getD_none, hn]
  cases node.kind <;> simp

/-- How some of the changes end. After a success `D` holds of the filesystem; a failure is no harm
only if nothing has been changed. -/
def Stage (h : Host) (fs₀ : Fs) (D : Fs → Prop) (r : Except IoError Unit) (h' : Host) (ok : Prop) :
    Prop :=
  (∃ fs, h' = { h with fs }) ∧ (r = .ok () → ok ∧ D h'.fs) ∧ ∀ e, r = .error e → (ok ↔ h'.fs = fs₀)

theorem mode_ends {fd : Ino} {node : Node} (hn : h.fs.nodes fd = some node) :
    (Io.when (bit q.valid 0x1) (Io.sys (.fchmod fd (permBits q.mode)) id)).toCalls.Ends
    (Sys.exec kernel ex n)
      (Sparing q own kernel ex fs₀) h (Made h fs₀ (h.fs.set fd (some { node with
        mode := if bit q.valid 0x1 then permBits q.mode else node.mode }))) := by
  cases hb : bit q.valid 0x1 with
  | true => exact fchmod_ends hn _
  | false => exact .inl ⟨rfl, by rw [if_neg Bool.false_ne_true, Fs.set_self hn], trivial⟩

theorem nanos_getD (b : Bool) (ns : Int64) (t : Int) :
    ((if b then some (nsToTimespec ns) else none).map fun ts => ts.sec * 1000000000 + ts.nsec).getD
    t =
      if b then ns.toInt else t := by
  cases b with
  | true => exact nanos_nsToTimespec ns
  | false => rfl

/-- The times, if they are asked for. -/
theorem times_ends {fd : Ino} {node : Node} (hn : h.fs.nodes fd = some node) :
    (Io.when (bit q.valid 0x10 || bit q.valid 0x20)
      (Io.sys (.utimens fd (if bit q.valid 0x10 then some (nsToTimespec q.atime) else none)
        (if bit q.valid 0x20 then some (nsToTimespec q.mtime) else none)) id)).toCalls.Ends
      (Sys.exec kernel ex n) (Sparing q own kernel ex fs₀) h
      (Made h fs₀ (h.fs.set fd (some { node with
        atime := if bit q.valid 0x10 then q.atime.toInt else node.atime
        mtime := if bit q.valid 0x20 then q.mtime.toInt else node.mtime }))) := by
  have hset := @utimens_ends q own kernel ex fs₀ n h fd node hn
    (if bit q.valid 0x10 then some (nsToTimespec q.atime) else none)
    (if bit q.valid 0x20 then some (nsToTimespec q.mtime) else none)
  rw [nanos_getD, nanos_getD] at hset
  cases hb : bit q.valid 0x10 || bit q.valid 0x20 with
  | true => exact hset
  | false =>
    obtain ⟨ha, hm⟩ := Bool.or_eq_false_iff.mp hb
    exact .inl ⟨rfl, by simp [ha, hm, Fs.set_self hn], trivial⟩

/-- The mode and the times: on what the path leads to, which is there if anything was changed
before. -/
theorem setModeTimes_ends {p : RootPath} (hthere : h.fs ≠ fs₀ → ∃ j node,
      kernel.place ex h.fs true p = .obj j ∧ h.fs.nodes j = some node) :
    (setModeTimes p q.valid q.mode q.atime q.mtime).toCalls.Ends (Sys.exec kernel ex n)
      (Sparing q own kernel ex fs₀) h (Stage h fs₀ fun fs => ∃ j node,
        kernel.place ex h.fs true p = .obj j ∧ h.fs.nodes j = some node ∧
          fs = h.fs.set j (some (q.timed node))) := by
  refine Io.ends_bind ((openConfined_ends (P := h.fs ≠ fs₀) fun a c ha => ?_).mono ?_)
  · rcases ha with rfl | rfl <;> exact sparing_iff fun _ e => by cases e
  rintro r h₁ ok (⟨fd, fs, rfl, rfl, hopen, hok⟩ | ⟨e, rfl, rfl, hkept, hfault⟩)
  · obtain ⟨rfl, hplace, node, hn⟩ := openPlace_path hopen
    refine ⟨?_, fun e he => by cases he⟩
    rintro _ ⟨⟩
    refine Io.ends_bind ((mode_ends hn).mono ?_)
    rintro r h₂ ok₂ (⟨rfl, rfl, hok₂⟩ | ⟨e, rfl, rfl, hok₂⟩)
    · refine ⟨?_, fun e he => (by cases he)⟩
      rintro _ ⟨⟩
      refine (times_ends (Fs.nodes_set_self hn _)).mono ?_
      rintro r h₃ ok₃ (⟨rfl, rfl, hok₃⟩ | ⟨e, rfl, rfl, hok₃⟩)
      · refine ⟨⟨_, rfl⟩, fun _ => ⟨⟨hok, hok₂, hok₃⟩, fd, node, hplace, hn, ?_⟩,
          fun e he => (by cases he)⟩
        rw [Fs.set_set]
        rfl
      · refine ⟨⟨_, rfl⟩, fun hr => (by cases hr), fun e _ => ?_⟩
        rw [and_iff_right hok, and_iff_right hok₂, hok₃]
    · refine ⟨fun x hx => (by cases hx),
        fun e _ => ⟨⟨_, rfl⟩, fun hr => (by cases hr), fun e _ => ?_⟩⟩
      rw [and_iff_right hok, hok₂]
  · refine ⟨fun x hx => (by cases hx), ?_⟩
    rintro _ ⟨⟩
    refine ⟨⟨_, rfl⟩, fun hr => (by cases hr), fun e _ => ⟨fun hok => ?_, fun hsame => ?_⟩⟩
    rotate_left
    · exact hkept fun hne => hne hsame
    by_contra hne
    obtain ⟨j, node, hplace, hn⟩ := hthere hne
    obtain ⟨e', he'⟩ := hfault hne hok
    have hplace : kernel.place ex h₁.fs (!false) p = .obj j := hplace
    rw [hplace] at he'
    exact openPlace_path_ne hn e' he'

theorem openPlace_wronly {fs fs' : Fs} {pl : Place} {i : Ino}
    (hopen : fs.openPlace { access := .wronly, noFollow := true } 0 pl = .ok (i, fs')) :
    pl = .obj i ∧ ∃ node data, fs.nodes i = some node ∧ node.kind = .file data := by
  cases pl with
  | err e => cases hopen
  | free d name => cases hopen
  | obj k =>
    simp only [Fs.openPlace, Fs.openAt] at hopen
    split at hopen
    · cases hopen
    · split at hopen
      · cases hopen
      · next node hn =>
        split at hopen
        · cases hopen
        · cases hopen
        · next data hk =>
          cases hopen
          exact ⟨rfl, node, data, hn, hk⟩

/-- The size: on a file the path leads to without following a last link. -/
theorem size_ends (p : RootPath) :
    ((do
        let fd ← openConfined p { access := .wronly, noFollow := true } 0
        setLen fd q.size : Io Unit)).toCalls.Ends (Sys.exec kernel ex n)
          (Sparing q own kernel ex h.fs) h
      (Stage h h.fs fun fs => ∃ i node data, kernel.place ex h.fs false p = .obj i ∧
        h.fs.nodes i = some node ∧ node.kind = .file data ∧
        fs = h.fs.set i (some (q.sized node data))) := by
  refine Io.ends_bind ((openConfined_ends (P := False) fun a c ha => ?_).mono ?_)
  · have hK : Sparing q own kernel ex h.fs a c h ↔ (h.fs ≠ h.fs → a.fails kernel ex c = false) :=
      sparing_iff (by rcases ha with rfl | rfl <;> exact fun _ e => by cases e)
    exact hK.trans ⟨fun _ hp => hp.elim, fun _ hne => absurd rfl hne⟩
  rintro r h₁ ok (⟨fd, fs, rfl, rfl, hopen, hok⟩ | ⟨e, rfl, rfl, hkept, -⟩)
  · obtain rfl := openPlace_same rfl rfl hopen
    refine ⟨?_, fun e he => (by cases he)⟩
    rintro _ ⟨⟩
    obtain ⟨hplace, node, data, hn, hk⟩ := openPlace_wronly hopen
    unfold setLen
    split
    · exact ⟨⟨_, rfl⟩, fun hr => (by cases hr), fun e _ => iff_of_true ⟨hok, trivial⟩ rfl⟩
    · intro c r h₂ he
      have hset : h.fs.setLen fd q.size.toNat = .ok (h.fs.set fd (some (q.sized node data))) := by
        obtain ⟨kind, mode, atime, mtime⟩ := node
        obtain rfl : kind = .file data := hk
        rw [Fs.setLen, hn]
        rfl
      have hK : Sparing q own kernel ex h.fs (.setLen fd q.size.toNat) c h :=
        (sparing_iff fun _ e => by cases e).mpr fun hne => absurd rfl hne
      rcases withFault_unit_eq_some he with ⟨-, fs, hx, rfl, rfl⟩ | ⟨⟨e, rfl⟩, rfl, -⟩
      · obtain rfl := Except.ok.inj (hset.symm.trans hx)
        exact ⟨⟨_, rfl⟩, fun _ => ⟨⟨hok, hK, trivial⟩, fd, node, data, hplace, hn, hk, rfl⟩,
          fun e he => (by cases he)⟩
      · exact ⟨⟨_, rfl⟩, fun hr => (by cases hr), fun e _ => iff_of_true ⟨hok, hK, trivial⟩ rfl⟩
  · refine ⟨fun x hx => (by cases hx),
      fun e _ => ⟨⟨_, rfl⟩, fun hr => (by cases hr), fun e _ => ?_⟩⟩
    exact iff_of_true (hkept id) rfl

/-- The object with all that is asked for but the owner. -/
structure SetAttr.Gets (q : SetAttr) (node node' : Node) : Prop where
  sized : bit q.valid 0x8 → ∃ data, node.kind = .file data ∧ node' = q.timed (q.sized node data)
  unsized : bit q.valid 0x8 = false → node' = q.timed node

def SetAttr.Idle (q : SetAttr) : Prop :=
  bit q.valid 0x8 = false ∧ bit q.valid (0x1 ||| 0x10 ||| 0x20) = false

theorem timed_of_idle {node : Node} (hb : bit q.valid (0x1 ||| 0x10 ||| 0x20) = false) :
    q.timed node = node := by
  obtain ⟨h1, h2, h3⟩ := bit_modeTimes hb
  simp [SetAttr.timed, h1, h2, h3]

/-- The filesystem `fs'` that the calls leave if they all end well. -/
def SetAttr.Leaves (q : SetAttr) (kernel : Kernel) (ex : Export) (p : RootPath) (fs fs' : Fs) :
    Prop :=
  (q.Idle ∧ fs' = fs) ∨ ∃ i node node', kernel.place ex fs true p = .obj i ∧
    fs.nodes i = some node ∧ q.Gets node node' ∧ fs' = fs.set i (some node')

/-- **All the changes meet one object.** -/
theorem applySetattr_ends (hs : Standing kernel ex) (p : RootPath) :
    (applySetattr p q.valid q.mode q.size q.atime q.mtime).toCalls.Ends (Sys.exec kernel ex n)
      (Sparing q own kernel ex h.fs) h (Stage h h.fs (q.Leaves kernel ex p h.fs)) := by
  refine Io.ends_bind ?_
  cases hb8 : bit q.valid 0x8 with
  | true =>
    refine (size_ends p).mono ?_
    rintro r h₁ ok ⟨⟨fs, rfl⟩, hdone, hfail⟩
    refine ⟨?_, fun e he => ⟨⟨_, rfl⟩, fun hr => (by cases hr), fun e' _ => hfail e he⟩⟩
    rintro ⟨⟩ rfl
    obtain ⟨hok, i, node, data, hplace, hn, hk, hfs⟩ := hdone rfl
    obtain rfl : fs = _ := hfs
    have hlink : h.fs.isSymlink i = false := by simp [Fs.isSymlink, Fs.kind, hn, hk]
    have hfollow := place_follow hs hplace hlink
    have hx : h.fs.Extends (h.fs.set i (some (q.sized node data))) :=
      Fs.extends_set hn (fun es he => by rw [hk] at he; cases he) (by rw [hk]; rfl)
    have hplace₁ := place_extends hs hx hfollow
    have hn₁ := Fs.nodes_set_self hn (some (q.sized node data))
    cases hbm : bit q.valid (0x1 ||| 0x10 ||| 0x20) with
    | false =>
      refine ⟨⟨_, rfl⟩, fun _ => ⟨⟨hok, trivial⟩, .inr ⟨i, node, _, hfollow, hn, ?_, rfl⟩⟩,
        fun e he => (by cases he)⟩
      exact ⟨fun _ => ⟨data, hk, (timed_of_idle hbm).symm⟩, fun hb => (by rw [hb8] at hb; cases hb)⟩
    | true =>
      refine (setModeTimes_ends fun _ => ⟨i, _, hplace₁, hn₁⟩).mono ?_
      rintro r h₂ ok₂ ⟨⟨fs₂, rfl⟩, hdone₂, hfail₂⟩
      refine ⟨⟨_, rfl⟩, fun hr => ?_, fun e he => (and_iff_right hok).trans (hfail₂ e he)⟩
      obtain ⟨hok₂, j, node₁, hj, hnode₁, hfs₂⟩ := hdone₂ hr
      obtain rfl : i = j := Place.obj.inj (hplace₁.symm.trans hj)
      obtain rfl := Option.some.inj (hn₁.symm.trans hnode₁)
      refine ⟨⟨hok, hok₂⟩,
        .inr ⟨i, node, _, hfollow, hn, ⟨fun _ => ⟨data, hk, rfl⟩, fun hb => ?_⟩, ?_⟩⟩
      · rw [hb8] at hb
        cases hb
      · rw [hfs₂, Fs.set_set]
  | false =>
    refine ⟨?_, fun e he => (by cases he)⟩
    rintro _ ⟨⟩
    cases hbm : bit q.valid (0x1 ||| 0x10 ||| 0x20) with
    | false =>
      exact ⟨⟨_, rfl⟩, fun _ => ⟨⟨trivial, trivial⟩, .inl ⟨⟨hb8, hbm⟩, rfl⟩⟩,
        fun e he => (by cases he)⟩
    | true =>
      refine (setModeTimes_ends fun hne => absurd rfl hne).mono ?_
      rintro r h₂ ok₂ ⟨⟨fs₂, rfl⟩, hdone₂, hfail₂⟩
      refine ⟨⟨_, rfl⟩, fun hr => ?_, fun e he => (and_iff_right trivial).trans (hfail₂ e he)⟩
      obtain ⟨hok₂, j, node, hj, hn, hfs₂⟩ := hdone₂ hr
      refine ⟨⟨trivial, hok₂⟩, .inr ⟨j, node, _, hj, hn, ⟨fun hb => ?_, fun _ => rfl⟩, hfs₂⟩⟩
      rw [hb8] at hb
      cases hb

theorem SetAttr.Gets.carried {i : Ino} {node node' : Node} (hg : q.Gets node node')
    (ho : q.OwnerAsked own i) : q.Carried own i node node' := by
  cases hb : bit q.valid 0x8 with
  | true =>
    obtain ⟨data, hk, rfl⟩ := hg.sized hb
    exact ⟨rfl, ho, fun _ => ⟨data, hk, rfl⟩, fun hb' => (by rw [hb] at hb'; cases hb'), rfl, rfl⟩
  | false =>
    obtain rfl := hg.unsized hb
    exact ⟨rfl, ho, fun hb' => (by rw [hb] at hb'; cases hb'), fun _ => rfl, rfl, rfl⟩

theorem found_after (hs : Standing kernel ex) {p : RootPath} (hp : ex.Fits p) {fs : Fs} {i : Ino}
    {node node' : Node} (hplace : kernel.place ex h.fs true p = .obj i)
    (hn : h.fs.nodes i = some node) (hg : q.Gets node node')
    (hfs : fs = h.fs.set i (some node')) : statAt fs (walkPath ex fs true p) = .ok (i, node') := by
  have hx : h.fs.Extends fs := by
    subst hfs
    cases hb : bit q.valid 0x8 with
    | true =>
      obtain ⟨data, hk, rfl⟩ := hg.sized hb
      exact Fs.extends_set hn (fun es he => by rw [hk] at he; cases he) (by rw [hk]; rfl)
    | false =>
      obtain rfl := hg.unsized hb
      exact Fs.extends_set hn (fun es he => he) rfl
  rw [walkPath, if_pos hp]
  refine statAt_of_place (place_plain hs (place_extends hs hx hplace)) ?_
  rw [hfs, Fs.nodes_set_self hn]

/-- What the last call finds is the object that was changed, if one was. -/
theorem SetAttr.Leaves.met {p : RootPath} {fs : Fs} {st : Ino × Node} (hs : Standing kernel ex)
    (hD : q.Leaves kernel ex p h.fs fs) (hst : statAt fs (walkPath ex fs true p) = .ok st) :
    ex.Fits p ∧ ∃ node node', (walkPlain ex h.fs true p).place slash = .obj st.1 ∧
      h.fs.nodes st.1 = some node ∧ q.Gets node node' ∧ fs = h.fs.set st.1 (some node') := by
  obtain ⟨hplace, hn⟩ := place_of_statAt hst
  obtain ⟨_, hw, -⟩ := WalkEnd.place_eq_obj.mp hplace
  obtain ⟨hfits, -⟩ := walkPath_found.mp hw
  refine ⟨hfits, ?_⟩
  rcases hD with ⟨hidle, rfl⟩ | ⟨i, node, node', hobj, hnode, hg, hfs⟩
  · rw [walkPath, if_pos hfits] at hplace
    refine ⟨_, _, hplace, hn, ⟨fun hb => ?_, fun _ => (timed_of_idle hidle.2).symm⟩,
      (Fs.set_self hn).symm⟩
    rw [hidle.1] at hb
    cases hb
  · obtain rfl := Except.ok.inj ((found_after hs hfits hobj hnode hg hfs).symm.trans hst)
    exact ⟨node, node', place_plain hs hobj, hnode, hg, hfs⟩

theorem sparing_stat {p : RootPath} {c : Choice} {h' : Host} :
    Sparing q own kernel ex fs₀ (.stat p) c h' ↔
      (h'.fs ≠ fs₀ → (c.fault.isSome || !decide (ex.Fits p)) = false) ∧
        ∀ st, c.fault = none → statAt h'.fs (walkPath ex h'.fs true p) = .ok st →
          q.OwnerAsked own st.1 := by
  refine and_congr_right fun _ => ⟨fun hall st => hall p st rfl, fun hall path st e => ?_⟩
  cases e
  exact hall st

theorem allOrNothing_refused {h' : Host} {r : Response} (hrep : h'.replies = h.replies ++ [(n, r)])
    (hr : r.status ≠ .ok) : AllOrNothing q own ex n h h' ↔ h'.fs = h.fs := by
  constructor
  · rintro ⟨r', hrep', hrefused, -⟩
    obtain rfl : r = r' := by simpa using hrep.symm.trans hrep'
    exact hrefused hr
  · exact fun hsame => ⟨r, hrep, fun _ => hsame, fun hok => absurd hok hr⟩

theorem allOrNothing_granted {h' : Host} {r : Response} {p : RootPath} {i : Ino} {node node' : Node}
    (hrep : h'.replies = h.replies ++ [(n, r)]) (hr : r.status = .ok)
    (hp : normalise q.path = .ok p) (hplace : (walkPlain ex h.fs true p).place slash = .obj i)
    (hn : h.fs.nodes i = some node) (hg : q.Gets node node')
    (hfs : h'.fs = h.fs.set i (some node')) :
    AllOrNothing q own ex n h h' ↔ q.OwnerAsked own i := by
  constructor
  · rintro ⟨r', hrep', -, hgranted⟩
    obtain rfl : r = r' := by simpa using hrep.symm.trans hrep'
    obtain ⟨p', i', _, _, hp', hplace', -, -, hc, -⟩ := hgranted hr
    obtain rfl := Except.ok.inj (hp.symm.trans hp')
    obtain rfl := Place.obj.inj (hplace.symm.trans hplace')
    exact hc.owner
  · intro ho
    refine ⟨r, hrep, fun hne => absurd hr hne,
      fun _ => ⟨p, i, node, node', hp, hplace, hn, ?_, hg.carried ho, ?_⟩⟩
    · rw [hfs, Fs.nodes_set_self hn]
    · intro j hj
      rw [hfs, Fs.nodes_set_of_ne hj]

/-- **The handler is atomic exactly in the runs that meet the condition.** -/
theorem setattr_ends (hs : Standing kernel ex) :
    (q.handler ex).Ends (Sys.exec kernel ex n) (Sparing q own kernel ex h.fs) h
      fun _ h' ok => AllOrNothing q own ex n h h' ↔ ok := by
  have hreply : ∀ (r : Response) (c : Choice) (h' : Host), Sparing q own kernel ex h.fs
      (.reply r) c h' :=
    fun r c h' => (sparing_iff fun _ e => by cases e).mpr fun _ => rfl
  have hlooks : ∀ (a : Sys) (c : Choice), a.Looks → Sparing q own kernel ex h.fs a c h := by
    intro a c ha
    refine (sparing_iff ?_).mpr fun hne => absurd rfl hne
    rintro path rfl
    exact ha
  refine Prog.Ends.bind ((resolve_ends hlooks q.path).mono ?_)
  rintro (e | p) h₁ ok ⟨rfl, hok, hp⟩
  · refine reply_ends fun c => iff_of_true ?_ ⟨hok, hreply _ c _, trivial⟩
    exact (allOrNothing_refused rfl (by simp)).mpr rfl
  have hp := hp p rfl
  refine Prog.Ends.bind (Prog.Ends.bind ((applySetattr_ends hs p).mono ?_))
  rintro r h₂ ok₂ ⟨⟨fs, rfl⟩, hdone, hfail⟩
  cases r with
  | error e =>
    have hne : e.status ≠ .ok := Status.ofIo_ne_ok _
    simp only [Prog.Ends, if_pos hne]
    refine reply_ends fun c => ?_
    rw [and_true, and_true, and_iff_right hok, and_iff_left (hreply _ c _), hfail e rfl]
    exact allOrNothing_refused rfl hne
  | ok u =>
    obtain ⟨hok₂, hD⟩ : ok₂ ∧ q.Leaves kernel ex p h₁.fs fs := hdone rfl
    simp only [Prog.Ends, if_neg (not_not.mpr (rfl : Status.ok = .ok))]
    intro c r h₃ he
    rcases withFault_eq_some he with ⟨hf, st, fs', hx, rfl, rfl⟩ | ⟨⟨e, rfl⟩, rfl, hst⟩
    · obtain ⟨hst, rfl⟩ : statAt fs (walkPath ex fs true p) = .ok st ∧ fs = fs' := by
        cases hw : statAt fs (walkPath ex fs true p) with
        | error e => simp [hw, Except.map] at hx
        | ok st' => simpa [hw, Except.map] using hx
      obtain ⟨hfits, node, node', hplace, hn, hg, hfs⟩ := hD.met hs hst
      refine reply_ends fun c' => ?_
      simp only [hok, hok₂, hreply, true_and, and_true, sparing_stat]
      rw [allOrNothing_granted rfl rfl hp hplace hn hg hfs]
      refine ⟨fun ho => ⟨fun _ => by simp [hf, hfits], fun st' _ hst' => ?_⟩,
        fun hspared => hspared.2 st hf hst⟩
      obtain rfl := Except.ok.inj (hst.symm.trans hst')
      exact ho
    · have hne : Status.ofIo e.kind ≠ .ok := Status.ofIo_ne_ok _
      refine reply_ends fun c' => ?_
      simp only [hok, hok₂, hreply, true_and, and_true, sparing_stat]
      rw [allOrNothing_refused rfl hne]
      refine ⟨fun hsame => ⟨fun hdiff => absurd hsame hdiff, fun st hf hst' => ?_⟩,
        fun hspared => ?_⟩
      · obtain ⟨e, he⟩ := hst hf
        simp [hst', Except.map] at he
      · by_contra hdiff
        obtain ⟨hf, hfits⟩ : c.fault = none ∧ ex.Fits p := by simpa using hspared.1 hdiff
        obtain ⟨e, he⟩ := hst hf
        rcases hD with ⟨-, hsame⟩ | ⟨i, node, node', hplace, hn, hg, hfs⟩
        · exact hdiff hsame
        · simp [found_after hs hfits hplace hn hg hfs, Except.map] at he

end

/-- A request on the export with the file `/f` (2): the statuses that are answered, and what
becomes of the file. -/
def outcome (q : SetAttr) : Option (List Status × Option Node) :=
  ((q.handler srv).run (Sys.exec linux srv 0) (fun _ => {}) (hostOf plainNodes)).map fun x =>
    (x.2.1.replies.map (·.2.status), x.2.1.fs.nodes 2)

end QuicFs.Server
