import QuicFs.Server.Disclosure
import QuicFs.Server.Effects
import QuicFs.Server.Serial
import QuicFs.Server.Walks

/-!
# What a call does to the contents of the files

The bytes of a regular file are changed by a `write_at` on it and by the calls that change its size:
`set_len`, and an `open` that truncates. Every other call leaves them alone (`exec_content`). So the
attributes that a call reads show a size that covers what was written since the last change of size
(`Sized`).

A kernel that creates a file where a path ends in a missing name creates it in a directory
(`Kernel.CreatesInDir`).
-/

namespace QuicFs.Server

open Lib

/-- A path that ends in a missing name ends in a directory. -/
def Kernel.CreatesInDir (kernel : Kernel) : Prop :=
  ∀ fs r follow todo st name, kernel.beneath fs r follow todo = .absent st name →
    fs.sort (top r st) = some .dir

theorem linux_createsInDir : linux.CreatesInDir := fun _ _ _ _ _ _ h =>
  (walk_absent maxSymlinks (limited_absent.mp h).2).1

/-- The file whose size the call has changed. -/
def Sys.resizes? : (a : Sys) → a.Ret → Option Ino
  | .setLen fd _, r => (r : Except Errno Unit).toOption.map fun _ => fd
  | .openat2 _ flags _, r => if flags.trunc then (r : Except Errno Ino).toOption else none
  | .openPlain _ flags _, r => if flags.trunc then (r : Except Errno Ino).toOption else none
  | _, _ => none

def Sys.writes? : Sys → Option Ino
  | .writeAt f _ _ _ => some f.ino
  | _ => none

def Sys.appends? : Sys → Option Ino
  | .writeAt f _ _ true => some f.ino
  | _ => none

namespace Fs

def Retains (fs fs' : Fs) : Prop := ∀ i F, fs.content i = some F → fs'.content i = some F

variable {fs fs' fs'' : Fs} {d i : Ino}

theorem Retains.refl (fs : Fs) : fs.Retains fs := fun _ _ h => h

theorem Retains.trans (h : fs.Retains fs') (h' : fs'.Retains fs'') : fs.Retains fs'' :=
  fun i F hF => h' i F (h i F hF)

theorem content_set_ne {n : Option Node} (h : i ≠ d) : (fs.set d n).content i = fs.content i := by
  unfold content kind
  simp only [set, h, false_and, if_false]

theorem retains_set {n : Option Node} (h : fs.content i = none) : fs.Retains (fs.set i n) := by
  intro j F hF
  refine (content_set_ne ?_).trans hF
  rintro rfl
  cases h.symm.trans hF

theorem content_of_sort {k : ObjSort} (h : fs.sort i = some k) (hk : k ≠ .file) :
    fs.content i = none := by
  unfold content
  unfold sort at h
  cases hki : fs.kind i with
  | none => rfl
  | some kind =>
    rw [hki] at h
    cases kind with
    | file data => exact absurd (Option.some.inj h).symm hk
    | dir | symlink => rfl

theorem retains_setEntries {es : List (Name × Ino)} (h : fs.sort d = some .dir) :
    fs.Retains (fs.setEntries d es) :=
  retains_set (content_of_sort h nofun)

theorem retains_create {name : Name} {k : Kind} {mode : Nat} (h : fs.sort d = some .dir) :
    fs.Retains (fs.create d name k mode) := by
  have halloc : fs.Retains (fs.alloc ⟨k, mode, 0, 0⟩) := by
    intro j F hF
    obtain ⟨node, hn, -⟩ := nodes_of_content hF
    have hne : j ≠ fs.next := by
      rintro rfl
      rw [fs.fresh fs.next (Nat.le_refl _)] at hn
      cases hn
    unfold content kind at hF ⊢
    simpa only [alloc, hne, if_false] using hF
  refine halloc.trans (retains_setEntries ?_)
  have hne : d ≠ fs.next := Nat.ne_of_lt (lt_next_of_sort h)
  unfold sort kind at h ⊢
  simpa only [alloc, hne, if_false] using h

theorem retains_modify {f : Node → Node} (h : fs.modify i f = .ok fs')
    (hf : ∀ n, (f n).kind = n.kind) : fs.Retains fs' := by
  obtain ⟨n, hn, rfl⟩ := modify_eq_ok h
  intro j F hF
  by_cases e : j = i ∧ i < fs.next
  · unfold content kind at hF ⊢
    rw [e.1, hn] at hF
    simpa only [set, if_pos e, Option.map_some, hf] using hF
  · unfold content kind at hF ⊢
    simpa only [set, if_neg e] using hF

theorem sort_moveEntry {name name' : Name} {d' : Ino} (h : fs.sort d = some .dir)
    (h' : fs.sort d' = some .dir) (x : Ino) :
    (fs.moveEntry d name d' name' i).sort x = fs.sort x := by
  have h1 : ∀ x, (fs.dropEntry d name).sort x = fs.sort x := sort_setEntries h
  have h2 : ∀ x, ((fs.dropEntry d name).dropEntry d' name').sort x = (fs.dropEntry d name).sort x :=
    sort_setEntries ((h1 d').trans h')
  have h3 : (fs.moveEntry d name d' name' i).sort x =
      ((fs.dropEntry d name).dropEntry d' name').sort x :=
    sort_setEntries ((h2 d').trans ((h1 d').trans h')) x
  rw [h3, h2, h1]

theorem retains_moveEntry {name name' : Name} {d' : Ino} (h : fs.sort d = some .dir)
    (h' : fs.sort d' = some .dir) : fs.Retains (fs.moveEntry d name d' name' i) := by
  have h1 : ∀ x, (fs.dropEntry d name).sort x = fs.sort x := sort_setEntries h
  have h2 : ∀ x, ((fs.dropEntry d name).dropEntry d' name').sort x = (fs.dropEntry d name).sort x :=
    sort_setEntries ((h1 d').trans h')
  exact (retains_setEntries h).trans ((retains_setEntries ((h1 d').trans h')).trans
    (retains_setEntries ((h2 d').trans ((h1 d').trans h'))))

/-- What a file holds it held before, or it is empty. -/
def Sources (fs fs' : Fs) : Prop := ∀ i F, fs'.content i = some F → fs.content i = some F ∨ F = []

theorem Sources.refl (fs : Fs) : fs.Sources fs := fun _ _ h => .inl h

theorem Sources.trans (h : fs.Sources fs') (h' : fs'.Sources fs'') : fs.Sources fs'' := by
  intro i F hF
  rcases h' i F hF with hF | hF
  · exact h i F hF
  · exact .inr hF

theorem sources_set {n : Option Node}
    (hn : ∀ F, n.map Node.kind = some (.file F) → fs.content i = some F ∨ F = []) :
    fs.Sources (fs.set i n) := by
  intro j F hF
  by_cases e : j = i ∧ i < fs.next
  · obtain ⟨rfl, hlt⟩ := e
    refine hn F ?_
    unfold content kind at hF
    simp only [set, hlt, and_true, if_true] at hF
    split at hF <;> simp_all
  · refine .inl ?_
    unfold content kind at hF ⊢
    simpa only [set, if_neg e] using hF

theorem sources_setEntries {es : List (Name × Ino)} : fs.Sources (fs.setEntries d es) := by
  refine sources_set fun F hF => ?_
  cases hn : fs.nodes d <;> rw [hn] at hF <;> cases hF

theorem sources_create {name : Name} {k : Kind} {mode : Nat} (hk : ∀ F, k = .file F → F = []) :
    fs.Sources (fs.create d name k mode) := by
  have halloc : fs.Sources (fs.alloc ⟨k, mode, 0, 0⟩) := by
    intro j F hF
    unfold content kind at hF
    by_cases e : j = fs.next
    · simp only [alloc, e, if_true, Option.map_some] at hF
      split at hF
      · next data hdata =>
        obtain rfl := Option.some.inj hF
        exact .inr (hk _ (Option.some.inj hdata))
      · cases hF
    · refine .inl ?_
      simpa only [content, kind, alloc, if_neg e] using hF
  exact halloc.trans sources_setEntries

theorem sources_modify {f : Node → Node} (h : fs.modify i f = .ok fs')
    (hf : ∀ n, (f n).kind = n.kind) : fs.Sources fs' := by
  obtain ⟨n, hn, rfl⟩ := modify_eq_ok h
  refine sources_set fun F hF => .inl ?_
  rw [Option.map_some, hf] at hF
  unfold content kind
  rw [hn, Option.map_some, hF]

theorem sources_moveEntry {name name' : Name} {d' : Ino} :
    fs.Sources (fs.moveEntry d name d' name' i) :=
  (sources_setEntries.trans sources_setEntries).trans sources_setEntries

def Calm (fs fs' : Fs) : Prop := fs.Retains fs' ∧ fs.Sources fs'

theorem Calm.refl (fs : Fs) : fs.Calm fs := ⟨.refl fs, .refl fs⟩

theorem Calm.trans (h : fs.Calm fs') (h' : fs'.Calm fs'') : fs.Calm fs'' :=
  ⟨h.1.trans h'.1, h.2.trans h'.2⟩

theorem calm_setEntries {es : List (Name × Ino)} (h : fs.sort d = some .dir) :
    fs.Calm (fs.setEntries d es) :=
  ⟨retains_setEntries h, sources_setEntries⟩

theorem calm_create {name : Name} {k : Kind} {mode : Nat} (h : fs.sort d = some .dir)
    (hk : ∀ F, k = .file F → F = []) :
    fs.Calm (fs.create d name k mode) := ⟨retains_create h, sources_create hk⟩

theorem calm_modify {f : Node → Node} (h : fs.modify i f = .ok fs')
    (hf : ∀ n, (f n).kind = n.kind) : fs.Calm fs' :=
  ⟨retains_modify h hf, sources_modify h hf⟩

theorem calm_moveEntry {name name' : Name} {d' : Ino} (h : fs.sort d = some .dir)
    (h' : fs.sort d' = some .dir) :
    fs.Calm (fs.moveEntry d name d' name' i) := ⟨retains_moveEntry h h', sources_moveEntry⟩

theorem calm_drop (h : fs.sort i = some .dir) : fs.Calm (fs.set i none) :=
  ⟨retains_set (content_of_sort h nofun), sources_set nofun⟩

theorem calm_mkdirat {name : Name} {mode : Nat} (h : fs.mkdirat d name mode = .ok fs') :
    fs.Calm fs' := by
  obtain ⟨es, he, rfl⟩ := mkdirat_eq_ok h
  exact calm_create (sort_of_entries he) nofun

theorem calm_symlinkat {target : List Char} {name : Name}
    (h : fs.symlinkat target d name = .ok fs') : fs.Calm fs' := by
  obtain ⟨es, he, rfl⟩ := symlinkat_eq_ok h
  exact calm_create (sort_of_entries he) nofun

theorem calm_unlinkat {name : Name} {removeDir : Bool}
    (h : fs.unlinkat d name removeDir = .ok fs') : fs.Calm fs' := by
  obtain ⟨i, hi, ⟨-, rfl⟩ | ⟨he, rfl⟩⟩ := unlinkat_eq_ok h
  · exact calm_setEntries (sort_of_lookup hi)
  · have hdir := sort_of_lookup hi
    have hi' : (fs.dropEntry d name).sort i = some .dir :=
      (sort_setEntries hdir i).trans (sort_of_entries he)
    exact (calm_setEntries hdir).trans (calm_drop hi')

theorem calm_linkat {name name' : Name} {d' : Ino} (h : fs.linkat d name d' name' = .ok fs') :
    fs.Calm fs' := by
  obtain ⟨i, -, hd, -, -, rfl⟩ := linkat_eq_ok h
  exact calm_setEntries (isDir_iff_sort.mp hd)

theorem calm_renameat {name name' : Name} {d' : Ino} (h : fs.renameat d name d' name' = .ok fs') :
    fs.Calm fs' := by
  obtain ⟨i, hi, hd, -, hren⟩ := renameat_eq_ok h
  have hdir := sort_of_lookup hi
  have hdir' := isDir_iff_sort.mp hd
  cases hren with
  | same => exact .refl _
  | free => exact calm_moveEntry hdir hdir'
  | file => exact calm_moveEntry hdir hdir'
  | @dir j hj _ he =>
    have hj' : (fs.moveEntry d name d' name' i).sort j = some .dir :=
      (sort_moveEntry hdir hdir' j).trans (sort_of_entries he)
    exact (calm_moveEntry hdir hdir').trans (calm_drop hj')

theorem calm_fchmodat {name : Name} {mode : Nat} (h : fs.fchmodat d name mode = .ok fs') :
    fs.Calm fs' := by
  unfold fchmodat at h
  split at h
  · exact calm_modify h fun _ => rfl
  all_goals cases h

theorem calm_utimens {atime mtime : Option Timespec} (h : fs.utimens i atime mtime = .ok fs') :
    fs.Calm fs' := by
  unfold utimens at h
  split at h
  · exact calm_modify h fun _ => rfl
  · cases h

/-- A file that is opened keeps its bytes unless the flags truncate it. -/
theorem content_openAt {base : Ino} {flags : OpenFlags} {mode : Nat} {e : WalkEnd} {fd : Ino}
    (hdir : ∀ st name, e = .absent st name → fs.sort (top base st) = some .dir)
    (h : fs.openAt base flags mode e = .ok (fd, fs')) {F : Bytes} (hi : flags.trunc = true → i ≠ fd)
    (hF : fs.content i = some F) : fs'.content i = some F := by
  rcases openAt_eq_ok h with ⟨st, -, -, rfl | ⟨ht, n, rfl⟩⟩ | ⟨st, name, rfl, -, -, rfl⟩
  · exact hF
  · exact (content_set_ne (hi ht)).trans hF
  · exact retains_create (hdir st name rfl) i F hF

theorem sources_openAt {base : Ino} {flags : OpenFlags} {mode : Nat} {e : WalkEnd} {fd : Ino}
    (h : fs.openAt base flags mode e = .ok (fd, fs')) : fs.Sources fs' := by
  rcases openAt_eq_ok h with ⟨st, -, -, rfl | ⟨-, n, rfl⟩⟩ | ⟨st, name, -, -, -, rfl⟩
  · exact .refl _
  · exact sources_set fun F hF => .inr (Kind.file.inj (Option.some.inj hF)).symm
  · exact sources_create fun F e => (Kind.file.inj e).symm

theorem content_setLen {size : Nat} (h : fs.setLen d size = .ok fs')
    (hi : i = d → fs.content d = none) : fs'.content i = fs.content i := by
  unfold setLen at h
  split at h
  · next hn =>
    cases h
    refine content_set_ne fun e => ?_
    have hnone := hi e
    unfold content kind at hnone
    rw [hn] at hnone
    cases hnone
  · cases h

end Fs

section
variable {kernel : Kernel} {ex : Export} {n : Nat} {c : Choice} {h h' : Host}

theorem sources_withFault {α : Type} {fault : Option Errno} {x : Except Errno (α × Fs)}
    {r : Except Errno α} (he : withFault fault h x = some (r, h'))
    (hx : ∀ y, x = .ok y → h.fs.Sources y.2) : h.fs.Sources h'.fs := by
  rcases withFault_eq_some he with ⟨-, y, fs, hok, -, rfl⟩ | ⟨-, rfl, -⟩
  · exact hx _ hok
  · exact .refl _

theorem withFault_cases {fault : Option Errno} {x : Except Errno Fs} {r : Except Errno Unit}
    (he : withFault_ fault h x = some (r, h')) : x = .ok h'.fs ∧ r = .ok () ∨ h' = h := by
  rcases withFault_eq_some he with ⟨-, y, fs, hok, rfl, rfl⟩ | ⟨-, rfl, -⟩
  · cases x with
    | error e => cases hok
    | ok fs' =>
      obtain rfl : fs' = fs := (Prod.mk.inj (Except.ok.inj hok)).2
      exact .inl ⟨rfl, rfl⟩
  · exact .inr rfl

theorem calm_withFault_ {fault : Option Errno} {x : Except Errno Fs} {r : Except Errno Unit}
    (he : withFault_ fault h x = some (r, h')) (hx : ∀ fs, x = .ok fs → h.fs.Calm fs) :
    h.fs.Calm h'.fs := by
  rcases withFault_cases he with ⟨hok, -⟩ | rfl
  · exact hx _ hok
  · exact .refl _

/-- The calls that neither open a file nor write to one or change its size. -/
def Sys.Mild : Sys → Prop
  | .openat2 .. | .openPlain .. | .setLen .. | .writeAt .. => False
  | _ => True

/-- **Such a call leaves the contents alone.** -/
theorem exec_calm {a : Sys} {r : a.Ret} (he : a.exec kernel ex n c h = some (r, h')) (ha : a.Mild) :
    h.fs.Calm h'.fs := by
  cases a with
  | openat2 | openPlain | setLen | writeAt => exact ha.elim
  | tryInsert | removeHandle | lockStripe | unlockStripe | recvFrame | reply =>
    rw [exec_fs id he]
    exact .refl _
  | «exists» | isSymlink | lstat | stat | canonicalize | readDir | nextEntry
  | statEntry | readlinkat | statvfs
  | fstat | fsync | getFile | getWriteCtx | readAt =>
    obtain rfl := exec_reads (by trivial) he
    exact .refl _
  | mkdirat => exact calm_withFault_ he fun _ hx => Fs.calm_mkdirat hx
  | fchmodat => exact calm_withFault_ he fun _ hx => Fs.calm_fchmodat hx
  | unlinkat => exact calm_withFault_ he fun _ hx => Fs.calm_unlinkat hx
  | symlinkat => exact calm_withFault_ he fun _ hx => Fs.calm_symlinkat hx
  | linkat => exact calm_withFault_ he fun _ hx => Fs.calm_linkat hx
  | renameat => exact calm_withFault_ he fun _ hx => Fs.calm_renameat hx
  | fchmod => exact calm_withFault_ he fun _ hx => Fs.calm_modify hx fun _ => rfl
  | utimens => exact calm_withFault_ he fun _ hx => Fs.calm_utimens hx

/-- **A file that a call makes is empty.** -/
theorem exec_content_new {a : Sys} {r : a.Ret} (he : a.exec kernel ex n c h = some (r, h'))
    {i : Ino} (hi : h.fs.content i = none) {F : Bytes} (hF : h'.fs.content i = some F) :
    F = [] := by
  have hdone : h.fs.Sources h'.fs → F = [] := by
    intro hs
    rcases hs i F hF with hF | hF
    · cases hi.symm.trans hF
    · exact hF
  cases a with
  | openat2 path flags mode =>
    change openBeneath kernel ex h path flags mode c.fault = some (r, h') at he
    rcases openBeneath_eq_some he with ⟨-, -, he⟩ | ⟨-, -, rfl⟩
    · exact hdone (sources_withFault he fun _ hy => Fs.sources_openAt hy)
    · exact hdone (.refl _)
  | openPlain path flags mode => exact hdone (sources_withFault he fun _ hy => Fs.sources_openAt hy)
  | setLen fd size =>
    rcases withFault_cases he with ⟨hx, -⟩ | rfl
    · cases ((Fs.content_setLen hx fun e => e ▸ hi).trans hi).symm.trans hF
    · exact hdone (.refl _)
  | writeAt f offset data append =>
    change some (writeFile h f offset data append c) = _ at he
    have he := Option.some.inj he
    unfold writeFile at he
    split at he
    · cases he
      exact hdone (.refl _)
    · next file hfile =>
      obtain ⟨-, rfl⟩ := Prod.mk.inj he
      have hne : i ≠ f.ino := by
        rintro rfl
        cases hi.symm.trans hfile
      unfold Fs.content Fs.kind at hF hi
      rw [Fs.nodes_setContent_ne _ _ hne] at hF
      cases hi.symm.trans hF
  | _ => exact hdone (exec_calm he trivial).2

theorem content_withFault_openAt {fault : Option Errno} {base : Ino} {flags : OpenFlags}
    {mode : Nat} {e : WalkEnd} {r : Except Errno Ino}
    (he : withFault fault h (h.fs.openAt base flags mode e) = some (r, h'))
    (hdir : ∀ st name, e = .absent st name → h.fs.sort (top base st) = some .dir)
    {i : Ino} {F : Bytes} (hi : flags.trunc = true → r.toOption ≠ some i)
    (hF : h.fs.content i = some F) : h'.fs.content i = some F := by
  rcases withFault_eq_some he with ⟨-, fd, fs, hok, rfl, rfl⟩ | ⟨-, rfl, -⟩
  · refine Fs.content_openAt hdir hok (fun ht e => hi ht ?_) hF
    rw [e]
    rfl
  · exact hF

/-- **A call leaves the bytes of a file alone** unless it writes to it or changes its size. -/
theorem exec_content (hk : kernel.CreatesInDir) {a : Sys} {r : a.Ret}
    (he : a.exec kernel ex n c h = some (r, h')) {i : Ino} (hw : a.writes? ≠ some i)
    (hr : a.resizes? r ≠ some i) {F : Bytes} (hF : h.fs.content i = some F) :
    h'.fs.content i = some F := by
  cases a with
  | openat2 path flags mode =>
    change openBeneath kernel ex h path flags mode c.fault = some (r, h') at he
    have hr : flags.trunc = true → Except.toOption (r : Except Errno Ino) ≠ some i := by
      intro ht
      simpa only [Sys.resizes?, ht, if_true] using hr
    rcases openBeneath_eq_some he with ⟨-, -, he⟩ | ⟨-, -, rfl⟩
    · exact content_withFault_openAt he (fun st name e => hk _ _ _ _ _ _ e) hr hF
    · exact hF
  | openPlain path flags mode =>
    have hr : flags.trunc = true → Except.toOption (r : Except Errno Ino) ≠ some i := by
      intro ht
      simpa only [Sys.resizes?, ht, if_true] using hr
    exact content_withFault_openAt he
      (fun st name e => (walk_absent maxSymlinks (limited_absent.mp e).2).1) hr hF
  | setLen fd size =>
    rcases withFault_cases he with ⟨hx, rfl⟩ | rfl
    · exact (Fs.content_setLen hx fun e => absurd (congrArg some e.symm) hr).trans hF
    · exact hF
  | writeAt f offset data append =>
    obtain ⟨k, -, hcontent⟩ := exec_writeAt_content (w := ⟨0, offset, data, false⟩) he
    have hne : i ≠ f.ino := fun e => hw (congrArg some e.symm)
    rw [hcontent i F hF, if_neg hne]
  | _ => exact (exec_calm he trivial).1 i F hF

/-! ## Sizes -/

theorem exec_content_grows (hk : kernel.CreatesInDir) {a : Sys} {r : a.Ret}
    (he : a.exec kernel ex n c h = some (r, h')) {i : Ino} (hr : a.resizes? r ≠ some i) {F : Bytes}
    (hF : h.fs.content i = some F) : ∃ F', h'.fs.content i = some F' ∧ F.length ≤ F'.length := by
  by_cases hw : a.writes? = some i
  · cases a with
    | writeAt f offset data append =>
      obtain ⟨k, -, hcontent⟩ := exec_writeAt_content (w := ⟨0, offset, data, false⟩) he
      obtain rfl := Option.some.inj hw
      refine ⟨_, hcontent _ F hF, ?_⟩
      rw [if_pos rfl]
      exact length_le_pwrite ..
    | _ => cases hw
  · exact ⟨F, exec_content hk he hw hr hF, Nat.le_refl _⟩

theorem exec_writeAt_ok {f : File} {offset : UInt64} {data : Bytes}
    (he : (Sys.writeAt f offset data false).exec kernel ex n c h =
      some ((none : Option IoErrorKind), h')) :
    ∃ F, h.fs.content f.ino = some F ∧ h'.fs.content f.ino = some (pwrite F offset.toNat data) ∧
      (offset + UInt64.ofNat data.length).toNat = offset.toNat + data.length := by
  change some (writeFile h f offset data false c) = _ at he
  have he := Option.some.inj he
  unfold writeFile at he
  split at he
  · cases he
  · next F hF =>
    generalize hwa : writeAt ⟨F, 0⟩ offset data false _ = o at he
    obtain ⟨r', st⟩ := o
    obtain ⟨rfl, rfl⟩ := Prod.mk.inj he
    obtain ⟨hfile, hfits⟩ := writeAt_ok hwa
    exact ⟨F, hF, by rw [Fs.content_setContent hF, hfile], hfits⟩

def Fs.bytes (fs : Fs) (i : Ino) : Bytes := (fs.content i).getD []

theorem exec_bytes_of_none {a : Sys} {r : a.Ret} (he : a.exec kernel ex n c h = some (r, h'))
    {i : Ino} (hi : h.fs.content i = none) : h'.fs.bytes i = [] := by
  unfold Fs.bytes
  cases hF : h'.fs.content i with
  | none => rfl
  | some F => exact exec_content_new he hi hF

/-- **A call leaves the bytes of a file alone** unless it writes to it or changes its size, also if
the file is only made by it. -/
theorem exec_bytes (hk : kernel.CreatesInDir) {a : Sys} {r : a.Ret}
    (he : a.exec kernel ex n c h = some (r, h')) {i : Ino} (hw : a.writes? ≠ some i)
    (hr : a.resizes? r ≠ some i) : h'.fs.bytes i = h.fs.bytes i := by
  cases hF : h.fs.content i with
  | none => rw [exec_bytes_of_none he hF, Fs.bytes, hF, Option.getD_none]
  | some F => rw [Fs.bytes, Fs.bytes, exec_content hk he hw hr hF, hF]

theorem exec_writeAt_bytes {f : File} {w : WriteRequest} {r : Option IoErrorKind}
    (he : (Sys.writeAt f w.offset w.data false).exec kernel ex n c h = some (r, h')) :
    ∃ k, (r = none → k = w.data.length) ∧
      h'.fs.bytes f.ino = pwrite (h.fs.bytes f.ino) w.offset.toNat (w.data.take k) := by
  obtain ⟨k, hk, hcontent⟩ := exec_writeAt_content he
  cases hF : h.fs.content f.ino with
  | none =>
    refine ⟨0, fun hr => ?_, ?_⟩
    · subst hr
      obtain ⟨F, hF', -⟩ := exec_writeAt_ok he
      cases hF.symm.trans hF'
    · rw [exec_bytes_of_none he hF, Fs.bytes, hF]
      simp [pwrite]
  | some F =>
    refine ⟨k, hk, ?_⟩
    rw [Fs.bytes, Fs.bytes, hcontent _ F hF, hF, if_pos rfl]
    simp [placed]

/-- The size that `stat` reports of a file. -/
def Node.size (node : Node) : Nat :=
  match node.kind with
  | .file data => data.length
  | _ => 0

theorem exec_attrs {a : Sys} {r : a.Ret} (he : a.exec kernel ex n c h = some (r, h'))
    {st : Ino × Node} (hst : a.attrs r = some st) : h.fs.nodes st.1 = some st.2 := by
  have hstat : ∀ {e : WalkEnd} {x : Except Errno (Ino × Node)},
      withFault c.fault h ((statAt h.fs e).map (·, h.fs)) = some (x, h') → x.toOption = some st →
        h.fs.nodes st.1 = some st.2 := by
    intro e x hx hst
    rcases withFault_eq_some hx with ⟨-, y, fs, hok, rfl, -⟩ | ⟨⟨_, rfl⟩, -⟩
    · obtain rfl := Option.some.inj hst
      cases hs : statAt h.fs e with
      | error e => rw [hs] at hok; cases hok
      | ok z =>
        rw [hs] at hok
        obtain rfl : z = y := (Prod.mk.inj (Except.ok.inj hok)).1
        unfold statAt at hs
        split at hs <;> try cases hs
        split at hs <;> cases hs
        assumption
    · cases hst
  cases a with
  | stat | lstat => exact hstat he hst
  | fstat fd =>
    rcases withFault_eq_some he with ⟨-, y, fs, hok, rfl, -⟩ | ⟨⟨_, rfl⟩, -⟩
    · obtain rfl := Option.some.inj hst
      split at hok <;> cases hok
      assumption
    · cases hst
  | _ => cases hst

/-- The sizes of the files, and those that were read, cover what was written since the last change
of size. -/
structure Sized (fs : Fs) (log : Log) : Prop where
  now : ∀ {old new i}, log = old ++ new → (∀ e ∈ new, e.act.resizes? e.answer ≠ some i) →
    ∀ {n f offset data}, f.ino = i → data ≠ [] →
    ⟨n, .writeAt f offset data false, (none : Option IoErrorKind)⟩ ∈ new →
      ∃ F, fs.content i = some F ∧ offset.toNat + data.length ≤ F.length
  read : ∀ {old new e after st}, log = old ++ new ++ e :: after → e.act.attrs e.answer = some st →
    (∀ x ∈ new, x.act.resizes? x.answer ≠ some st.1) →
    ∀ {n f offset data}, f.ino = st.1 → data ≠ [] →
    ⟨n, .writeAt f offset data false, (none : Option IoErrorKind)⟩ ∈ new →
      offset.toNat + data.length ≤ st.2.size
  fits : ∀ {n f offset data}, ⟨n, .writeAt f offset data false, (none : Option IoErrorKind)⟩ ∈ log →
    (offset + UInt64.ofNat data.length).toNat = offset.toNat + data.length

theorem sized_nil (fs : Fs) : Sized fs [] := by
  refine ⟨fun hlog _ _ _ _ _ _ _ he => ?_, fun hlog => ?_, fun he => by cases he⟩
  · rw [(List.append_eq_nil_iff.mp hlog.symm).2] at he
    cases he
  · simp at hlog

theorem Sized.exec {log : Log} (hs : Sized h.fs log) (hk : kernel.CreatesInDir)
    {a : Sys} {r : a.Ret} (he : a.exec kernel ex n c h = some (r, h')) :
    Sized h'.fs (log ++ [⟨n, a, r⟩]) := by
  refine ⟨fun {old new i} hlog hnew m f offset data hf hd hw => ?_,
    fun {old new e after st} hlog hst hnew m f offset
    data hf hd hw => ?_, fun {m f offset data} hw => ?_⟩
  · rcases List.eq_nil_or_concat new with rfl | ⟨new, x, rfl⟩
    · cases hw
    rw [List.concat_eq_append] at hnew hw
    rw [List.concat_eq_append, ← List.append_assoc] at hlog
    obtain ⟨rfl, hx⟩ := List.append_inj' hlog rfl
    obtain rfl := List.singleton_inj.mp hx
    rcases List.mem_append.mp hw with hw | hw
    · obtain ⟨F, hF, hle⟩ := hs.now rfl (fun e he => hnew e (List.mem_append_left _ he)) hf hd hw
      have hlast : a.resizes? r ≠ some i :=
        hnew _ (List.mem_append_right _ (List.mem_singleton_self _))
      obtain ⟨F', hF', hlen⟩ := exec_content_grows hk he hlast hF
      exact ⟨F', hF', hle.trans hlen⟩
    · cases List.mem_singleton.mp hw
      obtain ⟨F, -, hF', -⟩ := exec_writeAt_ok he
      exact ⟨_, hf ▸ hF', stop_le_length_pwrite F _ hd⟩
  · rcases List.eq_nil_or_concat after with rfl | ⟨after, x, rfl⟩
    · obtain ⟨rfl, hx⟩ := List.append_inj' hlog rfl
      obtain rfl := List.singleton_inj.mp hx
      obtain ⟨F, hF, hle⟩ := hs.now rfl hnew hf hd hw
      have hnode := exec_attrs he hst
      obtain ⟨node, hn, hkind⟩ := Fs.nodes_of_content hF
      obtain rfl := Option.some.inj (hnode.symm.trans hn)
      rwa [Node.size, hkind]
    · rw [List.concat_eq_append, ← List.cons_append, ← List.append_assoc] at hlog
      obtain ⟨rfl, -⟩ := List.append_inj' hlog rfl
      exact hs.read rfl hst hnew hf hd hw
  · rcases List.mem_append.mp hw with hw | hw
    · exact hs.fits hw
    · cases List.mem_singleton.mp hw
      obtain ⟨F, -, -, hfits⟩ := exec_writeAt_ok he
      exact hfits

end

end QuicFs.Server
