import QuicFs.Server.Walks

/-!
# The kinds a listing and a GetAttr report

`handle_readdir` asks each entry for its own metadata, a link not followed; `handle_getattr`
resolves the path and follows a last link. On a tree that stands still the two agree on an entry
exactly if neither its path nor the path of the directory names a link and the longer path is
still one that `resolve` takes (`kinds_agree_iff`).

A path none of whose prefixes names a link is walked straight (`Straight`): from its end a walk goes
on as it would from the start.
-/

namespace QuicFs.Server

open Lib

/-- `(mode >> 12) & 0xF`, by which the client tells the kinds apart. -/
def fileType (mode : Nat) : Nat := mode / 2 ^ 12 % 16

theorem fileType_stMode (node : Node) : fileType node.stMode = node.kind.typeBits / 2 ^ 12 := by
  unfold fileType Node.stMode
  have hmode := Nat.mod_lt node.mode (show 0 < 0o10000 by decide)
  cases node.kind <;> simp only [Kind.typeBits] <;> omega

theorem fileType_eq_link {node node' : Node} (h : fileType node.stMode = fileType node'.stMode)
    {target : List Char} (hk : node.kind = .symlink target) :
    ∃ target', node'.kind = .symlink target' := by
  rw [fileType_stMode, fileType_stMode, hk] at h
  cases hk' : node'.kind with
  | symlink target' => exact ⟨target', rfl⟩
  | file _ | dir _ => rw [hk'] at h; exact absurd h (by simp [Kind.typeBits])

/-! ## Straight walks -/

section
variable {fs : Fs} {ex : Export} {w : List Name} {stack : List (Name × Ino)}

/-- The walk along `w` takes the entries of the stack and meets no link. -/
def Straight (ex : Export) (fs : Fs) (w : List Name) (stack : List (Name × Ino)) : Prop :=
  ∀ follow rest, walk fs slash false follow maxSymlinks ex.stack (w ++ rest) =
    walk fs slash false follow maxSymlinks stack rest

/-- No walk that begins along `w` arrives. -/
def Lost (ex : Export) (fs : Fs) (w : List Name) : Prop :=
  ∀ follow rest st, walk fs slash false follow maxSymlinks ex.stack (w ++ rest) ≠ .found st

theorem walk_congr {follow : Bool} {links : Nat} {stack' : List (Name × Ino)}
    {todo todo' : List Name}
    (h : walkTo fs slash false follow stack todo = walkTo fs slash false follow stack' todo') :
    walk fs slash false follow links stack todo =
      walk fs slash false follow links stack' todo' := by
  rw [walk.eq_def, h, ← walk.eq_def]

theorem walkTo_step {follow : Bool} {c : Name} {i : Ino} {k : Kind} {rest : List Name}
    (hc : c ≠ ['.', '.']) (hl : fs.lookup (top slash stack) c = some i) (hk : fs.kind i = some k)
    (hlink : ∀ target, k ≠ .symlink target) :
    walkTo fs slash false follow stack (c :: rest) = walkTo fs slash false follow
      ((c, i) :: stack) rest := by
  obtain ⟨es, he, hl⟩ := Option.bind_eq_some_iff.mp hl
  rw [walkTo.eq_def]
  simp only [he, if_neg hc, hl, hk]

theorem Straight.found (h : Straight ex fs w stack) (follow : Bool) :
    walk fs slash false follow maxSymlinks ex.stack w = .found stack := by
  have := h follow []
  rwa [List.append_nil] at this

theorem Straight.step {c : Name} (h : Straight ex fs w stack) (hc : c ≠ ['.', '.']) :
    Lost ex fs (w ++ [c]) ∨ ∃ i k, fs.lookup (top slash stack) c = some i ∧ fs.kind i = some k ∧
      ((∃ target, k = .symlink target) ∨ Straight ex fs (w ++ [c]) ((c, i) :: stack)) := by
  have hwalk : ∀ follow rest, walk fs slash false follow maxSymlinks ex.stack (w ++ [c] ++ rest) =
      walk fs slash false follow maxSymlinks stack (c :: rest) := by
    intro follow rest
    rw [List.append_assoc, h]
    rfl
  cases he : fs.entries (top slash stack) with
  | none =>
    refine .inl fun follow rest st hst => ?_
    rw [hwalk, walk.eq_def, walkTo.eq_def] at hst
    simp only [he] at hst
    cases hst
  | some es =>
    cases hl : es.lookup c with
    | none =>
      refine .inl fun follow rest st hst => ?_
      rw [hwalk, walk.eq_def, walkTo.eq_def] at hst
      simp only [he, if_neg hc, hl] at hst
      split at hst
      · next heq => split at heq <;> cases heq
      · next heq => split at hst <;> cases hst
    | some i =>
      have hli : fs.lookup (top slash stack) c = some i := by rw [Fs.lookup_of_entries he, hl]
      cases hk : fs.kind i with
      | none =>
        refine .inl fun follow rest st hst => ?_
        rw [hwalk, walk.eq_def, walkTo.eq_def] at hst
        simp only [he, if_neg hc, hl, hk] at hst
        cases hst
      | some k =>
        refine .inr ⟨i, k, hli, hk, ?_⟩
        by_cases hlink : ∃ target, k = .symlink target
        · exact .inl hlink
        · refine .inr fun follow rest => ?_
          rw [hwalk]
          exact walk_congr (walkTo_step hc hli hk fun target e => hlink ⟨target, e⟩)

/-- What `symlink_metadata` says of the next object on a straight walk. -/
theorem linkAt_of_straight {p : RootPath} {c : Component} {i : Ino} {k : Kind}
    (h : Straight ex fs p.names stack) (hl : fs.lookup (top slash stack) c.1 = some i)
    (hk : fs.kind i = some k) : linkAt ex fs (p ++ [c]) = true ↔ ∃ target, k = .symlink target := by
  have hwalk : walkPlain ex fs false (p ++ [c]) = .found ((c.1, i) :: stack) := by
    have hstep : walkPlain ex fs false (p ++ [c]) =
        walk fs slash false false maxSymlinks stack [c.1] := by
      rw [← h false [c.1], walkPlain, List.map_append]
      rfl
    obtain ⟨es, he, hl⟩ := Option.bind_eq_some_iff.mp hl
    rw [hstep, walk.eq_def, walkTo.eq_def]
    simp only [he, if_neg c.2.2.2, hl, hk]
    cases k <;> rfl
  obtain ⟨node, hn, rfl⟩ := Option.map_eq_some_iff.mp hk
  have hstat : statAt fs (.found ((c.1, i) :: stack)) = .ok (i, node) := by
    simp only [statAt]
    rw [show top slash ((c.1, i) :: stack) = i from rfl, hn]
  rw [linkAt, hwalk, hstat]
  simp only [Except.toOption, Option.any_some, Fs.isSymlink, hk]
  cases node.kind <;> simp

/-- **A path with no link on it is walked straight**, or leads nowhere. -/
theorem straight_of_unlinked (p : RootPath)
    (hp : ∀ t, t ≠ [] → t <+: p → linkAt ex fs t = false) :
    Lost ex fs p.names ∨ ∃ stack, Straight ex fs p.names stack := by
  induction p using List.reverseRecOn with
  | nil => exact .inr ⟨ex.stack, fun _ _ => rfl⟩
  | append_singleton p c ih =>
    have hnames : RootPath.names (p ++ [c]) = RootPath.names p ++ [c.1] := List.map_append
    rw [hnames]
    rcases ih fun t ht hpre =>
      hp t ht (hpre.trans (List.prefix_append _ _)) with hlost | ⟨stack, hst⟩
    · refine .inl fun follow rest st h => hlost follow (c.1 :: rest) st ?_
      rwa [List.append_assoc] at h
    · rcases hst.step c.2.2.2 with hlost | ⟨i, k, hl, hk, hlink | hst'⟩
      · exact .inl hlost
      · have := hp (p ++ [c]) (by simp) (List.prefix_refl _)
        rw [(linkAt_of_straight hst hl hk).mpr hlink] at this
        cases this
      · exact .inr ⟨_, hst'⟩

/-! ## Where a walk that follows links ends -/

theorem Fs.ne_link_of_dir {i : Ino} (h : fs.sort i = some .dir) : fs.isSymlink i = false := by
  by_contra hlink
  rw [Bool.not_eq_false, isSymlink_iff_sort, h] at hlink
  cases hlink

theorem Fs.Looked.slash_ne_link {stack : List (Name × Ino)} (h : fs.Looked stack)
    (htop : fs.isSymlink (top slash stack) = false) : fs.isSymlink slash = false := by
  induction stack with
  | nil => exact htop
  | cons e stack ih =>
    exact ih h.1 (ne_link_of_dir (sort_of_lookup h.2))

/-- A walk that follows the last link too stops at no link. -/
theorem walkTo_ne_link (todo : List Name) : ∀ {stack : List (Name × Ino)}, fs.Looked stack →
    fs.isSymlink (top slash stack) = false →
    (∀ st, walkTo fs slash false true stack todo = .found st →
      fs.isSymlink (top slash st) = false) ∧
      ∀ st td, walkTo fs slash false true stack todo = .link st td →
        fs.Looked st ∧ fs.isSymlink (top slash st) = false := by
  induction todo with
  | nil =>
    intro stack _ htop
    refine ⟨fun st h => ?_, fun st td h => by cases h⟩
    cases h
    exact htop
  | cons c cs ih =>
    intro stack hlook htop
    have herr : ∀ e : Errno,
        (∀ st, WalkEnd.err e = .found st → fs.isSymlink (top slash st) = false) ∧
        ∀ st td, WalkEnd.err e = .link st td → fs.Looked st ∧ fs.isSymlink (top slash st) = false :=
      fun e => ⟨fun _ h => (by cases h), fun _ _ h => by cases h⟩
    rw [walkTo.eq_def]
    cases he : fs.entries (top slash stack) with
    | none => exact herr _
    | some es =>
      by_cases hc : c = ['.', '.']
      · cases stack with
        | nil => simpa only [if_pos hc, Bool.false_eq_true, if_false] using ih hlook htop
        | cons e stack =>
          have htop' := Fs.ne_link_of_dir (Fs.sort_of_lookup hlook.2)
          simpa only [if_pos hc] using ih hlook.1 htop'
      · simp only [if_neg hc]
        cases hl : es.lookup c with
        | none =>
          simp only
          split
          · exact ⟨fun _ h => (by cases h), fun _ _ h => by cases h⟩
          · exact herr _
        | some i =>
          have hpush : fs.Looked ((c, i) :: stack) := ⟨hlook, by rw [Fs.lookup_of_entries he, hl]⟩
          simp only
          cases hk : fs.kind i with
          | none => exact herr _
          | some k =>
            have hnotlink : (∀ target, k ≠ .symlink target) → fs.isSymlink i = false := by
              intro hne
              unfold Fs.isSymlink
              rw [hk]
              cases k <;> simp_all
            cases k with
            | symlink target =>
              simp only [Bool.not_true, Bool.false_eq_true, and_false, if_false]
              split
              · refine ⟨fun _ h => (by cases h), fun st td h => ?_⟩
                cases h
                exact ⟨trivial, hlook.slash_ne_link htop⟩
              · refine ⟨fun _ h => (by cases h), fun st td h => ?_⟩
                cases h
                exact ⟨hlook, htop⟩
            | file _ | dir _ => exact ih hpush (hnotlink fun target e => by cases e)

theorem walk_ne_link (links : Nat) :
    ∀ {stack st : List (Name × Ino)} {todo : List Name}, fs.Looked stack →
    fs.isSymlink (top slash stack) = false → walk fs slash false true links stack todo = .found st →
    fs.isSymlink (top slash st) = false := by
  induction links with
  | zero =>
    intro stack st todo hlook htop h
    unfold walk at h
    split at h
    · cases h
    · exact (walkTo_ne_link todo hlook htop).1 st h
  | succ links ih =>
    intro stack st todo hlook htop h
    unfold walk at h
    split at h
    · next e =>
      obtain ⟨hlook', htop'⟩ := (walkTo_ne_link todo hlook htop).2 _ _ e
      exact ih hlook' htop' h
    · exact (walkTo_ne_link todo hlook htop).1 st h

end

/-! ## The two handlers -/

section
variable {kernel : Kernel} {ex : Export} {n : Nat} {h : Host}

/-- The checks of `resolve` do not fail of themselves. -/
def Checked (a : Sys) (c : Choice) (_ : Host) : Prop := a.Looks → c.fault = none

theorem resolve_looks (path : List Char) : (resolve ex path).Only Sys.Looks := by
  unfold resolve
  split
  · trivial
  · refine (checkIntermediate_looks _ _).bind fun r => ?_
    cases r with
    | error _ => trivial
    | ok _ =>
      refine (checkCanonical_looks _).bind fun r => ?_
      cases r <;> trivial

/-- The directory's listing has the entry, with what the tree says of it. -/
def Listed (ex : Export) (fs : Fs) (path : List Char) (d : DirEntry) : Prop :=
  ∃ p dir node, Resolves ex fs path p ∧ (walkPath ex fs true p).place slash = .obj dir ∧
    fs.fstatat dir d.name = .ok (d.ino, node) ∧ d.mode = node.stMode

theorem collectEntries_ends {K : Sys → Choice → Host → Prop} (dir : Ino) (room : Nat) : ∀ pos : Nat,
    (collectEntries dir room pos).Ends (Sys.exec kernel ex n) K h fun out h' _ => h' = h ∧
      ∀ d ∈ out, d.mode ≠ 0 → ∃ node, h.fs.fstatat dir d.name = .ok (d.ino, node) ∧
      d.mode = node.stMode := by
  induction room with
  | zero => exact fun _ => ⟨rfl, by simp⟩
  | succ room ih =>
    intro pos c (found : Option Name) h₁ he
    obtain rfl : h = h₁ := by cases he; rfl
    cases found with
    | none => exact ⟨rfl, by simp⟩
    | some name =>
      intro c (st : Except Errno (Ino × Node)) h₂ he
      have hstat : h₂ = h ∧ ∀ x, st = .ok x → h.fs.fstatat dir name = .ok x := by
        rcases withFault_eq_some he with ⟨-, y, fs, hx, rfl, rfl⟩ | ⟨⟨e, rfl⟩, hsame, -⟩
        · cases hf : h.fs.fstatat dir name with
          | error e => simp [hf, Except.map] at hx
          | ok x =>
            obtain ⟨rfl, rfl⟩ : x = y ∧ h.fs = fs := by simpa [hf, Except.map] using hx
            exact ⟨rfl, fun x hx => hx⟩
        · exact ⟨hsame, fun x hx => by cases hx⟩
      obtain ⟨rfl, hstat⟩ := hstat
      refine .bind ((ih (pos + 1)).mono ?_)
      rintro out h₃ ok ⟨rfl, hout⟩
      refine ⟨rfl, fun d hd hmode => ?_⟩
      rcases List.mem_cons.mp hd with rfl | hd
      · cases st with
        | error e => exact absurd rfl hmode
        | ok x => exact ⟨x.2, hstat x rfl, rfl⟩
      · exact hout d hd hmode

theorem dirEntries_ends {K : Sys → Choice → Host → Prop} (dir : Ino) (skip : Nat) : ∀ pos : Nat,
    (dirEntries dir skip pos).Ends (Sys.exec kernel ex n) K h fun out h' _ => h' = h ∧
      ∀ d ∈ out, d.mode ≠ 0 → ∃ node, h.fs.fstatat dir d.name = .ok (d.ino, node) ∧
      d.mode = node.stMode := by
  induction skip with
  | zero => exact fun pos => collectEntries_ends dir _ pos
  | succ skip ih =>
    intro pos c (found : Option Name) h₁ he
    obtain rfl : h = h₁ := by cases he; rfl
    cases found with
    | none => exact ⟨rfl, by simp⟩
    | some _ => exact (ih (pos + 1)).mono fun _ _ _ hout => hout

/-- **What a listing says.** -/
theorem readdir_ends (seq cursor : UInt64) (path : List Char) :
    (handleReaddir ex seq path cursor).Ends (Sys.exec kernel ex n) Checked h fun _ h' ok => ok →
      ∃ r, h'.replies = h.replies ++ [(n, r)] ∧ ∀ d ∈ r.entries, d.mode ≠ 0 →
      Listed ex h.fs path d := by
  obtain ⟨x, hquiet, hx⟩ := @static_resolve kernel ex n h path
  have hresolve := hquiet.ends (resolve_looks path) {} rfl
  refine .bind (hresolve.mono ?_)
  rintro (e | p) h₁ ok hok
  · refine reply_ends fun c hc => ?_
    obtain ⟨-, rfl⟩ := hok hc.1
    exact ⟨_, rfl, by simp⟩
  · intro c (r : Except Errno Ino) h₂ he
    cases r with
    | error e =>
      refine reply_ends fun c' hc => ?_
      obtain ⟨-, rfl⟩ := hok hc.1
      rcases withFault_eq_some he with ⟨-, _, _, -, hr, -⟩ | ⟨-, rfl, -⟩
      · cases hr
      · exact ⟨_, rfl, by simp⟩
    | ok dir =>
      refine .bind ((dirEntries_ends dir cursor.toNat 0).mono ?_)
      rintro out h₃ ok' ⟨rfl, hout⟩
      refine reply_ends fun c' hc => ?_
      obtain ⟨hp, rfl⟩ := hok hc.1
      rcases withFault_eq_some he with ⟨-, i, fs, hx', hr, rfl⟩ | ⟨⟨_, hr⟩, -⟩
      · obtain rfl : dir = i := by simpa using hr
        split at hx'
        · next i node hst =>
          split at hx'
          · obtain ⟨rfl, rfl⟩ : i = dir ∧ h₁.fs = fs := by simpa using hx'
            refine ⟨_, rfl, fun d hd hmode => ?_⟩
            obtain ⟨node', hstat, hm⟩ := hout d hd hmode
            exact ⟨p, i, node', (hx p).mp hp.symm, (place_of_statAt hst).1, hstat, hm⟩
          · cases hx'
        · cases hx'
      · cases hr

/-- A GetAttr on the path, with no call failing of itself, is granted and reports the type. -/
def ReportsType (kernel : Kernel) (ex : Export) (n : Nat) (h : Host) (seq : UInt64)
    (path : List Char) (type : Nat) : Prop :=
  ∃ r st, Quiet kernel ex n (handleGetattr ex seq path) h ()
    { h with replies := h.replies ++ [(n, r)] } ∧
    r.status = .ok ∧ r.stat = some st ∧ fileType st.2.stMode = type

theorem quiet_unique {α : Type} {p : Calls α} {x y : α} {h₁ h₂ : Host}
    (hq : Quiet kernel ex n p h x h₁) (hq' : Quiet kernel ex n p h y h₂) : x = y ∧ h₁ = h₂ := by
  obtain ⟨cs', -, hrun⟩ := hq' (fun _ => {}) fun _ => rfl
  exact eq_of_quiet hq (fun _ => rfl) hrun

/-- **What a GetAttr reports on a tree that stands still.** -/
theorem reportsType_iff (seq : UInt64) (path : List Char) (type : Nat) :
    ReportsType kernel ex n h seq path type ↔ ∃ q st, Resolves ex h.fs path q ∧
      statAt h.fs (walkPath ex h.fs true q) = .ok st ∧ fileType st.2.stMode = type := by
  obtain ⟨x, hquiet, hx⟩ := @static_resolve kernel ex n h path
  have hreply :
      ∀ r : Response, Quiet kernel ex n (reply r) h ()
      { h with replies := h.replies ++ [(n, r)] } :=
    fun r => .act (fun _ _ => rfl) (Prog.runsTo_ret _)
  have hstat : ∀ (q : RootPath) (c : Choice), c.fault = none → Sys.exec kernel ex n (.stat q) c h =
      some (statAt h.fs (walkPath ex h.fs true q), h) := by
    intro q c hc
    change withFault c.fault h _ = _
    rw [hc]
    cases statAt h.fs (walkPath ex h.fs true q) <;> rfl
  cases x with
  | error e =>
    have hrun : Quiet kernel ex n (handleGetattr ex seq path) h () _ := .bind hquiet (hreply _)
    constructor
    · rintro ⟨r, st, hr, hok, -⟩
      have := congrArg Host.replies (quiet_unique hrun hr).2
      obtain rfl : _ = r := by simpa using this
      cases hok
    · rintro ⟨q, -, hq, -⟩
      cases (hx q).mpr hq
  | ok q =>
    have hq := (hx q).mp rfl
    have hstat := hstat q
    cases hst : statAt h.fs (walkPath ex h.fs true q) with
    | error e =>
      rw [hst] at hstat
      have hrun : Quiet kernel ex n (handleGetattr ex seq path) h () _ :=
        .bind hquiet (.act hstat (hreply _))
      constructor
      · rintro ⟨r, st, hr, hok, -⟩
        have := congrArg Host.replies (quiet_unique hrun hr).2
        obtain rfl : _ = r := by simpa using this
        exact absurd hok (Status.ofIo_ne_ok _)
      · rintro ⟨q', st, hq', hst', -⟩
        obtain rfl := Except.ok.inj (hq.1.symm.trans hq'.1)
        rw [hst] at hst'
        cases hst'
    | ok st =>
      rw [hst] at hstat
      have hrun : Quiet kernel ex n (handleGetattr ex seq path) h () _ :=
        .bind hquiet (.act hstat (hreply _))
      constructor
      · rintro ⟨r, st', hr, -, hstr, htype⟩
        have := congrArg Host.replies (quiet_unique hrun hr).2
        obtain rfl : _ = r := by simpa using this
        obtain rfl : st = st' := by simpa using hstr
        exact ⟨q, st, hq, hst, htype⟩
      · rintro ⟨q', st', hq', hst', htype⟩
        obtain rfl := Except.ok.inj (hq.1.symm.trans hq'.1)
        obtain rfl := Except.ok.inj (hst.symm.trans hst')
        exact ⟨_, st, hrun, rfl, rfl, htype⟩

theorem child_path {path child : List Char} {name : Name} {p q : RootPath}
    (hp : normalise path = .ok p) (hq : normalise child = .ok q)
    (hchild : components child = components path ++ [name]) :
    ∃ c : Component, c.1 = name ∧ q = p ++ [c] := by
  rw [← (names_of_normalise hp).1, ← (names_of_normalise hq).1] at hchild
  obtain ⟨q₁, q₂, rfl, h₁, h₂⟩ := List.map_eq_append_iff.mp hchild
  obtain rfl : q₁ = p := List.map_injective_iff.mpr Subtype.val_injective h₁
  obtain ⟨c, rfl, rfl⟩ := List.map_eq_singleton_iff.mp h₂
  exact ⟨c, rfl, rfl⟩

theorem dir_of_walk {fs : Fs} {follow : Bool} {links : Nat}
    {stack st : List (Name × Ino)} {c : Name} {cs : List Name}
    (hw : walk fs slash false follow links stack (c :: cs) = .found st) :
    fs.sort (top slash stack) = some .dir := by
  rw [walk.eq_def, walkTo.eq_def] at hw
  cases he : fs.entries (top slash stack) with
  | none =>
    simp only [he] at hw
    cases hw
  | some es => exact Fs.sort_of_entries he

section
variable {fs : Fs} {path child : List Char} {d : DirEntry} {p : RootPath} {dir : Ino}

/-- The directory of an entry is walked to straight, unless its own path names a link. -/
theorem straight_to_dir (hres : Resolves ex fs path p)
    (hplace : (walkPath ex fs true p).place slash = .obj dir)
    (hlink : linkAt ex fs p = false) :
    ∃ stack, Straight ex fs p.names stack ∧ top slash stack = dir := by
  obtain ⟨st, hw, htop⟩ := WalkEnd.place_eq_obj.mp hplace
  obtain ⟨hfits, hw⟩ := walkPath_found.mp hw
  have hprefix : ∀ t, t ≠ [] → t <+: p → linkAt ex fs t = false := by
    rintro t ht ⟨rest, rfl⟩
    cases rest with
    | nil => rwa [List.append_nil] at hlink
    | cons c rest => exact hres.2.1 t c rest ht rfl hfits.of_append
  rcases straight_of_unlinked p hprefix with hlost | ⟨stack, hst⟩
  · refine absurd hw ?_
    have := hlost true [] st
    rwa [List.append_nil] at this
  · obtain rfl : stack = st := by
      have := (hst.found true).symm.trans hw
      simpa using this
    exact ⟨stack, hst, htop⟩

/-- The root itself is no link, where it is a directory. -/
theorem linkAt_nil (hplace : (walkPath ex fs true []).place slash = .obj dir)
    (hdir : fs.sort dir = some .dir) : linkAt ex fs [] = false := by
  obtain ⟨stack, hw, rfl⟩ := WalkEnd.place_eq_obj.mp hplace
  obtain rfl : ex.stack = stack := WalkEnd.found.inj (walkPath_found.mp hw).2
  have hst : statAt fs (walkPlain ex fs false []) = fs.statPlace (.obj (top slash ex.stack)) :=
    Fs.statAt_eq ..
  rw [linkAt, hst]
  cases hn : fs.nodes (top slash ex.stack) with
  | none => simp [Fs.statPlace, hn, Except.toOption]
  | some node => simp [Fs.statPlace, hn, Except.toOption, Fs.ne_link_of_dir hdir]

/-- What is found at the end of a path of some components is no link. -/
theorem ne_link_of_stat (hroot : fs.Looked ex.stack) (hp : p ≠ []) {st : Ino × Node}
    (hst : statAt fs (walkPath ex fs true p) = .ok st) (target : List Char) :
    st.2.kind ≠ .symlink target := by
  obtain ⟨hplace, hn⟩ := place_of_statAt hst
  obtain ⟨stack, hw, htop⟩ := WalkEnd.place_eq_obj.mp hplace
  obtain ⟨c, cs, rfl⟩ := List.exists_cons_of_ne_nil hp
  have hw := (walkPath_found.mp hw).2
  have hne := walk_ne_link maxSymlinks hroot (Fs.ne_link_of_dir (dir_of_walk hw)) hw
  rw [htop, Fs.isSymlink, Fs.kind, hn] at hne
  intro hk
  simp [hk] at hne

theorem agree_of_listed (hroot : fs.Looked ex.stack) (hl : Listed ex fs path d)
    (hchild : components child = components path ++ [d.name]) :
    (∃ q st, Resolves ex fs child q ∧ statAt fs (walkPath ex fs true q) = .ok st ∧
      fileType st.2.stMode = fileType d.mode) ↔
      ∃ q, normalise child = .ok q ∧ linkAt ex fs q = false ∧ linkAt ex fs q.dropLast = false ∧
        ex.Fits q ∧ canonicalAt ex fs [] <+: canonicalAt ex fs q := by
  obtain ⟨p, dir, node, hres, hplace, hstat, hmode⟩ := hl
  obtain ⟨hlook, hnode⟩ := Fs.fstatat_eq_ok hstat
  have hkind : fs.kind d.ino = some node.kind := by rw [Fs.kind, hnode]; rfl
  have hdir := Fs.sort_of_lookup hlook
  constructor
  · rintro ⟨q, st, hq, hst, htype⟩
    obtain ⟨c, hc, rfl⟩ := child_path hres.1 hq.1 hchild
    obtain ⟨_, hw, -⟩ := WalkEnd.place_eq_obj.mp (place_of_statAt hst).1
    obtain ⟨hfits, -⟩ := walkPath_found.mp hw
    have hlink : linkAt ex fs p = false := by
      by_cases hp : p = []
      · subst hp
        exact linkAt_nil hplace hdir
      · exact hq.2.1 p c [] hp rfl hfits.of_append
    obtain ⟨stack, hstraight, rfl⟩ := straight_to_dir hres hplace hlink
    refine ⟨p ++ [c], hq.1, ?_, by rwa [List.dropLast_concat], hfits, hq.2.2 st hst⟩
    rw [← hc] at hlook
    by_contra hislink
    obtain ⟨target, hk⟩ := (linkAt_of_straight hstraight hlook hkind).mp (by simpa using hislink)
    rw [hmode] at htype
    obtain ⟨target', hk'⟩ := fileType_eq_link htype.symm hk
    -- a link that is followed does not lead to a link
    exact ne_link_of_stat hroot (by simp) hst target' hk'
  · rintro ⟨q, hq, hlinkq, hlink, hfits, hcan⟩
    obtain ⟨c, hc, rfl⟩ := child_path hres.1 hq hchild
    rw [List.dropLast_concat] at hlink
    obtain ⟨stack, hstraight, rfl⟩ := straight_to_dir hres hplace hlink
    rw [← hc] at hlook
    have hstep : Straight ex fs (RootPath.names (p ++ [c])) ((c.1, d.ino) :: stack) := by
      have hnames : RootPath.names (p ++ [c]) = p.names ++ [c.1] := List.map_append
      rw [hnames]
      intro follow rest
      rw [List.append_assoc, hstraight]
      refine walk_congr (walkTo_step c.2.2.2 hlook hkind fun target hk => ?_)
      rw [(linkAt_of_straight hstraight hlook hkind).mpr ⟨target, hk⟩] at hlinkq
      cases hlinkq
    have hw : walkPath ex fs true (p ++ [c]) = .found ((c.1, d.ino) :: stack) :=
      walkPath_found.mpr ⟨hfits, hstep.found true⟩
    have hst : statAt fs (walkPath ex fs true (p ++ [c])) = .ok (d.ino, node) :=
      statAt_of_place (by rw [hw]; rfl) hnode
    refine ⟨p ++ [c], (d.ino, node), ⟨hq, ?_, fun _ _ => hcan⟩, hst, by rw [hmode]⟩
    · intro q' c' rest hq' he hfits'
      rcases List.eq_nil_or_concat' rest with rfl | ⟨rest, x, rfl⟩
      · obtain ⟨rfl, -⟩ := List.append_inj' he rfl
        exact hlink
      · rw [← List.cons_append, ← List.append_assoc] at he
        obtain ⟨rfl, -⟩ := List.append_inj' he rfl
        exact hres.2.1 q' c' rest hq' rfl hfits'

end

/-- **A listing and a GetAttr agree on an entry exactly if no link is involved** and the path of the
entry is one that is taken, that the kernel takes and that is found to be under the root. The
GetAttr comes to a host with the same tree. -/
theorem kinds_agree_iff (hroot : h.fs.Looked ex.stack) {seq cursor : UInt64} {path : List Char}
    {cs cs' : Nat → Choice} {h' : Host}
    (hrun : (handleReaddir ex seq path cursor).run (Sys.exec kernel ex n) cs h = some ((), h', cs'))
    (hchecked : (handleReaddir ex seq path cursor).Along (Sys.exec kernel ex n) Checked cs h)
    {r : Response} (hr : h'.replies = h.replies ++ [(n, r)]) {d : DirEntry} (hd : d ∈ r.entries)
    (hmode : d.mode ≠ 0) {child : List Char}
    (hchild : components child = components path ++ [d.name])
    {g : Host} (hg : g.fs = h.fs) (m : Nat) (seq' : UInt64) :
    ReportsType kernel ex m g seq' child (fileType d.mode) ↔
      ∃ q, normalise child = .ok q ∧ linkAt ex h.fs q = false ∧ linkAt ex h.fs q.dropLast = false ∧
        ex.Fits q ∧ canonicalAt ex h.fs [] <+: canonicalAt ex h.fs q := by
  obtain ⟨r', hr', hlisted⟩ := (readdir_ends seq cursor path).run hrun hchecked
  obtain rfl : r = r' := by simpa using hr.symm.trans hr'
  rw [reportsType_iff, hg]
  exact agree_of_listed hroot (hlisted d hd hmode) hchild

end

def linkedList : List DirEntry :=
  [⟨['d'], 3, 0o040755⟩, ⟨['i', 'n'], 5, 0o120777⟩, ⟨['o', 'u', 't'], 6, 0o120777⟩]

theorem run_linkedList : ((handleReaddir srv 0 ['/'] 0).run (Sys.exec linux srv 0) (fun _ => {})
    (hostOf linkedNodes)).map (fun x => x.2.1.replies.map fun r => (r.1, r.2.entries)) =
    some [(0, linkedList)] := by
  decide +kernel

/-- The directory is what the listing says it is, and the links are not. -/
theorem kinds_agree_iff_linked : ReportsType linux srv 1 (hostOf linkedNodes) 0 ['/', 'd'] 0x4 ∧
    ¬ ReportsType linux srv 1 (hostOf linkedNodes) 0 ['/', 'i', 'n'] 0xA ∧
    ¬ ReportsType linux srv 1 (hostOf linkedNodes) 0 ['/', 'o', 'u', 't'] 0xA := by
  obtain ⟨⟨⟨⟩, h', cs'⟩, hrun, hr⟩ := Option.map_eq_some_iff.mp run_linkedList
  obtain ⟨⟨n, r⟩, hr, hlist⟩ := List.map_eq_singleton_iff.mp hr
  obtain ⟨rfl, hlist⟩ := Prod.mk.inj hlist
  have hroot : (hostOf linkedNodes).fs.Looked srv.stack := ⟨trivial, rfl⟩
  have hchecked : (handleReaddir srv 0 ['/'] 0).Along (Sys.exec linux srv 0) Checked (fun _ => {})
      (hostOf linkedNodes) := Prog.along_of_forall (fun _ _ _ _ => rfl) _ _
  have hagree := fun (d : DirEntry) (hd : d ∈ linkedList) hmode child hchild =>
    @kinds_agree_iff linux srv 0 (hostOf linkedNodes) hroot _ _ _ _ _ _ hrun hchecked r hr d
      (hlist.symm ▸ hd) hmode child hchild (hostOf linkedNodes) rfl 1 0
  refine ⟨?_, ?_, ?_⟩
  · exact (hagree ⟨['d'], 3, 0o040755⟩ (by decide) (by decide) ['/', 'd'] rfl).mpr
      ⟨[⟨['d'], by decide⟩], rfl, rfl, rfl, by decide, by decide⟩
  · intro hrep
    obtain ⟨q, hq, hlink, -⟩ :=
      (hagree ⟨['i', 'n'], 5, 0o120777⟩ (by decide) (by decide) ['/', 'i', 'n'] rfl).mp hrep
    cases hq
    cases hlink
  · intro hrep
    obtain ⟨q, hq, hlink, -⟩ :=
      (hagree ⟨['o', 'u', 't'], 6, 0o120777⟩ (by decide) (by decide) ['/', 'o', 'u', 't'] rfl).mp
        hrep
    cases hq
    cases hlink

/-- What a GetAttr answers on the same tree: the status, and the type it reports. -/
def answered (path : List Char) : Option (List (Status × Option Nat)) :=
  ((handleGetattr srv 0 path).run (Sys.exec linux srv 1) (fun _ => {}) (hostOf linkedNodes)).map
    fun x =>
    x.2.1.replies.map fun r => (r.2.status, r.2.stat.map fun st => fileType st.2.stMode)

/-- The links are listed as links; a GetAttr says that the one is a file, and refuses the other. -/
theorem listed_otherwise :
    ((handleReaddir srv 0 ['/'] 0).run (Sys.exec linux srv 0) (fun _ => {})
      (hostOf linkedNodes)).map
      (fun x => x.2.1.replies.map fun r => r.2.entries.map fun d => (d.name, fileType d.mode)) =
        some [[(['d'], 0x4), (['i', 'n'], 0xA), (['o', 'u', 't'], 0xA)]] ∧
    answered ['/', 'i', 'n'] = some [(.ok, some 0x8)] ∧
    answered ['/', 'o', 'u', 't'] = some [(.permission, none)] := by
  decide +kernel

end QuicFs.Server
