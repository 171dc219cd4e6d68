import QuicFs.Server.DataOps
import QuicFs.Server.DirOps

/-!
# The namespace handlers where no call fails of itself

Each handler run alone on an export of files and directories, every system call doing what
the filesystem says. Then a handler is a function of the tree: what it answers and what it
leaves is stated with `Fs.view`, and nothing is left of the calls it makes.
-/

namespace QuicFs.Server

open Lib Function

/-- Where a path leads: to an object, to a free name in a directory, or nowhere. -/
inductive Place where
  | obj (i : Ino)
  | free (d : Ino) (name : Name)
  | err (e : Errno)
  deriving DecidableEq, Repr

def WalkEnd.place (base : Ino) : WalkEnd → Place
  | .found stack => .obj (top base stack)
  | .absent stack name => .free (top base stack) name
  | .err e => .err e
  | .link .. => .err .eloop

namespace Fs

/-- The path walk without links and without `..`. -/
def locate (fs : Fs) (d : Ino) : List Name → Place
  | [] => .obj d
  | c :: cs =>
    match fs.entries d with
    | none => .err .enotdir
    | some es =>
      match es.lookup c with
      | none => if cs = [] then .free d c else .err .enoent
      | some i => fs.locate i cs

variable {fs : Fs} {root d i : Ino} {p q : List Name}

theorem locate_cons_of_lookup {c : Name} {cs : List Name} (h : fs.lookup d c = some i) :
    fs.locate d (c :: cs) = fs.locate i cs := by
  obtain ⟨es, he, hl⟩ := Option.bind_eq_some_iff.mp h
  simp [locate, he, hl]

theorem locate_eq_obj_iff : fs.locate d p = .obj i ↔ fs.descend d p = some i := by
  induction p generalizing d with
  | nil => simp [locate]
  | cons c cs ih =>
    rw [descend_cons]
    cases hl : fs.lookup d c with
    | some j => rw [locate_cons_of_lookup hl, ih]; rfl
    | none =>
      simp only [locate, Option.bind_none]
      cases he : fs.entries d with
      | none => simp
      | some es =>
        rw [lookup_of_entries he] at hl
        simp only [hl]
        split <;> simp

theorem locate_eq_free {n : Name} (h : fs.locate root p = .free d n) : ∃ q, p = q ++ [n] ∧
    fs.descend root q = some d ∧ fs.sort d = some .dir ∧ fs.lookup d n = none := by
  induction p generalizing root with
  | nil => cases h
  | cons c cs ih =>
    simp only [locate] at h
    split at h
    · cases h
    · next es he =>
      split at h
      · next hl =>
        split at h
        · next hcs =>
          cases h
          exact ⟨[], by rw [hcs]; rfl, rfl, sort_of_entries he, by rw [lookup_of_entries he, hl]⟩
        · cases h
      · next j hl =>
        obtain ⟨q, rfl, hq, hd⟩ := ih h
        refine ⟨c :: q, rfl, ?_, hd⟩
        rw [descend_cons, lookup_of_entries he, hl, Option.bind_some, hq]

/-- The errors of a walk: the parent is missing, or something on the way is no directory. -/
theorem locate_eq_err {e : Errno} (h : fs.locate root p = .err e) :
    e = .enoent ∨ e = .enotdir ∧ ∃ q c r j, p = q ++ c :: r ∧ fs.descend root q = some j ∧
      fs.sort j ≠ some .dir := by
  induction p generalizing root with
  | nil => cases h
  | cons c cs ih =>
    simp only [locate] at h
    split at h
    · next he =>
      cases h
      refine .inr ⟨rfl, [], c, cs, root, rfl, rfl, fun hs => ?_⟩
      obtain ⟨es, he'⟩ := entries_of_sort hs
      rw [he] at he'
      cases he'
    · next es he =>
      split at h
      · split at h
        · cases h
        · cases h; exact .inl rfl
      · next j hl =>
        rcases ih h with hn | ⟨hn, q, c', r, k, rfl, hq, hk⟩
        · exact .inl hn
        · refine .inr ⟨hn, c :: q, c', r, k, rfl, ?_, hk⟩
          rw [descend_cons, lookup_of_entries he, hl, Option.bind_some, hq]

end Fs

section
variable {fs : Fs} {root base : Ino} {confined follow : Bool}

/-- **The walk, where there are no links**: it ends where `locate` says, with the names it came
by on the stack. -/
theorem walkTo_eq (ht : fs.Tree root) (todo : List Name) :
    ∀ {stack : List (Name × Ino)} {q : List Name},
    fs.descend root q = some (top base stack) → (∀ c ∈ todo, c ≠ ['.', '.']) →
    (walkTo fs base confined follow stack todo).place base = fs.locate (top base stack) todo ∧
      (∀ st, walkTo fs base confined follow stack todo = .found st →
        st.map Prod.fst = todo.reverse ++ stack.map Prod.fst) ∧
      ∀ st td, walkTo fs base confined follow stack todo ≠ .link st td := by
  induction todo with
  | nil =>
    intro stack q _ _
    refine ⟨rfl, fun st h => ?_, fun st td h => ?_⟩
    · obtain rfl : stack = st := by simpa [walkTo] using h
      rfl
    · simp [walkTo] at h
  | cons c cs ih =>
    intro stack q hq hc
    have hdots : c ≠ ['.', '.'] := hc c (List.mem_cons_self ..)
    unfold walkTo Fs.locate
    cases he : fs.entries (top base stack) with
    | none => exact ⟨rfl, fun _ h => (by cases h), fun _ _ h => (by cases h)⟩
    | some es =>
      simp only [hdots, if_false]
      cases hl : es.lookup c with
      | none =>
        simp only
        split
        · exact ⟨rfl, fun _ h => (by cases h), fun _ _ h => (by cases h)⟩
        · exact ⟨rfl, fun _ h => (by cases h), fun _ _ h => (by cases h)⟩
      | some i =>
        have hqi : fs.descend root (q ++ [c]) = some i := by
          rw [Fs.descend_snoc, hq, Option.bind_some, Fs.lookup_of_entries he, hl]
        have hih := @ih ((c, i) :: stack) (q ++ [c]) hqi fun c' h =>
          hc c' (List.mem_cons_of_mem _ h)
        have hstack : ∀ st : List (Name × Ino), st.map Prod.fst = cs.reverse ++
            ((c, i) :: stack).map Prod.fst →
            st.map Prod.fst = (c :: cs).reverse ++ stack.map Prod.fst := by
          intro st h
          rw [h]
          simp
        cases hk : fs.kind i with
        | none =>
          have := ht.sort_descend hqi
          simp [Fs.sort, hk] at this
        | some k =>
          cases k with
          | symlink target => exact absurd (by simp [Fs.sort, hk, Kind.sort]) (ht.plain hqi)
          | file data =>
            simp only [hk]
            exact ⟨hih.1, fun st h => hstack st (hih.2.1 st h), hih.2.2⟩
          | dir es' =>
            simp only [hk]
            exact ⟨hih.1, fun st h => hstack st (hih.2.1 st h), hih.2.2⟩

theorem walk_eq (confined follow : Bool) (links : Nat) (ht : fs.Tree root) {todo : List Name}
    {stack : List (Name × Ino)} {q : List Name} (hq : fs.descend root q = some (top base stack))
    (hc : ∀ c ∈ todo, c ≠ ['.', '.']) :
    (walk fs base confined follow links stack todo).place base = fs.locate (top base stack) todo ∧
      ∀ st, walk fs base confined follow links stack todo = .found st →
        st.map Prod.fst = todo.reverse ++ stack.map Prod.fst := by
  obtain ⟨h1, h2, h3⟩ := @walkTo_eq fs root base confined follow ht todo stack q hq hc
  have hw : walk fs base confined follow links stack todo =
      walkTo fs base confined follow stack todo := by
    unfold walk
    split
    · next h => exact absurd h (h3 _ _)
    · rfl
  rw [hw]
  exact ⟨h1, h2⟩

end

/-! ## Calls -/

namespace Fs

def statPlace (fs : Fs) : Place → Except Errno (Ino × Node)
  | .obj i =>
    match fs.nodes i with
    | some node => .ok (i, node)
    | none => .error .enoent
  | .free .. => .error .enoent
  | .err e => .error e

theorem statAt_eq (fs : Fs) (w : WalkEnd) : statAt fs w = fs.statPlace (w.place slash) := by
  cases w <;> rfl

/-- An `open` of what a path leads to. -/
def openPlace (fs : Fs) (flags : OpenFlags) (mode : Nat) : Place → Except Errno (Ino × Fs)
  | .obj i => fs.openAt i flags mode (.found [])
  | .free d name => fs.openAt d flags mode (.absent [] name)
  | .err e => .error e

theorem openAt_eq (fs : Fs) (base : Ino) (flags : OpenFlags) (mode : Nat) (w : WalkEnd) :
    fs.openAt base flags mode w = fs.openPlace flags mode (w.place base) := by
  cases w <;> rfl

end Fs

def RootPath.names (path : RootPath) : List Name := path.map (·.1)

theorem ne_dots_of_mem_names (path : RootPath) : ∀ c ∈ path.names, c ≠ ['.', '.'] := by
  intro c hc
  obtain ⟨c, -, rfl⟩ := List.mem_map.mp hc
  exact c.2.2.2

theorem collectComponents_eq {ps : List Name} : ∀ {cs : RootPath}, collectComponents ps = .ok cs →
    cs.names = ps.filter fun p => p ≠ [] ∧ p ≠ ['.'] := by
  induction ps with
  | nil =>
    intro cs h
    obtain rfl : [] = cs := by simpa [collectComponents] using h
    rfl
  | cons p ps ih =>
    intro cs h
    unfold collectComponents at h
    split at h
    · next hp =>
      rw [List.filter_cons_of_neg (by rcases hp with rfl | rfl <;> simp), ih h]
    · next hp =>
      split at h
      · cases h
      · split at h
        · cases h
        · cases hcs : collectComponents ps with
          | error e => rw [hcs] at h; cases h
          | ok cs' =>
            rw [hcs] at h
            cases h
            rw [List.filter_cons_of_pos (by simpa using hp), ← ih hcs]
            rfl

theorem components_dropWhile (path : List Char) :
    components (path.dropWhile (· = '/')) = components path := by
  induction path with
  | nil => rfl
  | cons c cs ih =>
    by_cases hc : c = '/'
    · subst hc
      rw [List.dropWhile_cons_of_pos (by simp), ih]
      simp [components, splitSlash]
    · rw [List.dropWhile_cons_of_neg (by simpa using hc)]

theorem names_of_normalise {path : List Char} {cs : RootPath} (h : normalise path = .ok cs) :
    cs.names = components path ∧ ∀ c ∈ cs.names, ValidName c := by
  unfold normalise at h
  split at h
  · cases h
  · split at h
    · cases h
    · split at h
      · cases h
      · next cs' hcs =>
        split at h
        · cases h
        · cases h
          have heq := collectComponents_eq hcs
          refine ⟨by rw [heq, ← components_dropWhile path]; rfl, fun c hc => ?_⟩
          have hsl : '/' ∉ c := by
            rw [heq] at hc
            exact not_mem_splitSlash _ c (List.mem_filter.mp hc).1
          obtain ⟨c, -, rfl⟩ := List.mem_map.mp hc
          exact ⟨c.2.1, c.2.2.1, c.2.2.2, hsl⟩

/-! ## Short paths -/

theorem canonLen_cons (c : Name) (i : Ino) (stack : List (Name × Ino)) :
    canonLen ((c, i) :: stack) = canonLen stack + utf8Len c + 1 := by
  simp only [canonLen, namesLen, List.map_cons, List.sum_cons]
  omega

theorem namesLen_cons (c : Name) (cs : List Name) :
    namesLen (c :: cs) = utf8Len c + 1 + namesLen cs := by
  simp [namesLen]

theorem peakTo_le (fs : Fs) (todo : List Name) (hc : ∀ c ∈ todo, c ≠ ['.', '.']) :
    ∀ stack : List (Name × Ino), peakTo fs stack todo ≤ canonLen stack + namesLen todo := by
  induction todo with
  | nil => exact fun _ => Nat.le_refl _
  | cons c cs ih =>
    intro stack
    have ih := ih fun c' h => hc c' (List.mem_cons_of_mem _ h)
    rw [peakTo, if_neg (hc c (List.mem_cons_self ..)), namesLen_cons]
    split
    · omega
    · next i _ =>
      split
      · omega
      · have := ih ((c, i) :: stack)
        rw [canonLen_cons] at this
        omega

/-- The path is within every limit: joined to the root as it is configured, and to where it is. -/
structure Export.Short (ex : Export) (names : List Name) : Prop where
  joined : utf8Len (names.foldl pushName ex.text) < pathMax
  canonical : canonLen ex.stack + namesLen names < pathMax

instance (ex : Export) (names : List Name) : Decidable (ex.Short names) :=
  decidable_of_iff (utf8Len (names.foldl pushName ex.text) < pathMax ∧
    canonLen ex.stack + namesLen names < pathMax)
      ⟨fun h => ⟨h.1, h.2⟩, fun h => ⟨h.joined, h.canonical⟩⟩

namespace Export.Short

variable {ex : Export} {names : List Name}

theorem of_append (rest : List Name) (h : ex.Short (names ++ rest)) : ex.Short names := by
  induction rest using List.reverseRecOn with
  | nil => rwa [List.append_nil] at h
  | append_singleton rest c ih =>
    rw [← List.append_assoc] at h
    refine ih ⟨?_, ?_⟩
    · have := h.joined
      rw [List.foldl_append] at this
      exact Nat.lt_of_le_of_lt (utf8Len_pushName ..) this
    · have := h.canonical
      simp only [namesLen, List.map_append, List.sum_append] at this ⊢
      omega

theorem dropLast {path : RootPath} (h : ex.Short path.names) :
    ex.Short (RootPath.names path.dropLast) := by
  rcases List.eq_nil_or_concat' path with rfl | ⟨init, c, rfl⟩
  · exact h
  · rw [List.dropLast_concat]
    exact of_append [c.1] (by rwa [RootPath.names, List.map_append] at h)

theorem fits {path : RootPath} (h : ex.Short path.names) : ex.Fits path := h.joined

theorem relative (h : ex.Short names) : utf8Len (List.intercalate ['/'] names) < pathMax := by
  have := utf8Len_intercalate_le names
  have := h.canonical
  omega

end Export.Short

/-- The kernel walks as Linux does, and the root is at the end of its own path. -/
structure Standing (kernel : Kernel) (ex : Export) : Prop where
  walks : kernel.beneath = linux.beneath
  root : top slash ex.stack = ex.root

/-- The program run by itself, no call failing of itself. -/
abbrev Quiet {α : Type} (kernel : Kernel) (ex : Export) (n : Nat) (p : Calls α) (h : Host) (x : α)
    (h' : Host) : Prop := Prog.RunsTo (Sys.exec kernel ex n) (fun c => c.fault = none) p h x h'

section
variable {kernel : Kernel} {ex : Export} {n : Nat} {h : Host} (hs : Standing kernel ex)
  (ht : h.fs.Tree ex.root)
include hs ht

theorem place_walkPlain (follow : Bool) (path : RootPath) :
    (walkPlain ex h.fs follow path).place slash = h.fs.locate ex.root path.names := by
  have hq : h.fs.descend ex.root [] = some (top slash ex.stack) := by rw [hs.root]; rfl
  have := (walk_eq false follow maxSymlinks ht hq
    (ne_dots_of_mem_names path)).1
  rwa [hs.root] at this

theorem found_walkPlain {follow : Bool} {path : RootPath} {st : List (Name × Ino)}
    (hw : walkPlain ex h.fs follow path = .found st) :
    st.map Prod.fst = path.names.reverse ++ ex.stack.map Prod.fst := by
  have hq : h.fs.descend ex.root [] = some (top slash ex.stack) := by rw [hs.root]; rfl
  exact (walk_eq false follow maxSymlinks ht hq
    (ne_dots_of_mem_names path)).2 st hw

theorem statAt_walkPath (follow : Bool) {path : RootPath} (hp : ex.Fits path) :
    statAt h.fs (walkPath ex h.fs follow path) =
      h.fs.statPlace (h.fs.locate ex.root path.names) := by
  rw [walkPath, if_pos hp, Fs.statAt_eq, place_walkPlain hs ht]

theorem exec_isSymlink (path : RootPath) {c : Choice} (hc : c.fault = none) :
    Sys.exec kernel ex n (.isSymlink path) c h = some (false, h) := by
  change some (c.fault.isNone && _, h) = _
  by_cases hp : ex.Fits path
  · rw [statAt_walkPath hs ht _ hp, hc]
    cases hl : h.fs.locate ex.root path.names with
    | obj i =>
      have hi := Fs.locate_eq_obj_iff.mp hl
      cases hn : h.fs.nodes i with
      | none => simp [Fs.statPlace, hn, Except.toOption]
      | some node =>
        have hlink : h.fs.isSymlink i = false := by
          have := ht.plain hi
          rwa [ne_eq, ← Fs.isSymlink_iff_sort, Bool.not_eq_true] at this
        simp [Fs.statPlace, hn, hlink, Except.toOption]
    | free d name => simp [Fs.statPlace, Except.toOption]
    | err e => simp [Fs.statPlace, Except.toOption]
  · rw [walkPath, if_neg hp, hc]
    rfl

theorem quiet_checkIntermediate (path : RootPath) : ∀ walking : RootPath,
    Quiet kernel ex n (checkIntermediate walking path) h (.ok ()) h := by
  induction path with
  | nil => exact fun _ => Prog.runsTo_ret _
  | cons c cs ih =>
    intro walking
    cases cs with
    | nil => exact Prog.runsTo_ret _
    | cons c' cs => exact .act (fun _ hc => exec_isSymlink hs ht _ hc) (ih _)

theorem realpath_eq {path : RootPath} (hp : ex.Short path.names) {st : List (Name × Ino)}
    (hw : walkPlain ex h.fs true path = .found st) :
    realpath ex h.fs path = .ok (ex.stack.reverse.map Prod.fst ++ path.names) := by
  have hq : h.fs.descend ex.root [] = some (top slash ex.stack) := by rw [hs.root]; rfl
  have hpeak : peak h.fs maxSymlinks ex.stack (path.map (·.1)) < pathMax := by
    have hlinks :=
      (@walkTo_eq h.fs ex.root slash false true ht path.names _ _ hq
      (ne_dots_of_mem_names path)).2.2
    have hle := peakTo_le h.fs path.names (ne_dots_of_mem_names path) ex.stack
    rw [peak.eq_def]
    split
    · next he => exact absurd he (hlinks _ _)
    · exact Nat.lt_of_le_of_lt hle hp.canonical
  have hst := found_walkPlain hs ht hw
  rw [realpath, if_pos hpeak, hw]
  simp only [List.map_reverse, hst, List.reverse_append, List.reverse_reverse]

theorem quiet_checkCanonical {path : RootPath} (hp : ex.Short path.names) :
    Quiet kernel ex n (checkCanonical ex path) h (.ok ()) h := by
  have hcan : ∀ q : RootPath, ex.Short q.names → ∀ st, walkPlain ex h.fs true q = .found st →
      ∀ c : Choice, c.fault = none → Sys.exec kernel ex n (.canonicalize q) c h =
        some (.ok (ex.stack.reverse.map Prod.fst ++ q.names), h) := by
    intro q hq st hw c hc
    change withFault c.fault h _ = _
    rw [hc, realpath_eq hs ht hq hw]
    rfl
  have hroot := hcan [] (Export.Short.of_append path.names hp) ex.stack rfl
  have hthere : ∀ c : Choice, c.fault = none → Sys.exec kernel ex n (.exists path) c h =
      some ((statAt h.fs (walkPath ex h.fs true path)).toOption.isSome, h) := by
    intro c hc
    change some (c.fault.isNone && _, h) = _
    rw [hc]
    rfl
  rw [walkPath, if_pos hp.fits] at hthere
  refine .act hthere ?_
  cases hw : walkPlain ex h.fs true path with
  | found st =>
    split
    · refine .act (hcan path hp st hw) (.act hroot ?_)
      simp [Except.toOption, RootPath.names]
      exact Prog.runsTo_ret _
    · exact Prog.runsTo_ret _
  | absent st name => exact Prog.runsTo_ret _
  | err e => exact Prog.runsTo_ret _
  | link st td => exact Prog.runsTo_ret _

theorem quiet_resolve (path : List Char) (hp : ∀ cs, normalise path = .ok cs → ex.Short cs.names) :
    Quiet kernel ex n (resolve ex path) h (normalise path) h := by
  unfold resolve
  cases hn : normalise path with
  | error e => exact Prog.runsTo_ret _
  | ok joined =>
    exact .bind (quiet_checkIntermediate hs ht joined [])
      (.bind (quiet_checkCanonical hs ht (hp joined hn))
      (Prog.runsTo_ret _))

omit hs ht in
theorem openPlace_ne_enosys {flags : OpenFlags} {mode : Nat} {path : List Name} :
    h.fs.openPlace flags mode (h.fs.locate ex.root path) ≠ .error .enosys := by
  cases hl : h.fs.locate ex.root path with
  | obj i =>
    simp only [Fs.openPlace, Fs.openAt]
    split
    · simp
    · split
      · simp
      · split
        · split <;> simp
        · split <;> simp
        · split
          · simp
          · split <;> simp
  | free d name =>
    simp only [Fs.openPlace, Fs.openAt]
    split <;> simp
  | err e => rcases Fs.locate_eq_err hl with rfl | ⟨rfl, -⟩ <;> simp [Fs.openPlace]

/-- What an `open` answers and leaves. -/
def Host.opened (h : Host) : Except Errno (Ino × Fs) → Except IoError Ino × Host
  | .ok (fd, fs) => (.ok fd, { h with fs })
  | .error e => (.error (.os e), h)

theorem quiet_openConfined {path : RootPath} (hp : ex.Short path.names) (flags : OpenFlags)
    (mode : Nat) :
    Quiet kernel ex n (openConfined path flags mode) h
      (h.opened (h.fs.openPlace flags mode (h.fs.locate ex.root path.names))).1
      (h.opened (h.fs.openPlace flags mode (h.fs.locate ex.root path.names))).2 := by
  generalize hr : h.fs.openPlace flags mode (h.fs.locate ex.root path.names) = r
  have hne : r ≠ .error .enosys := hr ▸ openPlace_ne_enosys
  have hplain : ∀ c : Choice, c.fault = none →
      Sys.exec kernel ex n (.openPlain path flags mode) c h =
      withFault none h r := by
    intro c hc
    change withFault c.fault h _ = _
    rw [hc, Fs.openAt_eq, walkPath, if_pos hp.fits, place_walkPlain hs ht, hr]
  cases hb : kernel.hasOpenat2 with
  | true =>
    have hopen : ∀ c : Choice, c.fault = none →
        Sys.exec kernel ex n (.openat2 path flags mode) c h =
        withFault none h r := by
      intro c hc
      change openBeneath kernel ex h path flags mode c.fault = _
      have hq : h.fs.descend ex.root [] = some (top ex.root []) := rfl
      have hw : (linux.beneath h.fs ex.root (!flags.noFollow) (path.map (·.1))).place ex.root =
          h.fs.locate ex.root path.names := by
        change ((if _ then _ else _ : WalkEnd).place ex.root) = _
        rw [if_pos (show utf8Len (List.intercalate ['/'] (path.map (·.1))) <
          pathMax from hp.relative)]
        exact (walk_eq true (!flags.noFollow) maxSymlinks ht hq (ne_dots_of_mem_names path)).1
      rw [openBeneath, if_pos hb, hc, Fs.openAt_eq, hs.walks, hw, hr]
      split
      · next he =>
        cases r with
        | error e => cases he; exact absurd rfl hne
        | ok r => cases he
      · rfl
    cases r with
    | ok r => exact .act hopen (Prog.runsTo_ret _)
    | error e =>
      cases e with
      | enosys => exact absurd rfl hne
      | _ => exact .act hopen (Prog.runsTo_ret _)
  | false =>
    have hopen : ∀ c : Choice, c.fault = none →
        Sys.exec kernel ex n (.openat2 path flags mode) c h =
        some (.error .enosys, h) := by
      intro c hc
      change openBeneath kernel ex h path flags mode c.fault = _
      rw [openBeneath, hb]
      rfl
    refine .act hopen ?_
    cases r with
    | ok r => exact .act hplain (Prog.runsTo_ret _)
    | error e => exact .act hplain (Prog.runsTo_ret _)

/-- An `open` that neither creates nor truncates leaves everything as it is. -/
theorem quiet_openConfined_plain {path : RootPath} (hp : ex.Short path.names) (flags : OpenFlags)
    (mode : Nat) (hc : flags.creat = false) (htr : flags.trunc = false) :
    ∃ r, Quiet kernel ex n (openConfined path flags mode) h r h ∧
      ∀ i, r = .ok i → h.fs.descend ex.root path.names = some i ∧
        (flags.directory = true → h.fs.sort i = some .dir) := by
  have hrun := quiet_openConfined (n := n) hs ht hp flags mode
  cases hl : h.fs.locate ex.root path.names with
  | free d name =>
    rw [hl] at hrun
    simp only [Fs.openPlace, Fs.openAt, hc, Bool.false_eq_true, if_false] at hrun
    exact ⟨_, hrun, fun i e => by cases e⟩
  | err e =>
    rw [hl] at hrun
    exact ⟨_, hrun, fun i e => by cases e⟩
  | obj i =>
    have hi := Fs.locate_eq_obj_iff.mp hl
    obtain ⟨node, hnode⟩ : ∃ node, h.fs.nodes i = some node := by
      refine Option.ne_none_iff_exists'.mp fun e => ?_
      rcases ht.sort_descend hi with h' | h' <;> rw [Fs.sort_eq_none.mpr e] at h' <;> cases h'
    have hsort := Fs.sort_of_node hnode
    rw [hl] at hrun
    simp only [Fs.openPlace, Fs.openAt, hc, htr, top, List.head?_nil, Option.map_none,
      Option.getD_none,
      Bool.false_and, Bool.false_eq_true, if_false, hnode, Bool.false_or] at hrun
    cases hk : node.kind with
    | symlink target =>
      rw [hk] at hsort
      exact absurd hsort (ht.plain hi)
    | dir es =>
      rw [hk] at hsort
      simp only [hk] at hrun
      split at hrun
      · exact ⟨_, hrun, fun i e => by cases e⟩
      · exact ⟨_, hrun, fun j e => by cases e; exact ⟨hi, fun _ => hsort⟩⟩
    | file data =>
      simp only [hk] at hrun
      split at hrun
      · exact ⟨_, hrun, fun i e => by cases e⟩
      · next hd => exact ⟨_, hrun, fun j e => by cases e; exact ⟨hi, fun h => absurd h hd⟩⟩

theorem quiet_syncParentDir {path : RootPath} (hp : ex.Short path.names) :
    Quiet kernel ex n (syncParentDir path) h () h := by
  unfold syncParentDir
  split
  · exact Prog.runsTo_ret _
  · obtain ⟨r, hr, -⟩ := quiet_openConfined_plain (n := n) hs ht hp.dropLast
      { access := .rdonly, directory := true, noFollow := true } 0 rfl rfl
    cases r with
    | error e => exact .bind (.bind hr (Prog.runsTo_ret _)) (Prog.runsTo_ret _)
    | ok fd =>
      have hsync : ∀ c : Choice, c.fault = none → Sys.exec kernel ex n (.fsync fd) c h =
          some (.ok (), h) := by
        intro c hc
        change withFault_ c.fault h _ = _
        rw [hc]
        rfl
      exact .bind (.bind hr (.act hsync (Prog.runsTo_ret _))) (Prog.runsTo_ret _)

theorem quiet_syncIf (sync : Bool) (status : Status) {path : RootPath} (hp : ex.Short path.names) :
    Quiet kernel ex n (syncIf sync status path) h () h := by
  unfold syncIf
  split
  · exact quiet_syncParentDir hs ht hp
  · exact Prog.runsTo_ret _

theorem quiet_confinedParent {path : RootPath} (hp : ex.Short path.names) :
    ∃ r, Quiet kernel ex n (confinedParent ex path) h r h ∧
      ∀ d name, r = .ok (d, name) → ∃ p, path.names = p ++ [name.1] ∧
        h.fs.descend ex.root p = some d ∧ h.fs.sort d = some .dir := by
  unfold confinedParent
  cases hlast : path.getLast? with
  | none => exact ⟨_, Prog.runsTo_ret _, fun d name e => by cases e⟩
  | some name =>
    obtain ⟨r, hr, hspec⟩ := quiet_openConfined_plain (n := n) hs ht hp.dropLast
      { access := .path, directory := true } 0 rfl rfl
    have hnames : path.names = RootPath.names path.dropLast ++ [name.1] := by
      conv_lhs => rw [← List.dropLast_append_getLast? name hlast]
      simp [RootPath.names]
    cases r with
    | error e => exact ⟨_, .bind hr (Prog.runsTo_ret _), fun d name e => by cases e⟩
    | ok fd =>
      refine ⟨_, .bind hr (Prog.runsTo_ret _), fun d name' e => ?_⟩
      cases e
      exact ⟨_, hnames, (hspec fd rfl).1, (hspec fd rfl).2 rfl⟩

/-! ## The confined operations -/

def Host.left (h : Host) : Except Errno Fs → Host
  | .ok fs => { h with fs }
  | .error _ => h

omit hs ht in
theorem withFault_none (h : Host) (r : Except Errno Fs) :
    withFault_ none h r = some (r.map fun _ => (), h.left r) := by
  cases r <;> rfl

omit hs ht in
theorem same_fchmodat {fs : Fs} {root d i : Ino} (ht : fs.Tree root) {p : List Name} {name : Name}
    (hp : fs.descend root p = some d) (hi : fs.lookup d name = some i) (mode : Nat) :
    ∃ fs', fs.fchmodat d name mode = .ok fs' ∧ fs.Same fs' := by
  have hpi : fs.descend root (p ++ [name]) = some i := by
    rw [Fs.descend_snoc, hp, Option.bind_some, hi]
  have hvalid := ht.validName hpi
  have hq : fs.descend root p = some (top slash (fs.stackOf fs.next d)) := by
    rw [Fs.top_stackOf, hp]
  have hdots : ∀ c ∈ [name], c ≠ ['.', '.'] := by simpa using hvalid.2.2.1
  have hw := (walk_eq false true maxSymlinks ht hq hdots).1
  rw [Fs.top_stackOf, Fs.locate_cons_of_lookup hi] at hw
  obtain ⟨node, hnode⟩ := ht.node_of_descend hpi
  obtain ⟨fs', hmod, hsame⟩ := Fs.same_modify hnode (f := ({ · with mode })) rfl
  refine ⟨fs', ?_, hsame⟩
  unfold Fs.fchmodat
  cases hwalk : walk fs slash false true maxSymlinks (fs.stackOf fs.next d) [name] with
  | found st =>
    rw [hwalk] at hw
    obtain rfl : top slash st = i := by simpa [WalkEnd.place, Fs.locate] using hw
    exact hmod
  | absent st name => rw [hwalk] at hw; cases hw
  | err e => rw [hwalk] at hw; cases hw
  | link st td => rw [hwalk] at hw; cases hw

theorem quiet_mkdirConfined {path : RootPath} (hp : ex.Short path.names)
    (hvalid : ∀ c ∈ path.names, ValidName c) (mode : UInt32) :
    ∃ r h', Quiet kernel ex n (mkdirConfined ex path mode) h r h' ∧
      ((∃ e, r = .error e) ∧ h' = h ∨
        r = .ok () ∧ h'.fs.Tree ex.root ∧ h.fs.view ex.root path.names = none ∧
          ∃ i, h'.fs.view ex.root =
            update (h.fs.view ex.root) path.names (some (i, .dir))) := by
  obtain ⟨r, hr, hpar⟩ := quiet_confinedParent (n := n) hs ht hp
  cases r with
  | error e => exact ⟨_, _, .bind hr (Prog.runsTo_ret _), .inl ⟨⟨e, rfl⟩, rfl⟩⟩
  | ok dn =>
    obtain ⟨d, name⟩ := dn
    obtain ⟨p, hpath, hpd, hdir⟩ := hpar d name rfl
    obtain ⟨es, hes⟩ := Fs.entries_of_sort hdir
    have hexec : ∀ c : Choice, c.fault = none →
        Sys.exec kernel ex n (.mkdirat d name (permBits mode)) c h =
        some ((h.fs.mkdirat d name.1 (permBits mode)).map fun _ => (),
          h.left (h.fs.mkdirat d name.1 (permBits mode))) := by
      intro c hc
      change withFault_ c.fault h _ = _
      rw [hc, withFault_none]
    simp only [Fs.mkdirat, hes] at hexec
    cases hl : es.lookup name.1 with
    | some j =>
      simp only [hl, Option.isSome_some, if_true] at hexec
      exact ⟨_, _, .bind hr (.bind (.act hexec (Prog.runsTo_ret _)) (Prog.runsTo_ret _)),
        .inl ⟨⟨_, rfl⟩, rfl⟩⟩
    | none =>
      have hnew : Fs.NewAt h.fs ex.root path.names d name.1 :=
        ⟨⟨p, hpath, hpd⟩, hdir, by rw [Fs.lookup_of_entries hes, hl],
          hvalid _ (by rw [hpath]; exact List.mem_append_right _ (List.mem_singleton_self _))⟩
      obtain ⟨ht1, hnone, hview⟩ := ht.created hnew (k := .dir []) rfl (by simp [Kind.sort])
        (permBits mode)
      obtain ⟨hp1, hl1⟩ := hnew.entered hview
      obtain ⟨fs2, hmod, hsame⟩ := same_fchmodat ht1 hp1 hl1 (permBits mode)
      simp only [hl, Option.isSome_none, Bool.false_eq_true, if_false] at hexec
      have hch : ∀ c : Choice, c.fault = none →
          Sys.exec kernel ex n (.fchmodat d name (permBits mode)) c
          { h with fs := h.fs.create d name.1 (.dir []) (permBits mode) } =
            some (.ok (), { h with fs := fs2 }) := by
        intro c hc
        change withFault_ c.fault _ _ = _
        rw [hc, hmod]
        rfl
      refine ⟨_, _,
        .bind hr (.bind (.act hexec (Prog.runsTo_ret _)) (.act hch (Prog.runsTo_ret _))),
        .inr ⟨rfl, hsame.tree ht1, hnone, h.fs.next, ?_⟩⟩
      rw [hsame.view, hview]
      rfl

theorem quiet_removeConfined {path : RootPath} (hp : ex.Short path.names) (isDir : Bool) :
    ∃ r h', Quiet kernel ex n (removeConfined ex path isDir) h r h' ∧
      ((∃ e, r = .error e) ∧ h' = h ∨
        r = .ok () ∧ h'.fs.Tree ex.root ∧
          h'.fs.view ex.root = update (h.fs.view ex.root) path.names none ∧
          ∀ c q, h.fs.view ex.root (path.names ++ c :: q) = none) := by
  obtain ⟨r, hr, hpar⟩ := quiet_confinedParent (n := n) hs ht hp
  cases r with
  | error e => exact ⟨_, _, .bind hr (Prog.runsTo_ret _), .inl ⟨⟨e, rfl⟩, rfl⟩⟩
  | ok dn =>
    obtain ⟨d, name⟩ := dn
    obtain ⟨p, hpath, hpd, -⟩ := hpar d name rfl
    have hexec : ∀ c : Choice, c.fault = none → Sys.exec kernel ex n (.unlinkat d name isDir) c h =
        some ((h.fs.unlinkat d name.1 isDir).map fun _ => (),
          h.left (h.fs.unlinkat d name.1 isDir)) := by
      intro c hc
      change withFault_ c.fault h _ = _
      rw [hc, withFault_none]
    cases hu : h.fs.unlinkat d name.1 isDir with
    | error e =>
      rw [hu] at hexec
      exact ⟨_, _, .bind hr (.act hexec (Prog.runsTo_ret _)), .inl ⟨⟨_, rfl⟩, rfl⟩⟩
    | ok fs' =>
      rw [hu] at hexec
      obtain ⟨ht', hview, hbelow⟩ := ht.removed hpd hu
      rw [← hpath] at hview hbelow
      exact ⟨_, _, .bind hr (.act hexec (Prog.runsTo_ret _)), .inr ⟨rfl, ht', hview, hbelow⟩⟩

theorem quiet_renameConfined {old new : RootPath} (hpo : ex.Short old.names)
    (hpn : ex.Short new.names) (hvalid : ∀ c ∈ new.names, ValidName c) :
    ∃ r h', Quiet kernel ex n (renameConfined ex old new) h r h' ∧
      ((∃ e, r = .error e) ∧ h' = h ∨
        r = .ok () ∧ h'.fs.Tree ex.root ∧ (∃ x, h.fs.view ex.root old.names = some x ∧
          (h'.fs = h.fs ∧ h.fs.view ex.root new.names = some x ∨
            h'.fs.view ex.root = Fs.moved (h.fs.view ex.root) old.names new.names ∧
            ∀ c q, h.fs.view ex.root (new.names ++ c :: q) = none))) := by
  obtain ⟨r, hr, hpar⟩ := quiet_confinedParent (n := n) hs ht hpo
  cases r with
  | error e => exact ⟨_, _, .bind hr (Prog.runsTo_ret _), .inl ⟨⟨e, rfl⟩, rfl⟩⟩
  | ok dn =>
    obtain ⟨d, name⟩ := dn
    obtain ⟨p, hold, hp, hdir⟩ := hpar d name rfl
    obtain ⟨r', hr', hpar'⟩ := quiet_confinedParent (n := n) hs ht hpn
    cases r' with
    | error e => exact ⟨_, _, .bind hr (.bind hr' (Prog.runsTo_ret _)), .inl ⟨⟨e, rfl⟩, rfl⟩⟩
    | ok dn' =>
      obtain ⟨d', name'⟩ := dn'
      obtain ⟨p', hnew, hp', hdir'⟩ := hpar' d' name' rfl
      have hexec : ∀ c : Choice, c.fault = none →
          Sys.exec kernel ex n (.renameat d name d' name') c h =
          some ((h.fs.renameat d name.1 d' name'.1).map fun _ => (),
            h.left (h.fs.renameat d name.1 d' name'.1)) := by
        intro c hc
        change withFault_ c.fault h _ = _
        rw [hc, withFault_none]
      cases hu : h.fs.renameat d name.1 d' name'.1 with
      | error e =>
        rw [hu] at hexec
        exact ⟨_, _, .bind hr (.bind hr' (.act hexec (Prog.runsTo_ret _))), .inl ⟨⟨_, rfl⟩, rfl⟩⟩
      | ok fs' =>
        rw [hu] at hexec
        have hname : ValidName name'.1 :=
          hvalid _ (by rw [hnew]; exact List.mem_append_right _ (List.mem_singleton_self _))
        obtain ⟨ht', x, hx, hcase⟩ := ht.renamed hp hp' hname hu
        rw [← hold] at hx hcase
        rw [← hnew] at hcase
        exact ⟨_, _, .bind hr (.bind hr' (.act hexec (Prog.runsTo_ret _))),
          .inr ⟨rfl, ht', x, hx, hcase⟩⟩

theorem quiet_linkConfined {old new : RootPath} (hpo : ex.Short old.names)
    (hpn : ex.Short new.names) (hvalid : ∀ c ∈ new.names, ValidName c) :
    ∃ r h', Quiet kernel ex n (linkConfined ex old new) h r h' ∧
      ((∃ e, r = .error e) ∧ h' = h ∨
        r = .ok () ∧ h'.fs.Tree ex.root ∧ h.fs.view ex.root new.names = none ∧
          ∃ i, h.fs.view ex.root old.names = some (i, .file) ∧
            h'.fs.view ex.root = update (h.fs.view ex.root) new.names (some (i, .file))) := by
  obtain ⟨r, hr, hpar⟩ := quiet_confinedParent (n := n) hs ht hpo
  cases r with
  | error e => exact ⟨_, _, .bind hr (Prog.runsTo_ret _), .inl ⟨⟨e, rfl⟩, rfl⟩⟩
  | ok dn =>
    obtain ⟨d, name⟩ := dn
    obtain ⟨p, hold, hp, -⟩ := hpar d name rfl
    obtain ⟨r', hr', hpar'⟩ := quiet_confinedParent (n := n) hs ht hpn
    cases r' with
    | error e => exact ⟨_, _, .bind hr (.bind hr' (Prog.runsTo_ret _)), .inl ⟨⟨e, rfl⟩, rfl⟩⟩
    | ok dn' =>
      obtain ⟨d', name'⟩ := dn'
      obtain ⟨p', hnew, hp', -⟩ := hpar' d' name' rfl
      have hexec : ∀ c : Choice, c.fault = none →
          Sys.exec kernel ex n (.linkat d name d' name') c h =
          some ((h.fs.linkat d name.1 d' name'.1).map fun _ => (),
            h.left (h.fs.linkat d name.1 d' name'.1)) := by
        intro c hc
        change withFault_ c.fault h _ = _
        rw [hc, withFault_none]
      cases hu : h.fs.linkat d name.1 d' name'.1 with
      | error e =>
        rw [hu] at hexec
        exact ⟨_, _, .bind hr (.bind hr' (.act hexec (Prog.runsTo_ret _))), .inl ⟨⟨_, rfl⟩, rfl⟩⟩
      | ok fs' =>
        rw [hu] at hexec
        have hname : ValidName name'.1 :=
          hvalid _ (by rw [hnew]; exact List.mem_append_right _ (List.mem_singleton_self _))
        obtain ⟨ht', hfree, i, hi, hview⟩ := ht.linked hp hp' hname hu
        rw [← hold] at hi
        rw [← hnew] at hfree hview
        exact ⟨_, _, .bind hr (.bind hr' (.act hexec (Prog.runsTo_ret _))),
          .inr ⟨rfl, ht', hfree, i, hi, hview⟩⟩

/-! ## The handlers -/

/-- The handler run by itself ends with the answer `r`. -/
def Answered (kernel : Kernel) (ex : Export) (n : Nat) (p : Calls Unit) (h : Host) (r : Response)
    (h' : Host) : Prop := Quiet kernel ex n p h () h' ∧ h'.replies.getLast? = some (n, r)

omit hs ht in
theorem answered_reply (h : Host) (r : Response) : Answered kernel ex n (reply r) h r
    { h with replies := h.replies ++ [(n, r)] } :=
  ⟨.act (fun _ _ => rfl) (Prog.runsTo_ret _), by simp⟩

omit hs ht in
theorem Answered.bind {α : Type} {p : Calls α} {f : α → Calls Unit} {x : α} {h₁ h' : Host}
    {r : Response} (hp : Quiet kernel ex n p h x h₁) (hf : Answered kernel ex n (f x) h₁ r h') :
    Answered kernel ex n (p.bind f) h r h' := ⟨.bind hp hf.1, hf.2⟩

omit hs ht in
theorem Answered.act {a : Sys} {k : a.Ret → Calls Unit} {x : a.Ret} {h₁ h' : Host} {r : Response}
    (he : ∀ c : Choice, c.fault = none → Sys.exec kernel ex n a c h = some (x, h₁))
    (hk : Answered kernel ex n (k x) h₁ r h') : Answered kernel ex n (.act a k) h r h' :=
  ⟨.act he hk.1, hk.2⟩

section
variable {op : Op} {seq : UInt64} {path : List Char} {k : RootPath → Calls Unit}

theorem answered_refused {e : String} (he : normalise path = .error e) :
    Answered kernel ex n (withResolved ex op seq path k) h { op, seq, status := .permission }
      { h with replies := h.replies ++ [(n, { op, seq, status := .permission })] } := by
  have hres := quiet_resolve (n := n) hs ht path fun cs h => by rw [he] at h; cases h
  rw [he] at hres
  exact .bind hres (answered_reply h _)

theorem answered_resolved {cs : RootPath} (he : normalise path = .ok cs) (hp : ex.Short cs.names)
    {r : Response} {h' : Host} (hk : Answered kernel ex n (k cs) h r h') :
    Answered kernel ex n (withResolved ex op seq path k) h r h' := by
  have hres := quiet_resolve (n := n) hs ht path fun cs' h => by
    rw [he] at h
    cases h
    exact hp
  rw [he] at hres
  exact .bind hres hk

end

def statusFrom : Except IoError Unit → Status
  | .ok () => .ok
  | .error e => e.status

omit hs ht in
theorem quiet_statusOf {p : Io Unit} {r : Except IoError Unit} {h' : Host}
    (hp : Quiet kernel ex n p h r h') : Quiet kernel ex n (statusOf p) h (statusFrom r) h' := by
  cases r with
  | ok u => exact .bind hp (Prog.runsTo_ret _)
  | error e => exact .bind hp (Prog.runsTo_ret _)

omit hs ht in
theorem statusFrom_error {r : Except IoError Unit} (h : ∃ e, r = .error e) :
    statusFrom r ≠ .ok := by
  obtain ⟨e, rfl⟩ := h
  exact Status.ofIo_ne_ok _

theorem exec_stat {path : RootPath} (hp : ex.Fits path) {c : Choice} (hc : c.fault = none) :
    Sys.exec kernel ex n (.stat path) c h =
      some (h.fs.statPlace (h.fs.locate ex.root path.names), h) := by
  change withFault c.fault h _ = _
  rw [hc, statAt_walkPath hs ht _ hp]
  cases h.fs.statPlace (h.fs.locate ex.root path.names) <;> rfl

omit hs ht in
theorem statPlace_of_view {i : Ino} {k : ObjSort} {p : List Name} {fs : Fs}
    (hv : fs.view ex.root p = some (i, k)) :
    ∃ node, node.kind.sort = k ∧ fs.statPlace (fs.locate ex.root p) = .ok (i, node) := by
  obtain ⟨hd, hk⟩ := Fs.view_eq_some.mp hv
  cases hn : fs.nodes i with
  | none => rw [Fs.sort_eq_none.mpr hn] at hk; cases hk
  | some node =>
    refine ⟨node, Option.some.inj ((Fs.sort_of_node hn).symm.trans hk), ?_⟩
    rw [Fs.locate_eq_obj_iff.mpr hd, Fs.statPlace, hn]

theorem quiet_statIf {path : RootPath} (hp : ex.Fits path) {i : Ino} {k : ObjSort}
    (hv : h.fs.view ex.root path.names = some (i, k)) : ∃ node, node.kind.sort = k ∧
      Quiet kernel ex n (statIf .ok (.stat path) id) h (some (i, node)) h := by
  obtain ⟨node, hk, hst⟩ := statPlace_of_view hv
  refine ⟨node, hk, .act (fun _ hc => exec_stat hs ht hp hc) ?_⟩
  rw [hst]
  exact Prog.runsTo_ret _

omit hs ht in
theorem quiet_statIf_ne {status : Status} (hne : status ≠ .ok) {a : Sys}
    {f : a.Ret → Except Errno (Ino × Node)} : Quiet kernel ex n (statIf status a f) h none h := by
  rw [statIf, if_neg hne]
  exact Prog.runsTo_ret _

/-- **MkDir**: a new directory, or nothing. -/
theorem answered_handleMkdir (sync : Bool) (seq : UInt64) {path : List Char}
    (hp : ex.Short (components path)) (mode : UInt32) :
    ∃ r h', Answered kernel ex n (handleMkdir ex sync seq path mode) h r h' ∧ h'.fs.Tree ex.root ∧
      (r.status ≠ .ok ∧ h'.fs = h.fs ∨
        r.status = .ok ∧ h.fs.view ex.root (components path) = none ∧
        ∃ i node, r.stat = some (i, node) ∧
          node.kind.sort = .dir ∧ h'.fs.view ex.root =
            update (h.fs.view ex.root) (components path) (some (i, .dir))) := by
  cases hn : normalise path with
  | error e => exact ⟨_, _, answered_refused hs ht hn, ht, .inl ⟨by simp, rfl⟩⟩
  | ok cs =>
    obtain ⟨hnames, hvalid⟩ := names_of_normalise hn
    rw [← hnames] at hp
    obtain ⟨r, h', hrun, ⟨hr, rfl⟩ | ⟨rfl, ht', hnone, i, hview⟩⟩ :=
      quiet_mkdirConfined (n := n) hs ht hp hvalid mode
    · exact ⟨_, _, answered_resolved hs ht hn hp
        (.bind (quiet_statusOf hrun) (.bind (quiet_syncIf hs ht _ _ hp)
        (.bind (quiet_statIf_ne (statusFrom_error hr)) (answered_reply ..)))), ht,
        .inl ⟨statusFrom_error hr, rfl⟩⟩
    · obtain ⟨node, hk, hstat⟩ := quiet_statIf (n := n) (i := i) (k := .dir) hs ht' hp.fits
        (by rw [hview, update_self])
      rw [hnames] at hnone hview
      exact ⟨_, _, answered_resolved hs ht hn hp
        (.bind (quiet_statusOf hrun) (.bind (quiet_syncIf hs ht' _ _ hp)
        (.bind hstat (answered_reply ..)))), ht', .inr ⟨rfl, hnone, i, node, rfl, hk, hview⟩⟩

/-- **RmDir and Unlink**: one path is gone and held nothing, or nothing happened. -/
theorem answered_handleRemove (sync : Bool) (op : Op) (isDir : Bool) (seq : UInt64)
    {path : List Char} (hp : ex.Short (components path)) :
    ∃ r h', Answered kernel ex n (handleRemove ex sync op isDir seq path) h r h' ∧
      h'.fs.Tree ex.root ∧
      (r.status ≠ .ok ∧ h'.fs = h.fs ∨
        r.status = .ok ∧ h'.fs.view ex.root =
          update (h.fs.view ex.root) (components path) none ∧
          ∀ c q, h.fs.view ex.root (components path ++ c :: q) = none) := by
  cases hn : normalise path with
  | error e => exact ⟨_, _, answered_refused hs ht hn, ht, .inl ⟨by simp, rfl⟩⟩
  | ok cs =>
    obtain ⟨hnames, -⟩ := names_of_normalise hn
    rw [← hnames] at hp
    obtain ⟨r, h', hrun, ⟨hr, rfl⟩ | ⟨rfl, ht', hview, hbelow⟩⟩ :=
      quiet_removeConfined (n := n) hs ht hp isDir
    · exact ⟨_, _, answered_resolved hs ht hn hp
        (.bind (quiet_statusOf hrun) (.bind (quiet_syncIf hs ht _ _ hp)
        (answered_reply ..))), ht, .inl ⟨statusFrom_error hr, rfl⟩⟩
    · rw [hnames] at hview hbelow
      exact ⟨_, _, answered_resolved hs ht hn hp
        (.bind (quiet_statusOf hrun) (.bind (quiet_syncIf hs ht' _ _ hp)
        (answered_reply ..))), ht', .inr ⟨rfl, hview, hbelow⟩⟩

/-- **Rename**: the subtree is moved, over nothing or over what held nothing; or both are the
same file; or nothing happened. -/
theorem answered_handleRename (sync : Bool) (seq : UInt64) {old new : List Char}
    (hp : ex.Short (components old)) (hp' : ex.Short (components new)) :
    ∃ r h', Answered kernel ex n (handleRename ex sync seq old new) h r h' ∧ h'.fs.Tree ex.root ∧
      (r.status ≠ .ok ∧ h'.fs = h.fs ∨
        r.status = .ok ∧ ∃ x, h.fs.view ex.root (components old) = some x ∧
          (h'.fs = h.fs ∧ h.fs.view ex.root (components new) = some x ∨
            h'.fs.view ex.root = Fs.moved (h.fs.view ex.root) (components old) (components new) ∧
            ∀ c q, h.fs.view ex.root (components new ++ c :: q) = none)) := by
  cases hn : normalise old with
  | error e => exact ⟨_, _, answered_refused hs ht hn, ht, .inl ⟨by simp, rfl⟩⟩
  | ok cs =>
    obtain ⟨hnames, -⟩ := names_of_normalise hn
    rw [← hnames] at hp
    cases hn' : normalise new with
    | error e =>
      exact ⟨_, _, answered_resolved hs ht hn hp (answered_refused hs ht hn'), ht,
        .inl ⟨by simp, rfl⟩⟩
    | ok cs' =>
      obtain ⟨hnames', hvalid⟩ := names_of_normalise hn'
      rw [← hnames'] at hp'
      obtain ⟨r, h', hrun, hcase⟩ := quiet_renameConfined (n := n) hs ht hp hp' hvalid
      have ht' : h'.fs.Tree ex.root := by
        rcases hcase with ⟨-, rfl⟩ | ⟨-, ht', -⟩
        · exact ht
        · exact ht'
      let a : Response := { op := .rename, seq, status := statusFrom r }
      refine ⟨a, { h' with replies := h'.replies ++ [(n, a)] }, answered_resolved hs ht hn hp
        (answered_resolved hs ht hn' hp'
          (.bind (quiet_statusOf hrun) (.bind (quiet_syncIf hs ht' _ _ hp) ?_))),
        ht', ?_⟩
      · dsimp only
        split
        · exact .bind (quiet_syncIf hs ht' _ _ hp') (answered_reply ..)
        · exact answered_reply ..
      rcases hcase with ⟨hr, rfl⟩ | ⟨rfl, -, x, hx, hcase⟩
      · exact .inl ⟨statusFrom_error hr, rfl⟩
      · rw [hnames] at hx hcase
        rw [hnames'] at hcase
        exact .inr ⟨rfl, x, hx, hcase⟩

/-- **Link**: a second path for a file, or nothing. -/
theorem answered_handleLink (sync : Bool) (seq : UInt64) {path link : List Char}
    (hp : ex.Short (components path)) (hp' : ex.Short (components link)) :
    ∃ r h', Answered kernel ex n (handleLink ex sync seq path link) h r h' ∧ h'.fs.Tree ex.root ∧
      (r.status ≠ .ok ∧ h'.fs = h.fs ∨
        r.status = .ok ∧ h.fs.view ex.root (components link) = none ∧
        ∃ i node, r.stat = some (i, node) ∧
          node.kind.sort = .file ∧ h.fs.view ex.root (components path) = some (i, .file) ∧
          h'.fs.view ex.root =
            update (h.fs.view ex.root) (components link) (some (i, .file))) := by
  cases hn : normalise path with
  | error e => exact ⟨_, _, answered_refused hs ht hn, ht, .inl ⟨by simp, rfl⟩⟩
  | ok cs =>
    obtain ⟨hnames, -⟩ := names_of_normalise hn
    rw [← hnames] at hp
    cases hn' : normalise link with
    | error e =>
      exact ⟨_, _, answered_resolved hs ht hn hp (answered_refused hs ht hn'), ht,
        .inl ⟨by simp, rfl⟩⟩
    | ok cs' =>
      obtain ⟨hnames', hvalid⟩ := names_of_normalise hn'
      rw [← hnames'] at hp'
      obtain ⟨r, h', hrun, ⟨hr, rfl⟩ | ⟨rfl, ht', hnone, i, hi, hview⟩⟩ :=
        quiet_linkConfined (n := n) hs ht hp hp' hvalid
      · exact ⟨_, _, answered_resolved hs ht hn hp
          (answered_resolved hs ht hn' hp' (.bind (quiet_statusOf hrun)
          (.bind (quiet_syncIf hs ht _ _ hp') (.bind (quiet_statIf_ne (statusFrom_error hr))
            (answered_reply ..))))), ht, .inl ⟨statusFrom_error hr, rfl⟩⟩
      · obtain ⟨node, hk, hstat⟩ := quiet_statIf (n := n) (i := i) (k := .file) hs ht' hp'.fits
          (by rw [hview, update_self])
        rw [hnames] at hi
        rw [hnames'] at hnone hview
        exact ⟨_, _, answered_resolved hs ht hn hp
          (answered_resolved hs ht hn' hp' (.bind (quiet_statusOf hrun)
          (.bind (quiet_syncIf hs ht' _ _ hp') (.bind hstat (answered_reply ..))))), ht',
          .inr ⟨rfl, hnone, i, node, rfl, hk, hi, hview⟩⟩

/-- What follows the `open` of a Create: the mode is set and the file retained, if there is room
for one more handle. -/
theorem answered_retain {p : List Name} {fd : Ino} (hv : h.fs.view ex.root p = some (fd, .file))
    (session : Nat) (seq : UInt64) {path : RootPath} (hp : ex.Short path.names) (flags : UInt32)
    (mode : Nat) (sync : Bool) :
    ∃ r h', Answered kernel ex n (.act (.fchmod fd mode) fun _ =>
        retain .create session seq path flags ⟨fd, .rdwr⟩ (syncIf sync .ok path)) h r h' ∧
      h'.fs.Tree ex.root ∧ h'.fs.view ex.root = h.fs.view ex.root ∧
      (r.status = .ok → ∃ node, r.stat = some (fd, node) ∧ node.kind.sort = .file) := by
  obtain ⟨hd, hsort⟩ := Fs.view_eq_some.mp hv
  obtain ⟨node, hnode⟩ := ht.node_of_descend hd
  obtain ⟨fs₁, hmod, hsame⟩ := Fs.same_modify hnode (f := ({ · with mode })) rfl
  have ht₁ : fs₁.Tree ex.root := hsame.tree ht
  have hchmod : ∀ c : Choice, c.fault = none → Sys.exec kernel ex n (.fchmod fd mode) c h =
      some (.ok (), { h with fs := fs₁ }) := by
    intro c hc
    change withFault_ c.fault h _ = _
    rw [hc, hmod]
    rfl
  have hsort₁ : fs₁.sort fd = some .file := by rw [hsame.sort, hsort]
  obtain ⟨node₁, hnode₁⟩ := ht₁.node_of_descend (p := p) (by rw [hsame.descend, hd])
  have hfile : node₁.kind.sort = .file :=
    Option.some.inj ((Fs.sort_of_node hnode₁).symm.trans hsort₁)
  have hstat : ∀ c : Choice, c.fault = none →
      Sys.exec kernel ex n (.fstat fd) c { h with fs := fs₁ } =
        some (.ok (fd, node₁), { h with fs := fs₁ }) := by
    intro c hc
    change withFault c.fault _ _ = _
    rw [hc]
    simp only [hnode₁]
    rfl
  cases hins : (h.tables session).tryInsert ⟨path, flags, ⟨fd, .rdwr⟩, fd⟩ with
  | none =>
    have hexec : ∀ c : Choice, c.fault = none → Sys.exec kernel ex n
        (.tryInsert session ⟨path, flags, ⟨fd, .rdwr⟩, fd⟩) c { h with fs := fs₁ } =
          some (none, { h with fs := fs₁ }) := fun c _ => by
      simp only [Sys.exec, hins]
      rfl
    exact ⟨_, _, .act hchmod (.act hstat (.act hexec (answered_reply ..))), ht₁, hsame.view _,
      fun h => by cases h⟩
  | some it =>
    obtain ⟨id, t⟩ := it
    have hexec : ∀ c : Choice, c.fault = none → Sys.exec kernel ex n
        (.tryInsert session ⟨path, flags, ⟨fd, .rdwr⟩, fd⟩) c { h with fs := fs₁ } = some (some id,
          { h with fs := fs₁, tables := update h.tables session t }) := fun c _ => by
      simp only [Sys.exec, hins]
      rfl
    let h₂ : Host := { h with fs := fs₁, tables := update h.tables session t }
    let a : Response :=
      { op := .create, seq, status := .ok, handle := id, stat := some (fd, node₁) }
    have hlast : Answered kernel ex n ((syncIf sync .ok path).bind fun _ => reply a) h₂ a
        { h₂ with replies := h₂.replies ++ [(n, a)] } :=
      .bind (quiet_syncIf hs ht₁ _ _ hp) (answered_reply _ _)
    exact ⟨_, _, .act hchmod (.act hstat (.act hexec hlast)), ht₁, hsame.view _,
      fun _ => ⟨node₁, rfl, hfile⟩⟩

/-- What the `open` of a Create does: the file is there or it is new. -/
theorem quiet_open_create {path : RootPath} (hp : ex.Short path.names)
    (hvalid : ∀ c ∈ path.names, ValidName c) (flags : UInt32)
    (mode : Nat) : ∃ r h', Quiet kernel ex n (openConfined path (createFlags flags) mode) h r h' ∧
      ((∃ e, r = .error e) ∧ h' = h ∨
        ∃ fd, r = .ok fd ∧ h'.fs.Tree ex.root ∧ h'.fs.view ex.root path.names = some (fd, .file) ∧
          (h'.fs.view ex.root = h.fs.view ex.root ∨ h.fs.view ex.root path.names = none ∧
            h'.fs.view ex.root = update (h.fs.view ex.root) path.names (some (fd, .file)))) := by
  have hrun := quiet_openConfined (n := n) hs ht hp (createFlags flags) mode
  have hcreat : (createFlags flags).creat = true := rfl
  cases hl : h.fs.locate ex.root path.names with
  | err e =>
    rw [hl] at hrun
    exact ⟨_, _, hrun, .inl ⟨⟨_, rfl⟩, rfl⟩⟩
  | free d name =>
    obtain ⟨q, hq, hqd, hdir, hfree⟩ := Fs.locate_eq_free hl
    have hnew : Fs.NewAt h.fs ex.root path.names d name :=
      ⟨⟨q, hq, hqd⟩, hdir, hfree,
        hvalid _ (by rw [hq]; exact List.mem_append_right _ (List.mem_singleton_self _))⟩
    obtain ⟨ht₁, hnone, hview⟩ := ht.created hnew (k := .file []) trivial (by simp [Kind.sort]) mode
    rw [hl] at hrun
    refine ⟨_, _, hrun, .inr ⟨h.fs.next, rfl, ht₁, ?_, .inr ⟨hnone, hview⟩⟩⟩
    change (h.fs.create d name (.file []) mode).view ex.root path.names = _
    rw [hview, update_self]
    rfl
  | obj i =>
    have hi := Fs.locate_eq_obj_iff.mp hl
    obtain ⟨node, hnode⟩ := ht.node_of_descend hi
    have hsort := Fs.sort_of_node hnode
    rw [hl] at hrun
    simp only [Fs.openPlace, Fs.openAt, hcreat, top, List.head?_nil, Option.map_none,
      Option.getD_none,
      Bool.true_and, hnode] at hrun
    split at hrun
    · exact ⟨_, _, hrun, .inl ⟨⟨_, rfl⟩, rfl⟩⟩
    · cases hk : node.kind with
      | symlink target =>
        rw [hk] at hsort
        exact absurd hsort (ht.plain hi)
      | dir es =>
        simp only [hk] at hrun
        exact ⟨_, _, hrun, .inl ⟨⟨_, rfl⟩, rfl⟩⟩
      | file data =>
        rw [hk] at hsort
        have hv : h.fs.view ex.root path.names = some (i, .file) := Fs.view_eq_some.mpr ⟨hi, hsort⟩
        simp only [hk] at hrun
        split at hrun
        · exact ⟨_, _, hrun, .inl ⟨⟨_, rfl⟩, rfl⟩⟩
        · split at hrun
          · have hsame : h.fs.Same (h.fs.set i (some { node with kind := .file [] })) :=
              Fs.same_set_file hnode hk rfl
            refine ⟨_, _, hrun, .inr ⟨i, rfl, hsame.tree ht, ?_, .inl (hsame.view _)⟩⟩
            exact (congrFun (hsame.view ex.root) path.names).trans hv
          · exact ⟨_, _, hrun, .inr ⟨i, rfl, ht, hv, .inl rfl⟩⟩

/-- **Create**: the file is there or it is new, also where no handle is left for it. -/
theorem answered_handleCreate (sync : Bool) (session : Nat) (seq : UInt64) {path : List Char}
    (hp : ex.Short (components path)) (flags mode : UInt32) :
    ∃ r h', Answered kernel ex n (handleCreate ex sync session seq path flags mode) h r h' ∧
      h'.fs.Tree ex.root ∧
      (h'.fs.view ex.root = h.fs.view ex.root ∨
        h.fs.view ex.root (components path) = none ∧ ∃ i, h'.fs.view ex.root =
          update (h.fs.view ex.root) (components path) (some (i, .file))) ∧
      (r.status = .ok → ∃ i node, r.stat = some (i, node) ∧ node.kind.sort = .file ∧
        h'.fs.view ex.root (components path) = some (i, .file)) := by
  cases hn : normalise path with
  | error e => exact ⟨_, _, answered_refused hs ht hn, ht, .inl rfl, fun h => by cases h⟩
  | ok cs =>
    obtain ⟨hnames, hvalid⟩ := names_of_normalise hn
    rw [← hnames] at hp
    obtain ⟨r, h₁, hrun, ⟨⟨e, rfl⟩, rfl⟩ | ⟨fd, rfl, ht₁, hv, hview⟩⟩ :=
      quiet_open_create (n := n) hs ht hp hvalid flags (permBits mode)
    · exact ⟨_, _, answered_resolved hs ht hn hp (.bind hrun (answered_reply ..)), ht, .inl rfl,
        fun h => absurd h (Status.ofIo_ne_ok _)⟩
    · obtain ⟨r, h', hans, ht', hview', hok⟩ := answered_retain (n := n) hs ht₁ hv session
        seq hp flags
        (permBits mode) sync
      rw [hnames] at hv hview
      refine ⟨r, h', answered_resolved hs ht hn hp (.bind hrun hans), ht', ?_, fun hst => ?_⟩
      · rw [hview']
        exact hview.imp id fun h => ⟨h.1, fd, h.2⟩
      · obtain ⟨node, hstat, hk⟩ := hok hst
        exact ⟨fd, node, hstat, hk, by rw [hview', hv]⟩

def Fs.NoFileAbove (fs : Fs) (root : Ino) (path : List Name) : Prop :=
  ∀ q c r, path = q ++ c :: r → ∀ i, fs.view root q ≠ some (i, .file)

/-- **GetAttr** says what is at the path. -/
theorem answered_handleGetattr (seq : UInt64) {path : List Char} (hp : ex.Short (components path)) :
    ∃ r h', Answered kernel ex n (handleGetattr ex seq path) h r h' ∧ h'.fs = h.fs ∧
      (r.status = .ok → ∃ i node, r.stat = some (i, node) ∧
        h.fs.view ex.root (components path) = some (i, node.kind.sort)) ∧
      (r.status = .notFound → h.fs.view ex.root (components path) = none) ∧
      ((∃ cs, normalise path = .ok cs) → h.fs.NoFileAbove ex.root (components path) →
        r.status = .ok ∨ r.status = .notFound) := by
  cases hn : normalise path with
  | error e =>
    refine ⟨_, _, answered_refused hs ht hn, rfl, fun h => (by cases h), fun h => (by cases h), ?_⟩
    rintro ⟨cs, h⟩
    cases h
  | ok cs =>
    obtain ⟨hnames, -⟩ := names_of_normalise hn
    rw [← hnames] at hp
    have hexec := fun c hc => @exec_stat kernel ex n h hs ht cs hp.fits c hc
    have hnone : (∀ i, h.fs.locate ex.root cs.names ≠ .obj i) →
        h.fs.view ex.root cs.names = none := by
      intro hobj
      refine ht.view_eq_none_iff.mpr (Option.eq_none_iff_forall_ne_some.mpr fun i hi => ?_)
      exact hobj i (Fs.locate_eq_obj_iff.mpr hi)
    cases hl : h.fs.locate ex.root cs.names with
    | obj i =>
      have hi := Fs.locate_eq_obj_iff.mp hl
      obtain ⟨node, hnode⟩ := ht.node_of_descend hi
      have hv : h.fs.view ex.root (components path) = some (i, node.kind.sort) := by
        rw [← hnames]
        exact Fs.view_eq_some.mpr ⟨hi, Fs.sort_of_node hnode⟩
      rw [hl, Fs.statPlace, hnode] at hexec
      exact ⟨_, _, answered_resolved hs ht hn hp (.act hexec (answered_reply ..)), rfl,
        fun _ => ⟨i, node, rfl, hv⟩, fun h => (by cases h), fun _ _ => .inl rfl⟩
    | free d name =>
      rw [hl] at hexec
      exact ⟨_, _, answered_resolved hs ht hn hp (.act hexec (answered_reply ..)), rfl,
        fun h => (by cases h), fun _ => hnames ▸ hnone (by simp [hl]), fun _ _ => .inr rfl⟩
    | err e =>
      rw [hl] at hexec
      refine ⟨_, _, answered_resolved hs ht hn hp (.act hexec (answered_reply ..)), rfl,
        fun h => absurd h (Status.ofIo_ne_ok _), fun _ => hnames ▸ hnone (by simp [hl]),
        fun _ habove => ?_⟩
      rcases Fs.locate_eq_err hl with rfl | ⟨-, q, c, r, j, hq, hj, hnd⟩
      · exact .inr rfl
      · have hfile := (ht.sort_descend hj).resolve_left hnd
        exact absurd (Fs.view_eq_some.mpr ⟨hj, hfile⟩) (habove q c r (hnames ▸ hq) j)

/-! ### ReadDir -/

omit hs ht in
theorem exec_nextEntry (dir : Ino) (pos : Nat) {c : Choice} (hc : c.fault = none) :
    Sys.exec kernel ex n (.nextEntry dir pos) c h =
      some ((((h.fs.entries dir).getD [])[pos]?).map Prod.fst, h) := by
  change some (if c.fault.isSome then none else _, h) = _
  rw [hc]
  rfl

/-- What the listing says of an entry of the directory. -/
def Fs.listed (fs : Fs) (dir : Ino) (e : Name × Ino) : DirEntry :=
  let st := ((fs.fstatat dir e.1).toOption.map fun st => (st.1, st.2.stMode)).getD (0, 0)
  ⟨e.1, st.1, st.2⟩

omit hs ht in
theorem quiet_collectEntries (dir : Ino) (room : Nat) : ∀ pos : Nat,
    Quiet kernel ex n (collectEntries dir room pos) h
      (((((h.fs.entries dir).getD []).drop pos).take room).map (h.fs.listed dir)) h := by
  induction room with
  | zero =>
    intro pos
    rw [List.take_zero]
    exact Prog.runsTo_ret _
  | succ room ih =>
    intro pos
    have hnext := fun c hc => @exec_nextEntry kernel ex n h dir pos c hc
    cases he : ((h.fs.entries dir).getD [])[pos]? with
    | none =>
      rw [he] at hnext
      rw [List.drop_eq_nil_of_le (List.getElem?_eq_none_iff.mp he), List.take_nil]
      exact .act hnext (Prog.runsTo_ret _)
    | some e =>
      rw [he] at hnext
      have hstat : ∀ c : Choice, c.fault = none → Sys.exec kernel ex n (.statEntry dir e.1) c h =
          some (h.fs.fstatat dir e.1, h) := by
        intro c hc
        change withFault c.fault h _ = _
        rw [hc]
        cases h.fs.fstatat dir e.1 <;> rfl
      obtain ⟨hlt, rfl⟩ := List.getElem?_eq_some_iff.mp he
      rw [List.drop_eq_getElem_cons hlt, List.take_succ_cons, List.map_cons]
      exact .act hnext (.act hstat (.bind (ih (pos + 1)) (Prog.runsTo_ret _)))

omit hs ht in
theorem quiet_dirEntries (dir : Ino) (skip : Nat) : ∀ pos : Nat,
    Quiet kernel ex n (dirEntries dir skip pos) h
      (((((h.fs.entries dir).getD []).drop (pos + skip)).take maxDirEntries).map (h.fs.listed dir))
      h := by
  induction skip with
  | zero => exact fun pos => quiet_collectEntries dir _ pos
  | succ skip ih =>
    intro pos
    have hnext := fun c hc => @exec_nextEntry kernel ex n h dir pos c hc
    cases he : ((h.fs.entries dir).getD [])[pos]? with
    | none =>
      rw [he] at hnext
      have hle := List.getElem?_eq_none_iff.mp he
      rw [List.drop_eq_nil_of_le (Nat.le_trans hle (Nat.le_add_right ..)), List.take_nil]
      exact .act hnext (Prog.runsTo_ret _)
    | some e =>
      rw [he] at hnext
      have hrun := ih (pos + 1)
      rw [Nat.add_right_comm, Nat.add_assoc] at hrun
      exact .act hnext hrun

theorem exec_readDir {path : RootPath} (hp : ex.Fits path) : ∃ r : Except Errno Ino,
    (∀ c : Choice, c.fault = none → Sys.exec kernel ex n (.readDir path) c h = some (r, h)) ∧
      ∀ d, r = .ok d → h.fs.descend ex.root path.names = some d := by
  cases hl : h.fs.statPlace (h.fs.locate ex.root path.names) with
  | error e =>
    refine ⟨.error e, fun c hc => ?_, fun d hd => by cases hd⟩
    simp only [Sys.exec, statAt_walkPath hs ht true hp, hl, hc]
    rfl
  | ok st =>
    obtain ⟨i, node⟩ := st
    have hexec : ∀ c : Choice, c.fault = none → Sys.exec kernel ex n (.readDir path) c h =
        withFault none h (if h.fs.isDir i then .ok (i, h.fs) else .error .enotdir) := fun c hc => by
      simp only [Sys.exec, statAt_walkPath hs ht true hp, hl, hc]
      rfl
    split at hexec
    · refine ⟨.ok i, hexec, fun d hd => ?_⟩
      cases hd
      cases hloc : h.fs.locate ex.root path.names with
      | obj j =>
        rw [hloc, Fs.statPlace] at hl
        split at hl
        · cases hl; exact Fs.locate_eq_obj_iff.mp hloc
        · cases hl
      | free d name => rw [hloc] at hl; cases hl
      | err e => rw [hloc] at hl; cases hl
    · exact ⟨.error .enotdir, hexec, fun d hd => by cases hd⟩

/-- **ReadDir** names entries that are there. -/
theorem answered_handleReaddir (seq : UInt64) {path : List Char} (hp : ex.Short (components path))
    (cursor : UInt64) :
    ∃ r h', Answered kernel ex n (handleReaddir ex seq path cursor) h r h' ∧ h'.fs = h.fs ∧
      (r.status = .ok → ∀ e ∈ r.entries, ValidName e.name ∧
        h.fs.view ex.root (components path ++ [e.name]) ≠ none) := by
  have hres := quiet_resolve (n := n) hs ht path fun cs h => by
    rwa [(names_of_normalise h).1]
  cases hn : normalise path with
  | error e =>
    rw [hn] at hres
    exact ⟨_, _, .bind hres (answered_reply ..), rfl, fun h => by cases h⟩
  | ok cs =>
    rw [hn] at hres
    obtain ⟨hnames, -⟩ := names_of_normalise hn
    obtain ⟨r, hexec, hdir⟩ := @exec_readDir kernel ex n h hs ht cs (hnames ▸ hp).fits
    cases r with
    | error e =>
      exact ⟨_, _, .bind hres (.act hexec (answered_reply ..)), rfl,
        fun h => absurd h (Status.ofIo_ne_ok _)⟩
    | ok d =>
      have hrun := @quiet_dirEntries kernel ex n h d cursor.toNat 0
      refine ⟨_, _, .bind hres (.act hexec (.bind hrun (answered_reply ..))), rfl, fun _ e he => ?_⟩
      obtain ⟨x, hx, rfl⟩ := List.mem_map.mp he
      have hj := Fs.holds_iff_getD.mpr (List.mem_of_mem_drop (List.mem_of_mem_take hx))
      have hd := hnames ▸ hdir d rfl
      obtain ⟨k, hk⟩ := Fs.lookup_of_holds hj
      refine ⟨ht.names hd hj, fun hnone => ?_⟩
      rw [ht.view_eq_none_iff, Fs.descend_snoc, hd, Option.bind_some] at hnone
      cases hk.symm.trans hnone

end

end QuicFs.Server
