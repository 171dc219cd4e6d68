import QuicFs.Client.KnownHosts

/-!
# The mount spec

`parse_spec` of `client/src/main.rs` reads `[user@]host[:/remote/path]`, where an IPv6 host is
written in brackets. It splits the text at the first `@`, wherever that is, before it looks for
the host. A printed spec that names its user is read back as it was; one that does not is read
back exactly if there is no `@` in it at all (`parseSpec_print_iff`).
-/

namespace QuicFs.Client

/-- `str::split_once`. -/
def splitOnce (d : Char) : Text → Option (Text × Text)
  | [] => none
  | c :: s => if c = d then some ([], s) else (splitOnce d s).map fun (a, b) => (c :: a, b)

theorem splitOnce_append {d : Char} {a : Text} (h : d ∉ a) (b : Text) :
    splitOnce d (a ++ d :: b) = some (a, b) := by
  induction a with
  | nil => simp [splitOnce]
  | cons c a ih =>
    rw [List.mem_cons, not_or] at h
    rw [List.cons_append, splitOnce, if_neg (Ne.symm h.1), ih h.2, Option.map_some]

theorem splitOnce_of_not_mem {d : Char} {s : Text} (h : d ∉ s) : splitOnce d s = none := by
  induction s with
  | nil => rfl
  | cons c s ih =>
    rw [List.mem_cons, not_or] at h
    rw [splitOnce, if_neg (Ne.symm h.1), ih h.2, Option.map_none]

theorem eq_append_of_splitOnce {d : Char} {s : Text} : ∀ {a b : Text}, splitOnce d s = some (a, b) →
    s = a ++ d :: b := by
  induction s with
  | nil => exact fun h => by cases h
  | cons c s ih =>
    intro a b h
    rw [splitOnce] at h
    split at h
    · next hc =>
      obtain ⟨rfl, rfl⟩ := Prod.mk.inj (Option.some.inj h)
      rw [hc, List.nil_append]
    · obtain ⟨⟨a', b'⟩, hs, he⟩ := Option.map_eq_some_iff.mp h
      obtain ⟨rfl, rfl⟩ := Prod.mk.inj he
      rw [List.cons_append, ← ih hs]

theorem exists_append_of_mem {d : Char} {s : Text} (h : d ∈ s) :
    ∃ a b, s = a ++ d :: b ∧ d ∉ a := by
  obtain ⟨a, b, rfl, ha⟩ := List.eq_append_cons_of_mem h
  exact ⟨a, b, rfl, ha⟩

/-! ## The parser -/

inductive SpecError where
  /-- `unterminated '[' in host`. -/
  | unterminated
  /-- `no host in spec`. -/
  | noHost (spec : Text)
  deriving DecidableEq, Repr

/-- `current_user`; `env` reads a variable of the environment. -/
def currentUser (env : Text → Option Text) : Text :=
  ((env "USER".toList).or (env "USERNAME".toList)).getD "user".toList

/-- The user in front of the first `@`, and the rest. -/
def specUser (env : Text → Option Text) (spec : Text) : Text × Text :=
  (splitOnce '@' spec).getD (currentUser env, spec)

/-- The host and the path as they are written. -/
def specHost : Text → Except SpecError (Text × Text)
  | '[' :: stripped =>
    match splitOnce ']' stripped with
    | none => .error .unterminated
    | some (host, ':' :: path) => .ok (host, path)
    | some (host, after) => .ok (host, after)
  | rest => .ok ((splitOnce ':' rest).getD (rest, []))

def specPath (path : Text) : Text :=
  if path = [] then ['/'] else if path.head? = some '/' then path else '/' :: path

/-- `parse_spec`: the user, the host and the remote path. -/
def parseSpec (env : Text → Option Text) (spec : Text) : Except SpecError (Text × Text × Text) := do
  let (user, rest) := specUser env spec
  let (host, path) ← specHost rest
  if host = [] then throw (.noHost spec)
  return (user, host, specPath path)

theorem parseSpec_eq_ok {env : Text → Option Text} {spec user host path : Text} :
    parseSpec env spec = .ok (user, host, path) ↔
      (specUser env spec).1 = user ∧ host ≠ [] ∧
        ∃ p, specHost (specUser env spec).2 = .ok (host, p) ∧ specPath p = path := by
  unfold parseSpec
  cases hs : specHost (specUser env spec).2 with
  | error e => simp [hs, bind, Except.bind]
  | ok hp =>
    obtain ⟨h, p⟩ := hp
    by_cases hn : h = []
    · subst hn
      simp [hs, bind, Except.bind, throw, throwThe, MonadExceptOf.throw]
      exact fun _ hne he => absurd he hne
    · simp [hs, hn, bind, Except.bind, pure, Except.pure]
      grind

/-! ## The grammar -/

/-- A host as the grammar has it. -/
inductive SpecName where
  | name (host : Text)
  /-- An IPv6 literal, in brackets. -/
  | literal (addr : Text)
  deriving DecidableEq, Repr

namespace SpecName

def text : SpecName → Text
  | name host => host
  | literal addr => addr

def print : SpecName → Text
  | name host => host
  | literal addr => '[' :: (addr ++ [']'])

def Valid : SpecName → Prop
  | name host => host ≠ [] ∧ '@' ∉ host ∧ ':' ∉ host ∧ host.head? ≠ some '['
  | literal addr => addr ≠ [] ∧ ']' ∉ addr

theorem Valid.text_ne_nil {n : SpecName} (h : n.Valid) : n.text ≠ [] := by
  cases n with
  | name host => exact h.1
  | literal addr => exact h.1

end SpecName

/-- `[user@]host[:/remote/path]`. -/
structure MountSpec where
  user : Option Text
  host : SpecName
  path : Option Text
  user_plain : ∀ u ∈ user, '@' ∉ u
  host_valid : host.Valid
  path_rooted : ∀ p ∈ path, p.head? = some '/'

namespace MountSpec

def printHost (s : MountSpec) : Text := s.host.print ++ s.path.elim [] (':' :: ·)

def print (s : MountSpec) : Text := s.user.elim [] (· ++ ['@']) ++ s.printHost

variable (s : MountSpec)

theorem specHost_printHost : specHost s.printHost = .ok (s.host.text, s.path.getD []) := by
  have hv := s.host_valid
  unfold printHost
  cases hh : s.host with
  | name host =>
    rw [hh] at hv
    obtain ⟨hne, -, hcolon, hbr⟩ := hv
    obtain ⟨c, w, rfl⟩ := List.exists_cons_of_ne_nil hne
    have hc : c ≠ '[' := fun e => hbr (by rw [e]; rfl)
    have hrest : ∀ t, specHost (c :: t) = .ok ((splitOnce ':' (c :: t)).getD (c :: t, [])) := by
      intro t
      rw [specHost]
      exact fun _ e => hc (List.cons.inj e).1
    cases s.path with
    | none =>
      simp only [SpecName.print, Option.elim_none, List.append_nil, hrest,
        splitOnce_of_not_mem hcolon]
      rfl
    | some p =>
      have hsplit := splitOnce_append hcolon p
      rw [List.cons_append] at hsplit
      simp only [SpecName.print, Option.elim_some, List.cons_append, hrest, hsplit]
      rfl
  | literal addr =>
    rw [hh] at hv
    simp only [SpecName.print, List.cons_append, List.append_assoc, List.nil_append, specHost,
      splitOnce_append hv.2]
    cases s.path with
    | none => rfl
    | some p => rfl

theorem specPath_path : specPath (s.path.getD []) = s.path.getD ['/'] := by
  cases hp : s.path with
  | none => rfl
  | some p =>
    have hroot := s.path_rooted p hp
    have hne : p ≠ [] := fun e => by rw [e] at hroot; cases hroot
    rw [Option.getD_some, specPath, if_neg hne, if_pos hroot, Option.getD_some]

theorem specUser_print (env : Text → Option Text)
    (h : s.user.isSome ∨ '@' ∉ s.printHost) :
    specUser env s.print = (s.user.getD (currentUser env), s.printHost) := by
  unfold specUser print
  cases hu : s.user with
  | none =>
    have hno : '@' ∉ s.printHost := h.resolve_left (by simp [hu])
    simp [splitOnce_of_not_mem hno]
  | some u => simp [splitOnce_append (s.user_plain u hu)]

theorem at_mem_printHost :
    '@' ∈ s.printHost ↔ '@' ∈ s.host.text ∨ ∃ p ∈ s.path, '@' ∈ p := by
  unfold printHost
  cases s.host <;> cases s.path <;> simp [SpecName.print, SpecName.text]

end MountSpec

theorem specHost_bounds {rest host path : Text} (h : specHost rest = .ok (host, path)) :
    (host <+: rest ∨ '[' :: host <+: rest) ∧ path.length ≤ rest.length := by
  unfold specHost at h
  split at h
  · next stripped =>
    split at h
    · cases h
    · next host' path' hs =>
      obtain ⟨rfl, rfl⟩ := Prod.mk.inj (Except.ok.inj h)
      rw [eq_append_of_splitOnce hs]
      exact ⟨.inr ⟨_, rfl⟩, by simp; omega⟩
    · next host' after _ hs =>
      obtain ⟨rfl, rfl⟩ := Prod.mk.inj (Except.ok.inj h)
      rw [eq_append_of_splitOnce hs]
      exact ⟨.inr ⟨_, rfl⟩, by simp; omega⟩
  · have h := Except.ok.inj h
    cases hs : splitOnce ':' rest with
    | none =>
      rw [hs] at h
      obtain ⟨rfl, rfl⟩ := Prod.mk.inj h
      exact ⟨.inl List.prefix_rfl, Nat.zero_le _⟩
    | some hp =>
      rw [hs] at h
      obtain rfl : hp = (host, path) := h
      rw [eq_append_of_splitOnce hs]
      exact ⟨.inl (List.prefix_append ..), by simp; omega⟩

theorem length_specPath_le (path : Text) : (specPath path).length ≤ path.length + 1 := by
  unfold specPath
  split
  · simp
  · split <;> simp

theorem length_le_of_bracket {h a b : Text} (hb : ']' ∉ h) (hp : h <+: a ++ ']' :: b) :
    h.length ≤ a.length := by
  by_contra hlt
  refine hb ?_
  have hmem : (a ++ ']' :: b)[a.length]? = some ']' := by simp
  rw [List.prefix_iff_eq_take] at hp
  rw [hp]
  refine List.mem_of_getElem? (i := a.length) ?_
  rw [List.getElem?_take_of_lt (by omega), hmem]

namespace MountSpec

variable (s : MountSpec)

theorem host_ne_of_at {a rest host p : Text} (ha : s.printHost = a ++ '@' :: rest) (hno : '@' ∉ a)
    (hin : '@' ∈ s.host.text) (h : specHost rest = .ok (host, p)) : host ≠ s.host.text := by
  have hv := s.host_valid
  unfold printHost at ha
  cases hn : s.host with
  | name host' =>
    rw [hn] at hin hv
    exact absurd hin hv.2.1
  | literal addr =>
    rw [hn] at hin hv ha
    obtain ⟨b, c, rfl, hb⟩ := exists_append_of_mem hin
    have hrest : rest = c ++ ']' :: s.path.elim [] (':' :: ·) := by
      have hb' : '@' ∉ '[' :: b := by simp [hb]
      have hsplit := splitOnce_append hb' (c ++ ']' :: s.path.elim [] (':' :: ·))
      have hprint : '[' :: b ++ '@' :: (c ++ ']' :: s.path.elim [] (':' :: ·)) = a ++
          '@' :: rest := by
        simpa [SpecName.print] using ha
      rw [hprint, splitOnce_append hno] at hsplit
      exact (Prod.mk.inj (Option.some.inj hsplit)).2
    rintro rfl
    have hbracket : ']' ∉ b ++ '@' :: c := hv.2
    have hlen : (b ++ '@' :: c).length ≤ c.length := by
      rcases (specHost_bounds h).1 with hp | hp
      · exact length_le_of_bracket hbracket (hrest ▸ hp)
      · have hbracket' : ']' ∉ '[' :: (b ++ '@' :: c) := by simpa using hbracket
        exact (Nat.le_succ _).trans (length_le_of_bracket hbracket' (hrest ▸ hp))
    simp at hlen
    omega

/-- An `@` in the path: what is left of it is too short to be the path, even with a slash added. -/
theorem path_ne_of_at {a rest host p : Text} (ha : s.printHost = a ++ '@' :: rest) (hno : '@' ∉ a)
    (hin : '@' ∉ s.host.text) (h : specHost rest = .ok (host, p)) :
    specPath p ≠ s.path.getD ['/'] := by
  have hat : '@' ∈ s.printHost := by simp [ha]
  obtain ⟨q, hq, hqat⟩ := (s.at_mem_printHost.mp hat).resolve_left hin
  obtain ⟨b, c, rfl, hb⟩ := exists_append_of_mem hqat
  have hroot := s.path_rooted _ hq
  have hne : b ≠ [] := fun e => by simp [e] at hroot
  have hrest : rest = c := by
    have hb' : '@' ∉ s.host.print ++ ':' :: b := by
      cases hn : s.host <;> simp_all [SpecName.print, SpecName.text]
    have hsplit := splitOnce_append hb' c
    have hprint : s.host.print ++ ':' :: b ++ '@' :: c = a ++ '@' :: rest := by
      simpa [printHost, Option.mem_def.mp hq] using ha
    rw [hprint, splitOnce_append hno] at hsplit
    exact (Prod.mk.inj (Option.some.inj hsplit)).2
  intro he
  have hlen := (length_specPath_le p).trans (Nat.succ_le_succ (specHost_bounds h).2)
  have hpos := List.length_pos_of_ne_nil hne
  rw [he, Option.mem_def.mp hq, hrest, Option.getD_some, List.length_append, List.length_cons]
    at hlen
  omega

end MountSpec

/-- **A printed spec is read back** if and only if it names its user, or neither its host nor its
path has an `@` in it. -/
theorem parseSpec_print_iff (env : Text → Option Text) (s : MountSpec) :
    parseSpec env s.print = .ok (s.user.getD (currentUser env), s.host.text, s.path.getD ['/']) ↔
      s.user.isSome ∨ '@' ∉ s.host.text ∧ ∀ p ∈ s.path, '@' ∉ p := by
  have hat : '@' ∉ s.printHost ↔ '@' ∉ s.host.text ∧ ∀ p ∈ s.path, '@' ∉ p := by
    rw [s.at_mem_printHost]
    simp
  rw [parseSpec_eq_ok, ← hat]
  constructor
  · rintro ⟨-, -, p, hp, hpath⟩
    by_contra hc
    rw [not_or, not_not] at hc
    obtain ⟨a, rest, ha, hno⟩ := exists_append_of_mem hc.2
    have hrest : (specUser env s.print).2 = rest := by
      have hprint : s.print = a ++ '@' :: rest := by
        rw [MountSpec.print, Option.not_isSome_iff_eq_none.mp hc.1, Option.elim_none,
          List.nil_append, ha]
      rw [specUser, hprint, splitOnce_append hno, Option.getD_some]
    rw [hrest] at hp
    by_cases hin : '@' ∈ s.host.text
    · exact s.host_ne_of_at ha hno hin hp rfl
    · exact s.path_ne_of_at ha hno hin hp hpath
  · intro h
    rw [s.specUser_print env h]
    exact ⟨rfl, s.host_valid.text_ne_nil, _, s.specHost_printHost, s.specPath_path⟩

/-- `server:/a@b`. -/
def atInPath : MountSpec where
  user := none
  host := .name "server".toList
  path := some "/a@b".toList
  user_plain := nofun
  host_valid := ⟨by decide, by decide, by decide, by decide⟩
  path_rooted := by simp

/-- **Another host is connected to**: the path of the spec decides which. -/
theorem host_from_path :
    atInPath.print = "server:/a@b".toList ∧ atInPath.host.text = "server".toList ∧
    parseSpec (fun _ => none) atInPath.print =
      .ok ("server:/a".toList, "b".toList, "/".toList) := by
  decide +kernel

end QuicFs.Client
