import QuicFs.Client.KnownHosts

/-!
# Whether the mount is still there

`is_fuse_mount_gone` of `client/src/mount.rs`, by whose answer the client ends without a flush. It
looks for the path of the mount among the second words of `/proc/mounts`, where the kernel writes
blanks and backslashes as octal numbers (`mangle`).
-/

namespace QuicFs.Client

/-- `is_fuse_mount_gone`, of the text of `/proc/mounts`; `none` if it cannot be read as one. -/
def isFuseMountGone (table : Option Text) (mountpoint : Text) : Bool :=
  table.elim true fun table => !(lines table).any fun l =>
    decide ((splitWhitespace l)[1]? = some mountpoint)

def mangle (path : Text) : Text :=
  path.flatMap fun c =>
    if c = ' ' then ['\\', '0', '4', '0'] else if c = '\t' then ['\\', '0', '1', '1']
    else if c = '\n' then ['\\', '0', '1', '2'] else if c = '\\' then ['\\', '1', '3', '4'] else [c]

/-- A line of the table. -/
structure MountLine where
  device : Text
  dir : Text
  rest : Text

def MountLine.text (m : MountLine) : Text := m.device ++ ' ' :: (mangle m.dir ++ ' ' :: m.rest)

/-- The device and the path are words, and the line is one. -/
structure MountLine.Formed (m : MountLine) : Prop where
  device : Plain m.device
  dir : Plain (mangle m.dir)
  rest : '\n' ∉ m.rest ∧ ∃ c ∈ m.rest.getLast?, c ≠ '\r'

def mountTable (ms : List MountLine) : Text := ms.flatMap fun m => m.text ++ ['\n']

theorem second_word {m : MountLine} (h : m.Formed) :
    (splitWhitespace m.text)[1]? = some (mangle m.dir) := by
  unfold splitWhitespace MountLine.text
  rw [List.splitOnP_append_cons_of_forall_mem h.device.2 _ (by decide),
    List.splitOnP_append_cons_of_forall_mem h.dir.2 _ (by decide)]
  simp [h.device.1, h.dir.1]

theorem Plain.not_mem {w : Text} (h : Plain w) {c : Char} (hc : isWhiteSpace c = true) : c ∉ w := by
  intro hm
  cases hc.symm.trans (h.2 c hm)

theorem MountLine.Formed.line {m : MountLine} (h : m.Formed) :
    '\n' ∉ m.text ∧ stripCr m.text = m.text := by
  unfold MountLine.text
  refine ⟨?_, if_neg ?_⟩
  · simp [h.device.not_mem (c := '\n') (by decide), h.dir.not_mem (c := '\n') (by decide), h.rest.1]
  · obtain ⟨c, hc, hne⟩ := h.rest.2
    rw [show m.device ++ ' ' :: (mangle m.dir ++ ' ' :: m.rest) =
      (m.device ++ ' ' :: (mangle m.dir ++ [' '])) ++ m.rest
      by simp, List.getLast?_append, Option.mem_def.mp hc]
    exact fun e => hne (Option.some.inj e)

theorem mangle_cons (c : Char) (path : Text) : mangle (c :: path) = mangle [c] ++ mangle path := by
  simp [mangle]

theorem mangle_eq_self {path : Text} (h : '\\' ∉ mangle path) : mangle path = path := by
  induction path with
  | nil => rfl
  | cons c path ih =>
    rw [mangle_cons] at h ⊢
    obtain ⟨hc, hrest⟩ := not_or.mp (mt List.mem_append.mpr h)
    have hself : mangle [c] = [c] := by
      simp only [mangle, List.flatMap_cons, List.flatMap_nil, List.append_nil] at hc ⊢
      split_ifs at hc ⊢ <;> simp_all
    rw [hself, ih hrest]
    rfl

theorem mangle_of_plain {path : Text} (h : Plain path) (hb : '\\' ∉ path) : mangle path = path := by
  refine (List.flatMap_congr fun c hc => ?_).trans (List.flatMap_singleton' path)
  have hne : ∀ x, isWhiteSpace x = true → c ≠ x := fun x hx e => h.not_mem hx (e ▸ hc)
  rw [if_neg (hne ' ' (by decide)), if_neg (hne '\t' (by decide)), if_neg (hne '\n' (by decide)),
    if_neg fun e : c = '\\' => hb (e ▸ hc)]

/-- **A mount is seen exactly if there is no blank in its path.** Of the paths without a backslash,
`is_fuse_mount_gone` finds those that are in the table and have no blank: a mounted path with one is
taken for gone. -/
theorem mount_gone_iff (ms : List MountLine) (hms : ∀ m ∈ ms, m.Formed) {mountpoint : Text}
    (hb : '\\' ∉ mountpoint) :
    isFuseMountGone (some (mountTable ms)) mountpoint = false ↔
      (∃ m ∈ ms, m.dir = mountpoint) ∧ ∀ c ∈ mountpoint, isWhiteSpace c = false := by
  have hfound : isFuseMountGone (some (mountTable ms)) mountpoint = false ↔ ∃ m ∈ ms,
      mangle m.dir = mountpoint := by
    simp only [isFuseMountGone, Option.elim_some, mountTable, lines_flatMap _
      fun m hm => (hms m hm).line]
    simp only [Bool.not_eq_false', List.any_map, List.any_eq_true, Function.comp, decide_eq_true_eq]
    refine exists_congr fun m => and_congr_right fun hm => ?_
    rw [second_word (hms m hm), Option.some.injEq]
  rw [hfound]
  constructor
  · rintro ⟨m, hm, rfl⟩
    exact ⟨⟨m, hm, (mangle_eq_self hb).symm⟩, (hms m hm).dir.2⟩
  · rintro ⟨⟨m, hm, rfl⟩, hplain⟩
    refine ⟨m, hm, mangle_of_plain ⟨fun e => ?_, hplain⟩ hb⟩
    exact (hms m hm).dir.1 (by rw [e]; rfl)

def blankMount : MountLine := ⟨['q'], ['/', 'a', ' ', 'b'], ['f', 'u', 's', 'e']⟩

theorem mount_gone_of_blank :
    isFuseMountGone (some (mountTable [blankMount])) blankMount.dir = true := by
  have hformed : blankMount.Formed := ⟨by decide, by decide, by decide, 'e', rfl, by decide⟩
  rw [← Bool.not_eq_false, mount_gone_iff [blankMount] (by simpa using hformed) (by decide)]
  rintro ⟨-, h⟩
  cases h ' ' (by decide)

end QuicFs.Client
