import QuicFs.Lib.Utf8
import QuicFs.Client.Paths

/-!
# Names as the kernel gives them

A name from the kernel is any bytes but `/` and NUL. `child_path` of `client/src/fuse_ops.rs`
makes a path of a directory and a name, and every callback that names an entry (`lookup`,
`mkdir`, `unlink`, `rmdir`, `symlink`, `rename`, `link`, `create`) sends that path as text, where
bytes that are no UTF-8 are replaced. What is sent is `childPath` of the replaced name
(`childPathStr_eq`). Exactly the names in UTF-8 stay apart and name their own entry
(`names_apart_iff`).
-/

namespace QuicFs.Client

open Lib

def KernelName (name : Bytes) : Prop :=
  name ≠ [] ∧ (∀ b ∈ name, b ≠ 0x2F ∧ b ≠ 0) ∧ name ≠ [0x2E] ∧ name ≠ [0x2E, 0x2E]

instance (name : Bytes) : Decidable (KernelName name) := inferInstanceAs (Decidable (_ ∧ _))

/-- `Path::join`, on the bytes of a path. -/
def joinBytes (path name : Bytes) : Bytes :=
  if path = [] ∨ path.getLast? = some 0x2F then path ++ name else path ++ 0x2F :: name

/-- `child_path`: the bytes of the path. -/
def childPathBuf (parent : Path) (name : Bytes) : Bytes :=
  if pathComponents parent = pathComponents ['/'] then utf8 ('/' :: lossy name)
  else joinBytes (utf8 parent) name

/-- The path that is sent for a name in a directory. -/
def childPathStr (parent : Path) (name : Bytes) : Path := lossy (childPathBuf parent name)

theorem utf8_slash : utf8 ['/'] = [0x2F] := by decide

theorem getLast?_utf8 (p : Path) : (utf8 p).getLast? = some 0x2F ↔ p.getLast? = some '/' := by
  cases p using List.reverseRecOn with
  | nil => simp
  | append_singleton q c =>
    have hne : String.utf8EncodeChar c ≠ [] := by
      obtain ⟨b, cs, he, -⟩ := decodeFirst_encode c []
      simp [he]
    rw [utf8_append, utf8_cons, utf8_nil, List.append_nil, List.getLast?_append_of_ne_nil _ hne,
      getLast?_utf8EncodeChar c (by decide), List.getLast?_concat, Option.some.injEq]
    show c.toNat = '/'.toNat ↔ c = '/'
    exact Char.toNat_inj

/-- **What is sent is the path of the replaced name.** -/
theorem childPathStr_eq (parent : Path) (name : Bytes) :
    childPathStr parent name = childPath parent (lossy name) := by
  unfold childPathStr childPathBuf childPath
  split
  · exact lossy_utf8 _
  · have hslash : utf8 parent ++ 0x2F :: name = utf8 (parent ++ ['/']) ++ name := by
      rw [utf8_append, utf8_slash, List.append_assoc, List.singleton_append]
    have hnil : utf8 parent = [] ↔ parent = [] := by
      refine ⟨fun h => ?_, fun h => by rw [h]; rfl⟩
      have := lossy_utf8 parent
      rw [h] at this
      exact this.symm
    unfold joinBytes joinPath
    simp only [hnil, getLast?_utf8]
    split
    · exact lossy_utf8_append ..
    · rw [hslash, lossy_utf8_append, List.append_assoc, List.singleton_append]

theorem childPath_injective (parent : Path) : Function.Injective (childPath parent) := by
  intro n n' h
  unfold childPath joinPath at h
  split at h
  · exact (List.cons.inj h).2
  · split at h
    · exact List.append_cancel_left h
    · exact (List.cons.inj (List.append_cancel_left h)).2

theorem validName_lossy {name : Bytes} (h : KernelName name) : ValidName (lossy name) := by
  obtain ⟨hne, hslash, hdot, hdots⟩ := h
  -- `.` and `..` are only read from themselves
  have hself : ∀ s : Name, (∀ c ∈ s, c.toNat < 0x80) → lossy name = s → name = utf8 s := by
    rintro s hs rfl
    exact (utf8_lossy_of_ascii hs).symm
  refine ⟨fun e => hne (hself [] (by simp) e), fun e => hdot (hself ['.'] (by simp) e),
    fun e => hdots (hself ['.', '.'] (by simp) e), fun hmem => ?_⟩
  obtain ⟨b, hb, he⟩ := mem_of_mem_lossy (by decide) hmem
  exact (hslash b hb).1 (UInt8.toNat_inj.mp he)

/-- The path sent for the name leads to the entry whose bytes are the name. -/
def NamesEntry (parent : Path) (name : Bytes) : Prop :=
  ∃ c, components (childPathStr parent name) = components parent ++ [c] ∧ utf8 c = name

theorem namesEntry_iff {parent : Path} {name : Bytes} (h : KernelName name) :
    NamesEntry parent name ↔ IsUtf8 name := by
  unfold NamesEntry
  rw [childPathStr_eq, components_childPath parent (validName_lossy h), ← utf8_lossy_iff]
  constructor
  · rintro ⟨c, hc, he⟩
    obtain rfl : lossy name = c := by simpa using hc
    exact he
  · intro he
    exact ⟨_, rfl, he⟩

/-- **Names are kept apart, and name their own entry, exactly if they are UTF-8.** -/
theorem names_apart_iff (parent : Path) {n₁ n₂ : Bytes} (h₁ : KernelName n₁) (h₂ : KernelName n₂)
    (hne : n₁ ≠ n₂) :
    (childPathStr parent n₁ ≠ childPathStr parent n₂ ∧ NamesEntry parent n₁ ∧
      NamesEntry parent n₂) ↔
      IsUtf8 n₁ ∧ IsUtf8 n₂ := by
  rw [namesEntry_iff h₁, namesEntry_iff h₂, and_iff_right_iff_imp]
  rintro ⟨hu₁, hu₂⟩ he
  rw [childPathStr_eq, childPathStr_eq] at he
  have hl := childPath_injective parent he
  rw [← utf8_lossy_iff.mpr hu₁, ← utf8_lossy_iff.mpr hu₂, hl] at hne
  exact hne rfl

theorem names_apart_iff_accent :
    childPathStr ['/', 'd'] [0x61] ≠ childPathStr ['/', 'd'] [0xC3, 0xA9] ∧
      NamesEntry ['/', 'd'] [0x61] ∧ NamesEntry ['/', 'd'] [0xC3, 0xA9] :=
  (names_apart_iff ['/', 'd'] (by decide +kernel) (by decide +kernel) (by decide)).mpr
    ⟨⟨['a'], by decide +kernel⟩, ⟨['é'], by decide +kernel⟩⟩

/-- Two names that are not UTF-8 are sent as one path, which is the path of a third. -/
theorem names_conflated : KernelName [0xFF] ∧ KernelName [0xFE] ∧
    childPathStr ['/', 'd'] [0xFF] = childPathStr ['/', 'd'] [0xFE] ∧
    childPathStr ['/', 'd'] [0xFF] = childPathStr ['/', 'd'] [0xEF, 0xBF, 0xBD] ∧
    childPathStr ['/'] [0xFF] = childPathStr ['/'] [0xFE] := by decide +kernel

end QuicFs.Client
