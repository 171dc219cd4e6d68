import Mathlib

/-!
# UTF-8 with replacement

`lossy` decodes any bytes: where they are not UTF-8, each longest beginning of a character that
cannot be completed is replaced by U+FFFD. `decodeFirst` is one character, or how many bytes the
replacement stands for. On UTF-8 it is the inverse of the encoder (`lossy_utf8_append`), so bytes
that `lossy` keeps are exactly those that are UTF-8 (`utf8_lossy_iff`); a character below 0x80
always stands for its own byte (`mem_of_mem_lossy`).
-/

namespace QuicFs.Lib

def utf8 (s : List Char) : List UInt8 := s.flatMap String.utf8EncodeChar

@[simp] theorem utf8_nil : utf8 [] = [] := rfl

@[simp] theorem utf8_cons (c : Char) (s : List Char) :
    utf8 (c :: s) = String.utf8EncodeChar c ++ utf8 s :=
  List.flatMap_cons

theorem utf8_append (s t : List Char) : utf8 (s ++ t) = utf8 s ++ utf8 t := List.flatMap_append

theorem getLast?_utf8EncodeChar (c : Char) {b : UInt8} (hb : b.toNat < 0x80) :
    (String.utf8EncodeChar c).getLast? = some b ↔ c.toNat = b.toNat := by
  have hne : ∀ n : Nat, UInt8.ofNat (n % 64 + 128) ≠ b := by
    rintro n rfl
    simp at hb
    omega
  have hc : c.toNat = c.val.toNat := rfl
  unfold String.utf8EncodeChar
  rw [hc]
  generalize c.val.toNat = v
  simp only
  split
  · have hv : (UInt8.ofNat v).toNat = v := by simp; omega
    rw [List.getLast?_singleton, Option.some.injEq, ← UInt8.toNat_inj, hv]
  · have hlast : ¬v = b.toNat := by omega
    split_ifs <;>
      simp only [List.getLast?_cons_cons, List.getLast?_singleton, Option.some.injEq, hne, hlast]

def IsUtf8 (bs : List UInt8) : Prop := ∃ s, bs = utf8 s

def byteAt (bs : List UInt8) (i : Nat) : Nat := (bs[i]?.map UInt8.toNat).getD 0

def isTail (b : Nat) : Bool := Nat.ble 0x80 b && Nat.ble b 0xBF

/-- The second byte of a character of three or four, after the first. -/
def isSecond (b b₁ : Nat) : Bool :=
  if b = 0xE0 then Nat.ble 0xA0 b₁ && Nat.ble b₁ 0xBF
  else if b = 0xED then Nat.ble 0x80 b₁ && Nat.ble b₁ 0x9F
  else if b = 0xF0 then Nat.ble 0x90 b₁ && Nat.ble b₁ 0xBF
  else if b = 0xF4 then Nat.ble 0x80 b₁ && Nat.ble b₁ 0x8F
  else isTail b₁

/-- The first character with the number of its bytes; without a character, the number of bytes
that are no beginning of one that goes on like that. -/
def decodeFirst (b : UInt8) (bs : List UInt8) : Option Char × Nat :=
  let v := b.toNat
  let b₁ := byteAt bs 0
  let b₂ := byteAt bs 1
  let b₃ := byteAt bs 2
  if v < 0x80 then (some (Char.ofNat v), 1)
  else if v < 0xC2 then (none, 1)
  else if v < 0xE0 then
    if isTail b₁ then (some (Char.ofNat (v % 32 * 64 + b₁ % 64)), 2) else (none, 1)
  else if v < 0xF0 then
    if !isSecond v b₁ then (none, 1)
    else if !isTail b₂ then (none, 2)
    else (some (Char.ofNat (v % 16 * 4096 + b₁ % 64 * 64 + b₂ % 64)), 3)
  else if v < 0xF5 then
    if !isSecond v b₁ then (none, 1)
    else if !isTail b₂ then (none, 2)
    else if !isTail b₃ then (none, 3)
    else (some (Char.ofNat (v % 8 * 262144 + b₁ % 64 * 4096 + b₂ % 64 * 64 + b₃ % 64)), 4)
  else (none, 1)

def replacement : Char := Char.ofNat 0xFFFD

def lossyUpTo : Nat → List UInt8 → List Char
  | 0, _ => []
  | _ + 1, [] => []
  | fuel + 1, b :: bs =>
    let r := decodeFirst b bs
    r.1.getD replacement :: lossyUpTo fuel (bs.drop (r.2 - 1))

/-- Decode with replacements; every character takes a byte at least. -/
def lossy (bs : List UInt8) : List Char := lossyUpTo bs.length bs

theorem lossyUpTo_eq {fuel : Nat} :
    ∀ {bs : List UInt8}, bs.length ≤ fuel → lossyUpTo fuel bs = lossy bs := by
  induction fuel using Nat.strong_induction_on with
  | _ fuel ih =>
    intro bs h
    cases bs with
    | nil => cases fuel <;> rfl
    | cons b bs =>
      obtain ⟨k, rfl⟩ : ∃ k, fuel = k + 1 := ⟨fuel - 1, by simp only [List.length_cons] at h; omega⟩
      have hle : (bs.drop ((decodeFirst b bs).2 - 1)).length ≤ bs.length := by simp
      simp only [List.length_cons, Nat.add_le_add_iff_right] at h
      unfold lossy
      simp only [List.length_cons, lossyUpTo]
      rw [ih k (by omega) (by omega)]
      rcases Nat.lt_or_ge bs.length (k + 1) with hk | hk
      · rw [ih bs.length (by omega) hle]
      · omega

@[simp] theorem lossy_nil : lossy [] = [] := rfl

theorem lossy_cons (b : UInt8) (bs : List UInt8) : lossy (b :: bs) =
    (decodeFirst b bs).1.getD replacement :: lossy (bs.drop ((decodeFirst b bs).2 - 1)) := by
  conv_lhs => unfold lossy
  simp only [List.length_cons, lossyUpTo]
  rw [lossyUpTo_eq (by simp)]

theorem char_ofNat_toNat (c : Char) {n : Nat} (h : n = c.val.toNat) : Char.ofNat n = c := by
  subst h
  exact Char.ofNat_toNat c

theorem decodeFirst_encode (c : Char) (rest : List UInt8) : ∃ b cs,
    String.utf8EncodeChar c = b :: cs ∧ decodeFirst b (cs ++ rest) = (some c, cs.length + 1) := by
  have hvalid : c.val.toNat < 0xD800 ∨ 0xDFFF < c.val.toNat ∧ c.val.toNat < 0x110000 := c.valid
  unfold String.utf8EncodeChar
  generalize hv : c.val.toNat = v at hvalid
  have hc : ∀ n, n = v → Char.ofNat n = c := fun n hn => char_ofNat_toNat c (hn.trans hv.symm)
  simp only
  split
  · next h1 =>
    refine ⟨_, _, rfl, ?_⟩
    have e : (UInt8.ofNat v).toNat = v := by simp; omega
    unfold decodeFirst
    simp only [e]
    rw [if_pos (by omega), hc v rfl]
    rfl
  · next h1 =>
    split
    · next h2 =>
      refine ⟨_, _, rfl, ?_⟩
      have e : (UInt8.ofNat (v / 64 % 32 + 192)).toNat = v / 64 % 32 + 192 := by simp; omega
      have e₁ : (UInt8.ofNat (v % 64 + 128)).toNat = v % 64 + 128 := by simp; omega
      unfold decodeFirst
      simp only [e, byteAt, List.cons_append, List.getElem?_cons_zero, Option.map_some,
        Option.getD_some, e₁]
      rw [if_neg (by omega), if_neg (by omega), if_pos (by omega), if_pos (by simp [isTail]; omega),
        hc _ (by omega)]
      rfl
    · next h2 =>
      split
      · next h3 =>
        refine ⟨_, _, rfl, ?_⟩
        have e : (UInt8.ofNat (v / 4096 % 16 + 224)).toNat = v / 4096 % 16 + 224 := by simp; omega
        have e₁ : (UInt8.ofNat (v / 64 % 64 + 128)).toNat = v / 64 % 64 + 128 := by simp; omega
        have e₂ : (UInt8.ofNat (v % 64 + 128)).toNat = v % 64 + 128 := by simp; omega
        unfold decodeFirst
        simp only [e, byteAt, List.cons_append, List.getElem?_cons_zero, List.getElem?_cons_succ,
          Option.map_some, Option.getD_some, e₁, e₂]
        have hs : isSecond (v / 4096 % 16 + 224) (v / 64 % 64 + 128) = true := by
          unfold isSecond isTail
          split_ifs <;> simp <;> omega
        rw [if_neg (by omega), if_neg (by omega), if_neg (by omega), if_pos (by omega), hs,
          if_neg (by decide), if_neg (by simp [isTail]; omega), hc _ (by omega)]
        rfl
      · next h3 =>
        refine ⟨_, _, rfl, ?_⟩
        have e : (UInt8.ofNat (v / 262144 % 8 + 240)).toNat = v / 262144 % 8 + 240 := by simp; omega
        have e₁ : (UInt8.ofNat (v / 4096 % 64 + 128)).toNat = v / 4096 % 64 + 128 := by simp; omega
        have e₂ : (UInt8.ofNat (v / 64 % 64 + 128)).toNat = v / 64 % 64 + 128 := by simp; omega
        have e₃ : (UInt8.ofNat (v % 64 + 128)).toNat = v % 64 + 128 := by simp; omega
        unfold decodeFirst
        simp only [e, byteAt, List.cons_append, List.getElem?_cons_zero, List.getElem?_cons_succ,
          Option.map_some, Option.getD_some, e₁, e₂, e₃]
        have hs : isSecond (v / 262144 % 8 + 240) (v / 4096 % 64 + 128) = true := by
          unfold isSecond isTail
          split_ifs <;> simp <;> omega
        rw [if_neg (by omega), if_neg (by omega), if_neg (by omega), if_neg (by omega),
          if_pos (by omega),
          hs, if_neg (by decide), if_neg (by simp [isTail]; omega),
          if_neg (by simp [isTail]; omega),
          hc _ (by omega)]
        rfl

/-- **Decoding undoes encoding**, whatever follows. -/
theorem lossy_utf8_append (s : List Char) (rest : List UInt8) :
    lossy (utf8 s ++ rest) = s ++ lossy rest := by
  induction s with
  | nil => rfl
  | cons c s ih =>
    obtain ⟨b, cs, he, hd⟩ := decodeFirst_encode c (utf8 s ++ rest)
    rw [utf8_cons, he, List.append_assoc, List.cons_append, lossy_cons, hd, Nat.add_sub_cancel,
      List.drop_left, ih]
    rfl

theorem lossy_utf8 (s : List Char) : lossy (utf8 s) = s := by
  simpa using lossy_utf8_append s []

/-- **Exactly UTF-8 is kept.** -/
theorem utf8_lossy_iff {bs : List UInt8} : utf8 (lossy bs) = bs ↔ IsUtf8 bs := by
  constructor
  · intro h
    exact ⟨lossy bs, h.symm⟩
  · rintro ⟨s, rfl⟩
    rw [lossy_utf8]

theorem toNat_ofNat_of_valid {n : Nat} (h : n.isValidChar) : (Char.ofNat n).toNat = n := by
  unfold Char.ofNat
  rw [dif_pos h]
  rfl

theorem isTail_iff {b : Nat} : isTail b = true ↔ 0x80 ≤ b ∧ b ≤ 0xBF := by simp [isTail]

theorem bounds_of_isSecond {b b₁ : Nat} (h : isSecond b b₁ = true) : (0x80 ≤ b₁ ∧ b₁ ≤ 0xBF) ∧
    (b = 0xE0 → 0xA0 ≤ b₁) ∧ (b = 0xED → b₁ ≤ 0x9F) ∧ (b = 0xF0 → 0x90 ≤ b₁) ∧
    (b = 0xF4 → b₁ ≤ 0x8F) := by
  unfold isSecond isTail at h
  split_ifs at h <;> simp at h <;> omega

theorem decodeFirst_ascii {b : UInt8} {bs : List UInt8}
    (h : ((decodeFirst b bs).1.getD replacement).toNat < 0x80) :
    b.toNat = ((decodeFirst b bs).1.getD replacement).toNat ∧ (decodeFirst b bs).2 = 1 := by
  have hrep : ¬replacement.toNat < 0x80 := by decide
  -- the characters of several bytes are not below 0x80
  have hhigh : ∀ {n : Nat}, 0x80 ≤ n → n < 0xD800 ∨ 0xDFFF < n ∧ n < 0x110000 →
      ¬(Char.ofNat n).toNat < 0x80 := by
    intro n hn hvalid
    rw [toNat_ofNat_of_valid hvalid]
    omega
  unfold decodeFirst at h ⊢
  generalize b.toNat = v at h ⊢
  generalize byteAt bs 0 = b₁ at h ⊢
  generalize byteAt bs 1 = b₂ at h ⊢
  generalize byteAt bs 2 = b₃ at h ⊢
  simp only [Bool.not_eq_eq_eq_not, Bool.not_true] at h ⊢
  by_cases h1 : v < 0x80
  · simp only [h1, if_true, Option.getD_some]
    exact ⟨(toNat_ofNat_of_valid (.inl (by omega))).symm, trivial⟩
  exfalso
  simp only [h1, if_false] at h
  split_ifs at h with h2 h3 h4 h5 h6 h7 h8 h9 h10 h11
  all_goals try exact hrep h
  · have := isTail_iff.mp h4
    exact hhigh (by omega) (by omega) h
  · have := isTail_iff.mp (Bool.eq_true_of_not_eq_false h7)
    have := bounds_of_isSecond (Bool.eq_true_of_not_eq_false h6)
    exact hhigh (by omega) (by omega) h
  · have := isTail_iff.mp (Bool.eq_true_of_not_eq_false h11)
    have := isTail_iff.mp (Bool.eq_true_of_not_eq_false h10)
    have := bounds_of_isSecond (Bool.eq_true_of_not_eq_false h9)
    exact hhigh (by omega) (by omega) h

theorem mem_of_mem_lossy {bs : List UInt8} {c : Char} (hc : c.toNat < 0x80) (h : c ∈ lossy bs) :
    ∃ b ∈ bs, b.toNat = c.toNat := by
  induction hlen : bs.length using Nat.strong_induction_on generalizing bs with
  | _ n ih =>
    cases bs with
    | nil => cases h
    | cons b bs =>
      rw [lossy_cons] at h
      rcases List.mem_cons.mp h with rfl | h
      · exact ⟨b, List.mem_cons_self .., (decodeFirst_ascii hc).1⟩
      · simp only [List.length_cons] at hlen
        obtain ⟨x, hx, he⟩ := ih _ (by rw [List.length_drop]; omega) h rfl
        exact ⟨x, List.mem_cons_of_mem _ (List.mem_of_mem_drop hx), he⟩

theorem utf8_lossy_of_ascii {bs : List UInt8} (h : ∀ c ∈ lossy bs, c.toNat < 0x80) :
    utf8 (lossy bs) = bs := by
  induction hlen : bs.length using Nat.strong_induction_on generalizing bs with
  | _ n ih =>
    cases bs with
    | nil => rfl
    | cons b bs =>
      rw [lossy_cons] at h ⊢
      obtain ⟨hb, hone⟩ := decodeFirst_ascii (h _ (List.mem_cons_self ..))
      have hlow := h _ (List.mem_cons_self ..)
      rw [hone] at h ⊢
      simp only [List.length_cons] at hlen
      rw [utf8_cons, Nat.sub_self, List.drop_zero, ih bs.length (by omega)
        (fun c hc => h c (List.mem_cons_of_mem _ (by simpa using hc))) rfl]
      generalize ((decodeFirst b bs).1.getD replacement) = c at hb hlow
      have hval : c.val.toNat ≤ 127 := Nat.le_of_lt_succ hlow
      unfold String.utf8EncodeChar
      simp only [hval, if_true, List.singleton_append]
      congr 1
      exact UInt8.toNat_inj.mp (by rw [hb]; simp; omega)

end QuicFs.Lib
