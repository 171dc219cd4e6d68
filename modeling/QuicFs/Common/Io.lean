import QuicFs.Common.Frames

/-!
# Frames on a stream

`write_frame` and `read_frame` of `common/src/io.rs`: a payload is preceded by its length in
four bytes, most significant first. A writer is the bytes it has been given, a reader the
bytes that are still to come before the end of the stream. Reading undoes writing, frame by
frame (`readFrame_encoded`), and what is read is what was encoded (`encoded_of_readFrame`).
-/

namespace QuicFs

def maxFrameSize : Nat := 16 * 1024 * 1024

inductive FrameError where
  | tooLarge (bytes : Nat)
  /-- The stream ends within the length. -/
  | readLength
  /-- The stream ends within the payload. -/
  | readBody
  deriving DecidableEq, Repr

/-- `write_u32`. -/
def beBytes (n : UInt32) : Bytes :=
  [UInt8.ofNat (n.toNat / 2 ^ 24), UInt8.ofNat (n.toNat / 2 ^ 16), UInt8.ofNat (n.toNat / 2 ^ 8),
    UInt8.ofNat n.toNat]

/-- `read_u32`: the number and what follows. -/
def readU32 : Bytes → Option (UInt32 × Bytes)
  | b₀ :: b₁ :: b₂ :: b₃ :: rest =>
    some (UInt32.ofNat (b₀.toNat * 2 ^ 24 + b₁.toNat * 2 ^ 16 + b₂.toNat * 2 ^ 8 + b₃.toNat), rest)
  | _ => none

/-- The answer and the bytes the writer has then. -/
def writeFrame (writer : Bytes) (data : Bytes) : Except FrameError Unit × Bytes :=
  if data.length > maxFrameSize then (.error (.tooLarge data.length), writer)
  else (.ok (), writer ++ beBytes (UInt32.ofNat data.length) ++ data)

/-- The payload and what the reader has left. -/
def readFrame (reader : Bytes) : Except FrameError (Bytes × Bytes) :=
  match readU32 reader with
  | none => .error .readLength
  | some (len, rest) =>
    if len.toNat > maxFrameSize then .error (.tooLarge len.toNat)
    else if rest.length < len.toNat then .error .readBody
    else .ok (rest.take len.toNat, rest.drop len.toNat)

/-- One `write_frame` for each payload. -/
def writeFramesTo (writer : Bytes) (payloads : List Bytes) : Bytes :=
  payloads.foldl (fun w data => (writeFrame w data).2) writer

/-- `n` calls of `read_frame`, all of which have to succeed. -/
def readFrames : Nat → Bytes → Except FrameError (List Bytes × Bytes)
  | 0, reader => .ok ([], reader)
  | n + 1, reader =>
    match readFrame reader with
    | .error e => .error e
    | .ok (data, rest) =>
      match readFrames n rest with
      | .error e => .error e
      | .ok (datas, rest) => .ok (data :: datas, rest)

def encoded (data : Bytes) : Bytes := beBytes (UInt32.ofNat data.length) ++ data

theorem readU32_beBytes (n : UInt32) (rest : Bytes) :
    readU32 (beBytes n ++ rest) = some (n, rest) := by
  have hn : n.toNat < 2 ^ 32 := n.toNat_lt
  simp only [beBytes, List.cons_append, List.nil_append, readU32, UInt8.toNat_ofNat',
    Option.some.injEq,
    Prod.mk.injEq, and_true]
  apply UInt32.toNat_inj.mp
  rw [UInt32.toNat_ofNat']
  omega

theorem beBytes_of_readU32 {reader rest : Bytes} {n : UInt32}
    (h : readU32 reader = some (n, rest)) : reader = beBytes n ++ rest := by
  match reader, h with
  | b₀ :: b₁ :: b₂ :: b₃ :: rest, h =>
    cases h
    have h₀ := b₀.toNat_lt
    have h₁ := b₁.toNat_lt
    have h₂ := b₂.toNat_lt
    have h₃ := b₃.toNat_lt
    simp only [beBytes, UInt32.toNat_ofNat', List.cons_append, List.nil_append,
      List.cons.injEq, and_true]
    refine ⟨?_, ?_, ?_, ?_⟩ <;> apply UInt8.toNat_inj.mp <;> rw [UInt8.toNat_ofNat'] <;> omega

theorem readU32_eq_none {reader : Bytes} (h : reader.length < 4) : readU32 reader = none := by
  match reader, h with
  | [], _ | [_], _ | [_, _], _ | [_, _, _], _ => rfl

section
variable {data : Bytes} (h : data.length ≤ maxFrameSize)
include h

theorem toNat_ofNat_length : (UInt32.ofNat data.length).toNat = data.length := by
  rw [UInt32.toNat_ofNat']
  unfold maxFrameSize at h
  omega

theorem writeFrame_eq (writer : Bytes) :
    writeFrame writer data = (.ok (), writer ++ encoded data) := by
  rw [writeFrame, if_neg (Nat.not_lt.mpr h), encoded, List.append_assoc]

theorem readFrame_encoded (rest : Bytes) : readFrame (encoded data ++ rest) = .ok (data, rest) := by
  have hlen := toNat_ofNat_length h
  rw [readFrame, encoded, List.append_assoc, readU32_beBytes]
  simp only [hlen]
  rw [if_neg (Nat.not_lt.mpr h), if_neg (by simp), List.take_left, List.drop_left]

theorem readFrame_cut {part : Bytes} (hp : part <+: encoded data) (hne : part ≠ encoded data) :
    ∃ e, readFrame part = .error e := by
  have hlt : part.length < (encoded data).length := by
    refine Nat.lt_of_le_of_ne hp.length_le fun e => hne (hp.eq_of_length e)
  rcases Nat.lt_or_ge part.length 4 with h4 | h4
  · exact ⟨.readLength, by rw [readFrame, readU32_eq_none h4]⟩
  · obtain ⟨body, rfl⟩ : beBytes (UInt32.ofNat data.length) <+: part :=
      List.prefix_of_prefix_length_le ⟨data, rfl⟩ hp h4
    refine ⟨.readBody, ?_⟩
    rw [readFrame, readU32_beBytes]
    simp only [toNat_ofNat_length h]
    rw [if_neg (Nat.not_lt.mpr h), if_pos]
    simpa [encoded] using hlt

end

theorem encoded_of_readFrame {reader data rest : Bytes} (h : readFrame reader = .ok (data, rest)) :
    data.length ≤ maxFrameSize ∧ reader = encoded data ++ rest := by
  unfold readFrame at h
  split at h
  · cases h
  · next len body hr =>
    split at h
    · cases h
    · next hmax =>
      split at h
      · cases h
      · next hlen =>
        obtain ⟨rfl, rfl⟩ := Prod.mk.inj (Except.ok.inj h)
        have hl : (body.take len.toNat).length = len.toNat := by
          rw [List.length_take, Nat.min_eq_left (Nat.not_lt.mp hlen)]
        refine ⟨by rw [hl]; exact Nat.not_lt.mp hmax, ?_⟩
        rw [beBytes_of_readU32 hr, encoded, hl, UInt32.ofNat_toNat, List.append_assoc,
          List.take_append_drop]

section
variable {payloads : List Bytes} (h : ∀ data ∈ payloads, data.length ≤ maxFrameSize)
include h

theorem writeFramesTo_eq (writer : Bytes) :
    writeFramesTo writer payloads = writer ++ payloads.flatMap encoded := by
  induction payloads generalizing writer with
  | nil => simp [writeFramesTo]
  | cons data payloads ih =>
    rw [writeFramesTo, List.foldl_cons, writeFrame_eq (h data (List.mem_cons_self ..)) writer]
    have := ih (fun d hd => h d (List.mem_cons_of_mem _ hd)) (writer ++ encoded data)
    rw [writeFramesTo] at this
    rw [this, List.flatMap_cons, List.append_assoc]

theorem readFrames_encoded (rest : Bytes) :
    readFrames payloads.length (payloads.flatMap encoded ++ rest) = .ok (payloads, rest) := by
  induction payloads with
  | nil => rfl
  | cons data payloads ih =>
    rw [List.flatMap_cons, List.append_assoc, List.length_cons, readFrames,
      readFrame_encoded (h data (List.mem_cons_self ..))]
    simp only [ih fun d hd => h d (List.mem_cons_of_mem _ hd)]

/-- A stream that is cut off holds some of the frames and a part of the next one. -/
theorem cut_stream {part : Bytes} (hp : part <+: payloads.flatMap encoded)
    (hne : part ≠ payloads.flatMap encoded) :
    ∃ before data after tail, payloads = before ++ data :: after ∧
      part = before.flatMap encoded ++ tail ∧ tail <+: encoded data ∧ tail ≠ encoded data := by
  induction payloads generalizing part with
  | nil => exact absurd (List.prefix_nil.mp hp) hne
  | cons data payloads ih =>
    rw [List.flatMap_cons] at hp hne
    rcases Nat.lt_or_ge part.length (encoded data).length with hlt | hge
    · refine ⟨[], data, payloads, part, rfl, rfl, ?_, fun e => ?_⟩
      · exact List.prefix_of_prefix_length_le hp ⟨_, rfl⟩ (Nat.le_of_lt hlt)
      · exact Nat.ne_of_lt hlt (congrArg List.length e)
    · obtain ⟨tail, rfl⟩ := List.prefix_of_prefix_length_le ⟨_, rfl⟩ hp hge
      obtain ⟨before, d, after, t, rfl, rfl, ht, htne⟩ :=
        ih (fun d hd => h d (List.mem_cons_of_mem _ hd)) ((List.prefix_append_right_inj _).mp hp)
          fun e => hne (by rw [e])
      exact ⟨data :: before, d, after, t, rfl,
        by rw [List.flatMap_cons, List.append_assoc], ht, htne⟩

end

/-- **Framing round trip.** What `write_frame` emits for a list of payloads is read back frame by
frame, a stream cut off anywhere yields the frames it holds whole and then an error, a payload
that is too large is not written at all, and whatever `read_frame` accepts is the encoding of a
payload that is not too large. -/
theorem framing_round_trip :
    (∀ payloads : List Bytes, (∀ data ∈ payloads, data.length ≤ maxFrameSize) →
      readFrames payloads.length (writeFramesTo [] payloads) = .ok (payloads, []) ∧
      ∀ part, part <+: writeFramesTo [] payloads → part ≠ writeFramesTo [] payloads →
        ∃ k rest, k < payloads.length ∧ writeFramesTo [] (payloads.take k) <+: part ∧
          ¬writeFramesTo [] (payloads.take (k + 1)) <+: part ∧
          readFrames k part = .ok (payloads.take k, rest) ∧ ∃ e, readFrame rest = .error e) ∧
    (∀ writer data, data.length > maxFrameSize →
      writeFrame writer data = (.error (.tooLarge data.length), writer)) ∧
    ∀ reader, (∃ e, readFrame reader = .error e) ∨ ∃ data rest,
      readFrame reader = .ok (data, rest) ∧
      data.length ≤ maxFrameSize ∧ ∃ emitted, writeFrame [] data = (.ok (), emitted) ∧
        reader = emitted ++ rest := by
  refine ⟨fun payloads h => ⟨?_, fun part hp hne => ?_⟩,
    fun writer data h => by rw [writeFrame, if_pos h],
    fun reader => ?_⟩
  · rw [writeFramesTo_eq h]
    simpa using readFrames_encoded h []
  · rw [writeFramesTo_eq h, List.nil_append] at hp hne
    obtain ⟨before, data, after, tail, rfl, rfl, ht, htne⟩ := cut_stream h hp hne
    have hbefore : ∀ d ∈ before, d.length ≤ maxFrameSize := fun d hd => h d (by simp [hd])
    have hdata : data.length ≤ maxFrameSize := h data (by simp)
    refine ⟨before.length, tail, by simp, ?_, fun hpre => ?_, ?_, readFrame_cut hdata ht htne⟩
    · rw [List.take_left, writeFramesTo_eq hbefore, List.nil_append]
      exact List.prefix_append ..
    · have htake : (before ++ data :: after).take (before.length + 1) = before ++ [data] := by
        simp [List.take_append]
      rw [htake, writeFramesTo_eq (by simpa [or_imp, forall_and] using ⟨hbefore, hdata⟩),
        List.nil_append,
        List.flatMap_append, List.prefix_append_right_inj] at hpre
      have hwhole : encoded data <+: tail := by simpa using hpre
      exact htne (ht.eq_of_length (Nat.le_antisymm ht.length_le hwhole.length_le))
    · rw [List.take_left]
      exact readFrames_encoded hbefore tail
  · cases hr : readFrame reader with
    | error e => exact .inl ⟨e, rfl⟩
    | ok x =>
      obtain ⟨hmax, he⟩ := encoded_of_readFrame hr
      exact .inr ⟨x.1, x.2, rfl, hmax, encoded x.1, writeFrame_eq hmax [], he⟩

/-- Two payloads of different sizes. -/
theorem framing_round_trip_two :
    (∀ data ∈ [[1], [2, 3]], data.length ≤ maxFrameSize) ∧
    readFrames 2 (writeFramesTo [] [[1], [2, 3]]) = .ok ([[1], [2, 3]], []) :=
  ⟨by decide, (framing_round_trip.1 [[1], [2, 3]] (by decide)).1⟩

end QuicFs
