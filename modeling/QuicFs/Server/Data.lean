import QuicFs.Common.Frames

/-!
# The server's Write handler

`write_at` and the frame loop of `handle_write` (`server/src/ops/data.rs`) on the bytes
of the open file. The operating system is a parameter: `OsWrite` says how many bytes a
`write_all` gets onto the disk before it fails, and with what error; no write goes past
`i64::MAX`.

`handleWrite` runs on the frames that arrive, which may be fewer than were sent.
Whatever happens it writes only where the RPC's data belongs (`handleWrite_within`),
and a reply of `Ok` means the data is there as one write (`handleWrite_ok`).
-/

namespace QuicFs.Server

open Lib

/-- The largest file offset, `i64::MAX`. -/
def offsetMax : Nat := 2 ^ 63 - 1

def u64Max : Nat := 2 ^ 64 - 1

/-- The operating system's part in one `write_all`. -/
structure OsWrite where
  /-- The bytes it takes before failing. -/
  room : Nat
  err : IoErrorKind
  deriving DecidableEq, Repr

/-- The bytes of the open file and the RPC's byte count. -/
structure WriteState where
  file : Bytes
  total : Nat
  deriving DecidableEq, Repr

/-- Write `data` at `offset`, or at the end of the file of an `O_APPEND` handle. -/
def writeAt (st : WriteState) (offset : UInt64) (data : Bytes) (append : Bool) (os : OsWrite) :
    Option IoErrorKind × WriteState :=
  if !append && decide (offsetMax < offset.toNat) then (some .invalidInput, st)
  else
    let pos := if append then st.file.length else offset.toNat
    let n := min os.room (offsetMax - pos)
    if data.length ≤ n then
      (none, ⟨pwrite st.file pos data, min (st.total + data.length) u64Max⟩)
    else (some os.err, { st with file := pwrite st.file pos (data.take n) })

/-- The frame loop on the frames that arrive: the reply's status and byte count, `none`
if the stream ends before the frame marked `done`. -/
def handleWrite (append : Bool) (st : WriteState) :
    List (WriteRequest × OsWrite) → Option (Status × Nat) × WriteState
  | [] => (none, st)
  | (w, os) :: rest =>
    match writeAt st w.offset w.data append os with
    | (some e, st) => (some (.ofIo e, st.total), st)
    | (none, st) => if w.done then (some (.ok, st.total), st) else handleWrite append st rest

section
variable {st st' : WriteState} {o : UInt64} {data : Bytes} {os : OsWrite} {r : Option IoErrorKind}

theorem writeAt_ok (h : writeAt st o data false os = (none, st')) :
    st'.file = pwrite st.file o.toNat data ∧
      (o + UInt64.ofNat data.length).toNat = o.toNat + data.length := by
  unfold writeAt at h
  simp only [Bool.not_false, Bool.true_and, decide_eq_true_eq, Bool.false_eq_true, if_false] at h
  split at h
  · cases h
  · rename_i hoff
    split at h
    · rename_i hfits
      simp only [offsetMax] at hoff hfits
      have hlen : data.length < 2 ^ 64 := by omega
      obtain rfl := (Prod.mk.inj h).2
      exact ⟨rfl, by rw [UInt64.toNat_add, UInt64.toNat_ofNat_of_lt' hlen]; omega⟩
    · cases h

/-- Successful or not, a write puts a prefix of its data in its place, all of it if successful. -/
theorem writeAt_placed {append : Bool} (h : writeAt st o data append os = (r, st')) :
    ∃ n, (r = none → n = data.length) ∧
      st'.file = pwrite st.file (if append then st.file.length else o.toNat) (data.take n) := by
  unfold writeAt at h
  generalize (if append then st.file.length else o.toNat) = pos at h ⊢
  simp only at h
  split at h
  · obtain ⟨rfl, rfl⟩ := Prod.mk.inj h
    exact ⟨0, nofun, rfl⟩
  · split at h
    · obtain ⟨-, rfl⟩ := Prod.mk.inj h
      exact ⟨data.length, fun _ => rfl, by rw [List.take_length]⟩
    · obtain ⟨rfl, rfl⟩ := Prod.mk.inj h
      exact ⟨_, nofun, rfl⟩

theorem writeAt_prefix (h : writeAt st o data false os = (r, st')) :
    ∃ n, st'.file = pwrite st.file o.toNat (data.take n) := by
  obtain ⟨n, -, hn⟩ := writeAt_placed h
  exact ⟨n, by simpa using hn⟩

theorem writeAt_congr (o : UInt64) (data : Bytes) (os : OsWrite) (h : st.total = st'.total) :
    (writeAt st o data false os).1 = (writeAt st' o data false os).1 ∧
      (writeAt st o data false os).2.total = (writeAt st' o data false os).2.total := by
  unfold writeAt
  simp only [Bool.not_false, Bool.true_and, decide_eq_true_eq, Bool.false_eq_true, if_false]
  split
  · exact ⟨rfl, h⟩
  · split
    · exact ⟨rfl, by rw [h]⟩
    · exact ⟨rfl, h⟩

end

theorem handleWrite_congr (l : List (WriteRequest × OsWrite)) : ∀ (st st' : WriteState),
    st.total = st'.total → (handleWrite false st l).1 = (handleWrite false st' l).1 := by
  induction l with
  | nil => intro _ _ _; rfl
  | cons a l ih =>
    intro st st' h
    obtain ⟨w, os⟩ := a
    obtain ⟨h1, h2⟩ := writeAt_congr w.offset w.data os h
    rw [handleWrite, handleWrite]
    rcases e : writeAt st w.offset w.data false os with ⟨r, s1⟩
    rcases e' : writeAt st' w.offset w.data false os with ⟨r', s2⟩
    rw [e, e'] at h1 h2
    simp only at h1 h2
    subst h1
    cases r with
    | some err => simp only [h2]
    | none =>
      simp only
      split
      · rw [h2]
      · exact ih _ _ h2

/-- **The handler writes only inside its RPC's range**, whichever frames arrive. -/
theorem handleWrite_within {ws : List WriteRequest} : ∀ {o : UInt64} (st : WriteState)
    (oss : List OsWrite), Chained o ws →
    ∃ es, (handleWrite false st (ws.zip oss)).2.file = applyAll st.file es ∧
      ∀ p, (lastHit es p).isSome → ((Extent.mk o.toNat (payload ws)).hit p).isSome := by
  induction ws with
  | nil => intro o st oss _; exact ⟨[], rfl, by simp⟩
  | cons w ws ih =>
    intro o st oss hc
    obtain ⟨rfl, -, hc⟩ := hc
    cases oss with
    | nil => exact ⟨[], rfl, by simp⟩
    | cons os oss =>
      rcases he : writeAt st w.offset w.data false os with ⟨r, st'⟩
      obtain ⟨n, hn⟩ := writeAt_prefix he
      have hfirst : ∀ p, (lastHit [Extent.mk w.offset.toNat (w.data.take n)] p).isSome →
          ((Extent.mk w.offset.toNat (payload (w :: ws))).hit p).isSome := by
        intro p hp
        simp only [lastHit_cons, lastHit_nil, Option.none_or] at hp
        have := Extent.hit_take (e := ⟨w.offset.toNat, w.data⟩) hp
        rw [payload_cons, Extent.hit_append, Option.isSome_or]
        simp [this]
      rw [List.zip_cons_cons, handleWrite, he]
      cases r with
      | some e => exact ⟨[⟨w.offset.toNat, w.data.take n⟩], hn, hfirst⟩
      | none =>
        simp only
        split
        · exact ⟨[⟨w.offset.toNat, w.data.take n⟩], hn, hfirst⟩
        · obtain ⟨hfile, hnext⟩ := writeAt_ok he
          obtain ⟨es, hes, hcov⟩ := ih st' oss hc
          refine ⟨⟨w.offset.toNat, w.data⟩ :: es, by rw [hes, hfile, applyAll_cons], ?_⟩
          intro p hp
          rw [lastHit_cons, Option.isSome_or, Bool.or_eq_true] at hp
          rw [payload_cons, Extent.hit_append, Option.isSome_or, Bool.or_eq_true, ← hnext]
          exact hp.imp_left (hcov p)

/-- **A reply of `Ok` means the whole data was written** at the RPC's offset. -/
theorem handleWrite_ok {ws : List WriteRequest} : ∀ {o : UInt64} {st : WriteState}
    {oss : List OsWrite} {total : Nat}, Chained o ws →
    (handleWrite false st (ws.zip oss)).1 = some (.ok, total) →
    (handleWrite false st (ws.zip oss)).2.file = pwrite st.file o.toNat (payload ws) := by
  induction ws with
  | nil => intro o st oss total _ h; cases h
  | cons w ws ih =>
    intro o st oss total hc h
    obtain ⟨rfl, hdone, hc⟩ := hc
    cases oss with
    | nil => cases h
    | cons os oss =>
      rcases he : writeAt st w.offset w.data false os with ⟨r, st'⟩
      rw [List.zip_cons_cons, handleWrite, he] at h ⊢
      cases r with
      | some e =>
        simp only [Option.some.injEq, Prod.mk.injEq] at h
        exact absurd h.1 (Status.ofIo_ne_ok _)
      | none =>
        obtain ⟨hfile, hnext⟩ := writeAt_ok he
        simp only at h ⊢
        split at h
        · rename_i hd
          rw [if_pos hd]
          rw [hd, eq_comm, List.isEmpty_iff] at hdone
          simpa [hdone] using hfile
        · rename_i hd
          rw [if_neg hd, ih hc h, hfile, hnext, pwrite_append, payload_cons]

theorem writeAt_append_ok {st st' : WriteState} {o : UInt64} {data : Bytes} {os : OsWrite}
    (h : writeAt st o data true os = (none, st')) : st'.file = st.file ++ data := by
  obtain ⟨n, hn, hfile⟩ := writeAt_placed h
  rw [hfile, hn rfl, List.take_length, if_pos rfl, pwrite_length]

/-- **A reply of `Ok` on an append handle means the whole data was appended.** -/
theorem handleWrite_append_ok {ws : List WriteRequest} : ∀ {o : UInt64} {st : WriteState}
    {oss : List OsWrite} {total : Nat}, Chained o ws →
    (handleWrite true st (ws.zip oss)).1 = some (.ok, total) →
    (handleWrite true st (ws.zip oss)).2.file = st.file ++ payload ws := by
  induction ws with
  | nil => intro o st oss total _ h; cases h
  | cons w ws ih =>
    intro o st oss total hc h
    obtain ⟨rfl, hdone, hc⟩ := hc
    cases oss with
    | nil => cases h
    | cons os oss =>
      rcases he : writeAt st w.offset w.data true os with ⟨r, st'⟩
      rw [List.zip_cons_cons, handleWrite, he] at h ⊢
      cases r with
      | some e =>
        simp only [Option.some.injEq, Prod.mk.injEq] at h
        exact absurd h.1 (Status.ofIo_ne_ok _)
      | none =>
        have hfile := writeAt_append_ok he
        simp only at h ⊢
        split at h
        · rename_i hd
          rw [if_pos hd]
          rw [hd, eq_comm, List.isEmpty_iff] at hdone
          simpa [hdone] using hfile
        · rename_i hd
          rw [if_neg hd, ih hc h, hfile, payload_cons, List.append_assoc]

/-- **With room for every frame an append succeeds.** -/
theorem handleWrite_append_fits {ws : List WriteRequest} : ∀ {o : UInt64} (st : WriteState),
    Chained o ws → ws ≠ [] → st.file.length + (payload ws).length ≤ offsetMax →
    ∃ total, (handleWrite true st (ws.map fun w => (w, ⟨w.data.length, .other⟩))).1 =
      some (.ok, total) := by
  induction ws with
  | nil => intro o st _ h; exact absurd rfl h
  | cons w ws ih =>
    intro o st hc _ hfit
    obtain ⟨rfl, hdone, hc⟩ := hc
    rw [payload_cons, List.length_append] at hfit
    have hw : writeAt st w.offset w.data true ⟨w.data.length, .other⟩ =
        (none, ⟨pwrite st.file st.file.length w.data, min (st.total + w.data.length) u64Max⟩) := by
      unfold writeAt
      simp only [Bool.not_true, Bool.false_and, Bool.false_eq_true, if_false, if_true]
      rw [if_pos (by omega)]
    rw [List.map_cons, handleWrite, hw]
    simp only
    split
    · exact ⟨_, rfl⟩
    · rename_i hd
      refine ih _ hc (fun hnil => hd (by rw [hdone, hnil]; rfl)) ?_
      simp only [pwrite_length, List.length_append]
      omega

theorem writeAt_fits {st : WriteState} {o : UInt64} {data : Bytes} {os : OsWrite}
    (hfit : o.toNat + data.length ≤ offsetMax) (hroom : data.length ≤ os.room) :
    writeAt st o data false os =
      (none, ⟨pwrite st.file o.toNat data, min (st.total + data.length) u64Max⟩) := by
  unfold writeAt
  have h1 : ¬offsetMax < o.toNat := by omega
  simp only [Bool.not_false, Bool.true_and, h1, decide_false, Bool.false_eq_true, if_false]
  rw [if_pos (by omega)]

theorem writeAt_short {st : WriteState} {o : UInt64} {data : Bytes} {os : OsWrite} {append : Bool}
    (hroom : os.room < data.length) : ∃ e st', writeAt st o data append os = (some e, st') := by
  unfold writeAt
  generalize (if append then st.file.length else o.toNat) = pos
  simp only
  split
  · exact ⟨_, _, rfl⟩
  · rw [if_neg (by omega)]
    exact ⟨_, _, rfl⟩

theorem toNat_next_offset {o : UInt64} {len : Nat} (h : o.toNat + len ≤ offsetMax) :
    (o + UInt64.ofNat len).toNat = o.toNat + len := by
  simp only [offsetMax] at h
  have hlt : len < 2 ^ 64 := by omega
  rw [UInt64.toNat_add, UInt64.toNat_ofNat_of_lt' hlt]
  omega

/-- **With room for every frame the answer is `Ok` and counts all the bytes.** -/
theorem handleWrite_fits {l : List (WriteRequest × OsWrite)} : ∀ {o : UInt64} {st : WriteState},
    Chained o (l.map Prod.fst) → l ≠ [] → o.toNat + (payload (l.map Prod.fst)).length ≤ offsetMax →
    (∀ x ∈ l, x.1.data.length ≤ x.2.room) → st.total + (payload (l.map Prod.fst)).length ≤ u64Max →
    (handleWrite false st l).1 = some (.ok, st.total + (payload (l.map Prod.fst)).length) := by
  induction l with
  | nil => intro o st _ h; exact absurd rfl h
  | cons x l ih =>
    intro o st hc _ hfit hroom htotal
    obtain ⟨w, os⟩ := x
    obtain ⟨rfl, hdone, hc⟩ := hc
    simp only [List.map_cons, payload_cons, List.length_append] at hfit htotal ⊢
    have hroom1 : w.data.length ≤ os.room := hroom (w, os) List.mem_cons_self
    have hfit1 : w.offset.toNat + w.data.length ≤ offsetMax := by omega
    have htotal1 : st.total + w.data.length ≤ u64Max := by omega
    rw [handleWrite, writeAt_fits hfit1 hroom1, min_eq_left htotal1]
    simp only
    cases hl : l with
    | nil => simp_all
    | cons y l' =>
      rw [← hl]
      have hd : w.done = false := by simpa [hl] using hdone
      rw [if_neg (by simp [hd]), ih hc (by simp [hl])
        (by rw [toNat_next_offset hfit1]; omega)
        (fun x hx => hroom x (List.mem_cons_of_mem _ hx)) (by simp only; omega)]
      simp only [Nat.add_assoc]

/-- **A frame the operating system does not take in full makes the answer an error**, if the
frames before it come to their end. -/
theorem handleWrite_short {l : List (WriteRequest × OsWrite)} : ∀ {st : WriteState} {append : Bool},
    (∀ x ∈ l.dropLast, x.1.done = false) → (∃ x ∈ l, x.2.room < x.1.data.length) →
    ∃ e total, (handleWrite append st l).1 = some (.ofIo e, total) := by
  induction l with
  | nil => rintro st append _ ⟨x, hx, -⟩; cases hx
  | cons x l ih =>
    rintro st append hdone ⟨y, hy, hshort⟩
    obtain ⟨w, os⟩ := x
    rw [handleWrite]
    rcases he : writeAt st w.offset w.data append os with ⟨r, st'⟩
    cases r with
    | some e => exact ⟨e, _, rfl⟩
    | none =>
      rcases List.mem_cons.mp hy with rfl | hy
      · obtain ⟨e, st'', he'⟩ : ∃ e st'', writeAt st w.offset w.data append os = (some e, st'') :=
          writeAt_short hshort
        rw [he'] at he
        cases he
      · have hne : l ≠ [] := List.ne_nil_of_mem hy
        have hd : w.done = false := hdone (w, os) (by simp [List.dropLast_cons_of_ne_nil hne])
        simp only [hd, Bool.false_eq_true, if_false]
        refine ih (fun x hx => hdone x ?_) ⟨y, hy, hshort⟩
        rw [List.dropLast_cons_of_ne_nil hne]
        exact List.mem_cons_of_mem _ hx

end QuicFs.Server
