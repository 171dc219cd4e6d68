import QuicFs.System.Replay

/-!
# Appends in the order of the offsets

A flush of an `O_APPEND` handle sends the same batch as any other: the chunks sorted by the
offsets the kernel gave, in runs. The server ignores the offsets and appends each run, so the
file grows by the chunks in the order of their offsets (`appendRuns_eq`), which is the order
they were written in exactly if the offsets never went down (`appends_in_order_iff`).
-/

namespace QuicFs.System

open Lib Client Server

/-- The send loop of `flush_one` on an append handle, with no other writer: the file after it,
`none` if a run is not acknowledged. -/
def appendRuns (chunkSize : UInt32) (handle : ServerHandle) (file : Bytes) :
    List (UInt64 × Bytes) → Delivery → Option Bytes
  | [], _ => some file
  | _ :: _, [] => none
  | (offset, data) :: runs, oss :: rest =>
    match handleWrite true ⟨file, 0⟩ ((writeFrames chunkSize handle offset data).zip oss) with
    | (some (.ok, _), st) => appendRuns chunkSize handle st.file runs rest
    | _ => none

variable {chunkSize : UInt32} {handle : ServerHandle}

theorem appendRuns_cons {file : Bytes} {offset : UInt64} {data : Bytes}
    {runs : List (UInt64 × Bytes)} {oss : List OsWrite} {rest : Delivery} {total : Nat}
    {st : WriteState}
    (he : handleWrite true ⟨file, 0⟩ ((writeFrames chunkSize handle offset data).zip oss) =
      (some (.ok, total), st)) :
    appendRuns chunkSize handle file ((offset, data) :: runs) (oss :: rest) =
      appendRuns chunkSize handle st.file runs rest := by
  rw [appendRuns, he]

/-- **A complete flush appends its runs.** -/
theorem appendRuns_eq {runs : List (UInt64 × Bytes)} : ∀ {file G : Bytes} {d : Delivery},
    appendRuns chunkSize handle file runs d = some G → G = file ++ runData runs := by
  induction runs with
  | nil =>
    intro file G d h
    cases d <;> simpa [appendRuns, runData, eq_comm] using h
  | cons r runs ih =>
    intro file G d h
    obtain ⟨offset, data⟩ := r
    cases d with
    | nil => cases h
    | cons oss rest =>
      rw [appendRuns] at h
      split at h
      · rename_i total st he
        have hfile := handleWrite_append_ok (writeFrames_chained chunkSize handle offset data)
          (congrArg Prod.fst he)
        rw [he, payload_writeFrames] at hfile
        rw [ih h, hfile, List.append_assoc]
        rfl
      · cases h

theorem zip_room (ws : List WriteRequest) :
    ws.zip (ws.map fun w => (⟨w.data.length, .other⟩ : OsWrite)) =
      ws.map fun w => (w, ⟨w.data.length, .other⟩) := by
  induction ws with
  | nil => rfl
  | cons w ws ih => simpa using ih

def roomy (chunkSize : UInt32) (handle : ServerHandle) (runs : List (UInt64 × Bytes)) : Delivery :=
  runs.map fun r => (writeFrames chunkSize handle r.1 r.2).map fun w => ⟨w.data.length, .other⟩

theorem appendRuns_roomy {runs : List (UInt64 × Bytes)} : ∀ {file : Bytes}, (∀ r ∈ runs, r.2 ≠ []) →
    file.length + (runData runs).length ≤ offsetMax →
    ∃ G, appendRuns chunkSize handle file runs (roomy chunkSize handle runs) = some G := by
  induction runs with
  | nil => intro file _ _; exact ⟨file, rfl⟩
  | cons r runs ih =>
    intro file hne hfit
    obtain ⟨offset, data⟩ := r
    have hchained := writeFrames_chained chunkSize handle offset data
    have hpayload := payload_writeFrames chunkSize handle offset data
    have hframes : writeFrames chunkSize handle offset data ≠ [] := by
      intro hnil
      rw [hnil] at hpayload
      exact hne _ (List.mem_cons_self ..) hpayload.symm
    have hlen : (runData ((offset, data) :: runs)).length =
        data.length + (runData runs).length := by
      simp [runData]
    have hfits : file.length + (payload (writeFrames chunkSize handle offset data)).length ≤
        offsetMax := by
      rw [hpayload]
      omega
    obtain ⟨total, hok⟩ := handleWrite_append_fits ⟨file, 0⟩ hchained hframes hfits
    rw [← zip_room] at hok
    have hfile := handleWrite_append_ok hchained hok
    rw [hpayload] at hfile
    unfold roomy at ih ⊢
    rw [List.map_cons, appendRuns_cons (Prod.ext hok rfl)]
    refine ih (fun r hr => hne r (List.mem_cons_of_mem _ hr)) ?_
    rw [hfile, List.length_append]
    simp only
    omega

theorem runData_pairsOf (ws : List PendingWrite) :
    runData (pairsOf ws) = ws.flatMap PendingWrite.data := by
  simp [runData, pairsOf, List.flatMap_map]

theorem runData_batchOf (ws : List PendingWrite) :
    runData (WriteBuffer.batchOf ws).chunks = runData (sortByOffset (pairsOf ws)) :=
  runData_coalesce _

/-- Writes accepted at these offsets, whatever their bytes, are appended in the order they were
made: every flush of them that succeeds leaves the file followed by the data of each in turn. -/
def AppendsInOrder (offsets : List UInt64) : Prop :=
  ∀ (wb wb' : WriteBuffer) (h : Fh) (cs : List Push) (b : FlushBatch),
    cs.map Push.offset = offsets →
    wb.queue h = [] → wb.pushAll h cs = some wb' → (wb'.beginFlush h).1 = some b →
    ∀ (chunkSize : UInt32) (handle : ServerHandle) (F G : Bytes) (d : Delivery),
      appendRuns chunkSize handle F b.chunks d = some G → G = F ++ cs.flatMap Push.data

theorem appendsInOrder_of_sorted {offsets : List UInt64} (hs : offsets.Pairwise (· ≤ ·)) :
    AppendsInOrder offsets := by
  intro wb wb' h cs b hoff h0 hp hb chunkSize handle F G d hG
  obtain ⟨hq, -, -⟩ := queue_pushAll hp
  rw [h0, List.nil_append] at hq
  obtain ⟨-, -, rfl⟩ := WriteBuffer.beginFlush_eq_some.mp hb
  have hsort : sortByOffset (pairsOf (cs.map Push.chunk)) = pairsOf (cs.map Push.chunk) := by
    refine List.Pairwise.insertionSort_eq ?_
    rw [← hoff, List.pairwise_map] at hs
    simp only [pairsOf, List.pairwise_map]
    exact hs
  rw [appendRuns_eq hG, hq, runData_batchOf, hsort, runData_pairsOf, List.flatMap_map]
  rfl

/-! ## Offsets that go down -/

/-- The byte 0 up to the offset `t`, the byte 1 above it. -/
def sideOf (t o : UInt64) : UInt8 := if o ≤ t then 0 else 1

theorem sideOf_le {t a b : UInt64} (h : a ≤ b) : sideOf t a ≤ sideOf t b := by
  unfold sideOf
  split
  · exact UInt8.zero_le
  · next ha =>
    rw [if_neg fun hb => ha (UInt64.le_trans h hb)]
    exact UInt8.le_rfl

def sides (t : UInt64) (offsets : List UInt64) : List Push :=
  offsets.map fun o => ⟨o, [sideOf t o], 0, []⟩

theorem byteCount_sides (t : UInt64) (offsets : List UInt64) :
    byteCount ((sides t offsets).map Push.chunk) = offsets.length := by
  simp [byteCount, sides, Push.chunk, Function.comp_def]

theorem flatMap_sides (t : UInt64) (offsets : List UInt64) :
    (sides t offsets).flatMap Push.data = offsets.map (sideOf t) := by
  rw [sides, List.flatMap_map, List.map_eq_flatMap]

theorem runData_sides_sorted (t : UInt64) (offsets : List UInt64) :
    (runData (sortByOffset (pairsOf ((sides t offsets).map Push.chunk)))).Pairwise (· ≤ ·) := by
  have hbyte : ∀ c ∈ sortByOffset (pairsOf ((sides t offsets).map Push.chunk)),
      c.2 = [sideOf t c.1] := by
    intro c hc
    have hmem := (List.perm_insertionSort _ _).mem_iff.mp hc
    simp only [pairsOf, sides, Push.chunk, List.map_map, List.mem_map, Function.comp_apply] at hmem
    obtain ⟨o, -, rfl⟩ := hmem
    rfl
  have hdata : runData (sortByOffset (pairsOf ((sides t offsets).map Push.chunk))) =
      (sortByOffset (pairsOf ((sides t offsets).map Push.chunk))).map fun c => sideOf t c.1 := by
    rw [runData, List.flatMap_congr hbyte]
    exact List.map_eq_flatMap.symm
  rw [hdata, List.pairwise_map]
  exact (sortByOffset_sorted _).imp sideOf_le

/-- Writes of one byte, no more of them than a `Vec` holds, can be flushed with success. -/
theorem sides_flushed {t : UInt64} {offsets : List UInt64} (hne : offsets ≠ [])
    (hlen : offsets.length ≤ offsetMax) :
    ∃ (wb wb' : WriteBuffer) (b : FlushBatch) (d : Delivery) (G : Bytes), wb.queue 1 = [] ∧
      wb.pushAll 1 (sides t offsets) = some wb' ∧ (wb'.beginFlush 1).1 = some b ∧
      appendRuns 1 0 [] b.chunks d = some G := by
  have hbytes := byteCount_sides t offsets
  have hroom : (WriteBuffer.new 0 offsetMax 0).totalBytes + byteCount
      ((sides t offsets).map Push.chunk) ≤
      (WriteBuffer.new 0 offsetMax 0).hardTotalBytes := by
    rw [hbytes]
    simp only [WriteBuffer.new, usizeMax, offsetMax] at hlen ⊢
    omega
  obtain ⟨wb', hp⟩ := exists_pushAll (h := 1) hroom
  obtain ⟨hq, -, -⟩ := queue_pushAll hp
  rw [WriteBuffer.queue_new, List.nil_append] at hq
  have hb : (wb'.beginFlush 1).1 = some (WriteBuffer.batchOf (wb'.queue 1)) := by
    refine WriteBuffer.beginFlush_eq_some.mpr ⟨guarded_pushAll hp, ?_, rfl⟩
    rw [hq]
    simpa [sides] using hne
  have hruns : ∀ r ∈ (WriteBuffer.batchOf (wb'.queue 1)).chunks, r.2 ≠ [] := by
    refine coalesce_ne_nil fun c hc => ?_
    have hmem := (List.perm_insertionSort _ _).mem_iff.mp hc
    rw [hq] at hmem
    simp only [pairsOf, sides, Push.chunk, List.map_map, List.mem_map, Function.comp_apply] at hmem
    obtain ⟨o, -, rfl⟩ := hmem
    exact List.cons_ne_nil _ _
  have hfit : (runData (WriteBuffer.batchOf (wb'.queue 1)).chunks).length = offsets.length := by
    rw [runData_batchOf, ← hbytes, ← hq, ← runBytes_pairsOf, ← runBytes_sortByOffset]
    simp [runData, runBytes, List.length_flatMap]
  have hlast : ([] : Bytes).length + (runData (WriteBuffer.batchOf (wb'.queue 1)).chunks).length ≤
      offsetMax := by
    rw [hfit]
    simpa using hlen
  obtain ⟨G, hG⟩ := appendRuns_roomy hruns hlast
  exact ⟨_, wb', _, _, G, rfl, hp, hb, hG⟩

theorem sides_sorted {t : UInt64} {offsets : List UInt64} (hlen : offsets.length ≤ offsetMax)
    (h : AppendsInOrder offsets) : (offsets.map (sideOf t)).Pairwise (· ≤ ·) := by
  by_cases hne : offsets = []
  · subst hne
    exact .nil
  obtain ⟨wb, wb', b, d, G, h0, hp, hb, hG⟩ := sides_flushed (t := t) hne hlen
  have hoff : (sides t offsets).map Push.offset = offsets := by
    rw [sides, List.map_map]
    exact List.map_id offsets
  have horder := h wb wb' 1 _ b hoff h0 hp hb 1 0 [] G d hG
  obtain ⟨hq, -, -⟩ := queue_pushAll hp
  rw [h0, List.nil_append] at hq
  obtain ⟨-, -, rfl⟩ := WriteBuffer.beginFlush_eq_some.mp hb
  rw [appendRuns_eq hG, List.nil_append, List.nil_append, flatMap_sides, runData_batchOf, hq]
    at horder
  rw [← horder]
  exact runData_sides_sorted t offsets

/-- **Appends keep their order exactly if the offsets never go down.** The queue is a `Vec`, so
it has no more chunks than the largest `isize`. -/
theorem appends_in_order_iff {offsets : List UInt64} (hlen : offsets.length ≤ offsetMax) :
    AppendsInOrder offsets ↔ offsets.Pairwise (· ≤ ·) := by
  refine ⟨fun h => ?_, appendsInOrder_of_sorted⟩
  refine List.pairwise_iff_forall_sublist.mpr fun {a b} hab => ?_
  have hside := List.pairwise_iff_forall_sublist.mp (sides_sorted (t := b) hlen h)
    (hab.map (sideOf b))
  by_contra hlt
  rw [sideOf, sideOf, if_neg hlt, if_pos UInt64.le_rfl] at hside
  exact absurd hside (by decide)

/-- Three writes, the last one back at the offset of the second. -/
theorem appends_in_order_iff_repeated :
    AppendsInOrder [0, 6, 6] ∧ [(0 : UInt64), 6, 6].Pairwise (· ≤ ·) :=
  have hs : [(0 : UInt64), 6, 6].Pairwise (· ≤ ·) := by decide
  ⟨(appends_in_order_iff (by decide)).mpr hs, hs⟩

/-- The file was truncated meanwhile: the kernel gives the second write the offset 0, and the
server appends it before the first. -/
theorem append_overtaken :
    ∃ wb' b, (WriteBuffer.new 10000 100000 60000).pushAll 1
        [⟨6, [65], 0, []⟩, ⟨0, [66], 0, []⟩] = some wb' ∧ (wb'.beginFlush 1).1 = some b ∧
      appendRuns 65536 3 [] b.chunks [[⟨1, .other⟩], [⟨1, .other⟩]] = some [66, 65] ∧
      ([66, 65] : Bytes) ≠ [65] ++ [66] :=
  ⟨_, _, rfl, rfl, rfl, by decide⟩

end QuicFs.System
