import QuicFs.Common.Frames

/-!
# What the client puts on a Write stream

`ConnManager::write` cuts the data into pieces of the configured chunk size and sends
one frame for each (`writeFrames`). The frames are chained and carry the data
(`writeFrames_chained`, `payload_writeFrames`).
-/

namespace QuicFs.Client

/-- The frames of `ConnManager::write`; the chunk size is clamped to at least one. -/
def writeFrames (chunkSize : UInt32) (handle : ServerHandle) (offset : UInt64) (data : Bytes) :
    List WriteRequest :=
  let size := max chunkSize.toNat 1
  let pieces := chunks size data
  pieces.mapIdx fun i piece =>
    ⟨handle, offset + UInt64.ofNat (i * size), piece, decide (i + 1 = pieces.length)⟩

/-- The frames from piece number `i` on. -/
theorem chained_mapIdx (size : Nat) (hsize : 0 < size) (handle : ServerHandle) (offset : UInt64)
    (last k : Nat) : ∀ (data : Bytes) (i : Nat), data.length ≤ k →
      last = i + (chunks size data).length →
    Chained (offset + UInt64.ofNat (i * size)) ((chunks size data).mapIdx fun j piece =>
      ⟨handle, offset + UInt64.ofNat ((i + j) * size), piece, decide (i + j + 1 = last)⟩) ∧
    payload ((chunks size data).mapIdx fun j piece =>
      ⟨handle, offset + UInt64.ofNat ((i + j) * size), piece, decide (i + j + 1 = last)⟩) =
      data := by
  induction k with
  | zero =>
    intro data i hk _
    have : data = [] := List.length_eq_zero_iff.mp (by omega)
    subst this
    simp [chunks_nil hsize, Chained]
  | succ k ih =>
    intro data i hk hlast
    by_cases hd : data = []
    · subst hd; simp [chunks_nil hsize, Chained]
    rw [chunks_eq_cons hsize hd, List.length_cons] at hlast
    obtain ⟨hc, hp⟩ := ih (data.drop size) (i + 1) (by
      have := List.length_pos_iff.mpr hd
      simp only [List.length_drop]; omega) (by omega)
    simp only [Nat.add_assoc, Nat.add_comm 1] at hc hp
    simp only [chunks_eq_cons hsize hd, List.mapIdx_cons, Nat.add_zero, Chained, payload_cons,
      true_and, Nat.add_assoc]
    refine ⟨⟨?_, ?_⟩, by rw [hp, List.take_append_drop]⟩
    · rw [Bool.eq_iff_iff, decide_eq_true_iff, List.isEmpty_iff_length_eq_zero, List.length_mapIdx]
      omega
    rcases Nat.lt_or_ge data.length size with hlt | hge
    · rw [List.drop_eq_nil_of_le (by omega), chunks_nil hsize]
      trivial
    · rw [List.length_take, Nat.min_eq_left hge, UInt64.add_assoc, ← UInt64.ofNat_add]
      rwa [Nat.add_mul, Nat.one_mul] at hc

theorem writeFrames_chained (chunkSize : UInt32) (handle : ServerHandle) (offset : UInt64)
    (data : Bytes) : Chained offset (writeFrames chunkSize handle offset data) := by
  have := (chained_mapIdx (max chunkSize.toNat 1) (by omega) handle offset
    (chunks (max chunkSize.toNat 1) data).length data.length data 0 (Nat.le_refl _) (by omega)).1
  simpa [writeFrames] using this

theorem payload_writeFrames (chunkSize : UInt32) (handle : ServerHandle) (offset : UInt64)
    (data : Bytes) : payload (writeFrames chunkSize handle offset data) = data := by
  have := (chained_mapIdx (max chunkSize.toNat 1) (by omega) handle offset
    (chunks (max chunkSize.toNat 1) data).length data.length data 0 (Nat.le_refl _) (by omega)).2
  simpa [writeFrames] using this

theorem handle_of_mem_writeFrames (chunkSize : UInt32) (handle : ServerHandle) (offset : UInt64)
    (data : Bytes) : ∀ w ∈ writeFrames chunkSize handle offset data, w.handle = handle := by
  intro w hw
  obtain ⟨i, h, rfl⟩ := List.mem_mapIdx.mp hw
  rfl

end QuicFs.Client
