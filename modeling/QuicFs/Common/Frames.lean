import QuicFs.Lib.Extent

/-!
# Status codes and the frames of a Write RPC

`Status` of `common/src/status.rs`, and `WriteRequest` of `common/src/frames.rs`
without `op` and `seq`, which name the operation and the RPC and do not matter to what
is written. `Chained o ws` says that the frames `ws` lie one behind the other from
offset `o` on and that the last one, and no other, is marked `done`.
-/

namespace QuicFs

open Lib

abbrev Bytes := List UInt8

inductive Status where
  | ok | notFound | permission | io | exists | notEmpty | notDir | isDir | invalidArg | noSpace
  | tooLarge | stale | unknown
  deriving DecidableEq, Repr

/-- The kinds of `std::io::Error` that `Status::from` tells apart. -/
inductive IoErrorKind where
  | notFound | permissionDenied | alreadyExists | invalidInput | invalidData | other
  deriving DecidableEq, Repr

def Status.ofIo : IoErrorKind → Status
  | .notFound => .notFound
  | .permissionDenied => .permission
  | .alreadyExists => .exists
  | .invalidInput | .invalidData => .invalidArg
  | .other => .io

theorem Status.ofIo_ne_ok (e : IoErrorKind) : Status.ofIo e ≠ .ok := by
  cases e <;> decide

/-- The server's id of an open file. -/
abbrev ServerHandle := UInt64

def extentOf (c : UInt64 × Bytes) : Extent UInt8 := ⟨c.1.toNat, c.2⟩

structure WriteRequest where
  handle : ServerHandle
  offset : UInt64
  data : Bytes
  done : Bool
  deriving DecidableEq, Repr

def payload (ws : List WriteRequest) : Bytes := ws.flatMap WriteRequest.data

@[simp] theorem payload_nil : payload [] = [] := rfl

@[simp] theorem payload_cons (w : WriteRequest) (ws : List WriteRequest) :
    payload (w :: ws) = w.data ++ payload ws := List.flatMap_cons

theorem payload_append (ws ws' : List WriteRequest) :
    payload (ws ++ ws') = payload ws ++ payload ws' :=
  List.flatMap_append

/-- `slice::chunks`: pieces of `n` elements, the last one possibly shorter. -/
def chunks (n : Nat) (data : Bytes) : List Bytes :=
  (List.range ((data.length + n - 1) / n)).map fun i => (data.drop (i * n)).take n

theorem chunks_nil {n : Nat} (hn : 0 < n) : chunks n [] = [] := by
  have : n - 1 < n := by omega
  simp [chunks, this]

theorem chunks_eq_cons {n : Nat} (hn : 0 < n) {data : Bytes} (hd : data ≠ []) :
    chunks n data = data.take n :: chunks n (data.drop n) := by
  have hlen : 0 < data.length := List.length_pos_iff.mpr hd
  have hcount : (data.length + n - 1) / n = (data.length - n + n - 1) / n + 1 := by
    rcases Nat.lt_or_ge n data.length with h | h
    · rw [show data.length + n - 1 = data.length - n + n - 1 + n by omega, Nat.add_div_right _ hn]
    · rw [show data.length - n + n - 1 = n - 1 by omega, Nat.div_eq_of_lt (show n - 1 < n by omega),
        show data.length + n - 1 = data.length - 1 + n by omega, Nat.add_div_right _ hn,
        Nat.div_eq_of_lt (by omega)]
  unfold chunks
  rw [hcount, List.range_succ_eq_map, List.length_drop]
  simp only [List.map_cons, Nat.zero_mul, List.drop_zero, List.map_map, List.drop_drop]
  congr 1
  apply List.map_congr_left
  intro i _
  simp only [Function.comp, Nat.succ_eq_add_one, Nat.add_mul, Nat.one_mul, Nat.add_comm n]

/-- The frames lie one behind the other, the first at `o`; `done` marks the last. -/
def Chained (o : UInt64) : List WriteRequest → Prop
  | [] => True
  | w :: ws => w.offset = o ∧ w.done = ws.isEmpty ∧ Chained (o + UInt64.ofNat w.data.length) ws

/-- A position of a run is one of a frame, if no frame ends past the last offset. -/
theorem Chained.exists_frame {ws : List WriteRequest} : ∀ {o : UInt64}, Chained o ws →
    (∀ w ∈ ws, (w.offset + UInt64.ofNat w.data.length).toNat = w.offset.toNat + w.data.length) →
    ∀ {p : Nat},
    o.toNat ≤ p → p < o.toNat + (payload ws).length →
      ∃ w ∈ ws, w.offset.toNat ≤ p ∧ p < w.offset.toNat + w.data.length := by
  induction ws with
  | nil =>
    intro o _ _ p hle hlt
    exact absurd hlt (by simpa using hle)
  | cons w ws ih =>
    rintro o ⟨rfl, -, hrest⟩ hfits p hle hlt
    have hfit := hfits w List.mem_cons_self
    by_cases hp : p < w.offset.toNat + w.data.length
    · exact ⟨w, List.mem_cons_self, hle, hp⟩
    · rw [payload_cons, List.length_append] at hlt
      obtain ⟨v, hv, hvp⟩ := ih hrest (fun v hv => hfits v (List.mem_cons_of_mem _ hv)) (p := p)
        (by omega) (by omega)
      exact ⟨v, List.mem_cons_of_mem _ hv, hvp⟩

def WriteRequest.Fits (w : WriteRequest) : Prop :=
  (w.offset + UInt64.ofNat w.data.length).toNat = w.offset.toNat + w.data.length

theorem Chained.offset_eq {w : WriteRequest} {ws rest : List WriteRequest} : ∀ {o : UInt64},
    Chained o (ws ++ w :: rest) → (∀ v ∈ ws, v.Fits) →
      w.offset.toNat = o.toNat + (payload ws).length := by
  induction ws with
  | nil =>
    rintro o ⟨rfl, -⟩ -
    rfl
  | cons v ws ih =>
    rintro o ⟨rfl, -, hrest⟩ hfits
    have hfit : (v.offset + UInt64.ofNat v.data.length).toNat = _ := hfits v List.mem_cons_self
    rw [ih hrest fun x hx => hfits x (List.mem_cons_of_mem _ hx), hfit, payload_cons,
      List.length_append]
    omega

end QuicFs
