import QuicFs.Server.SetAttr
import QuicFs.System.Callbacks

/-!
# A modification time on its way to the server and back

`setattr` of the client turns a time into nanoseconds, `handle_setattr` these into a `timespec`,
`metadata_to_stat` what the filesystem kept into nanoseconds again and `stat_to_file_attr` these
into a time for the kernel. The filesystem is the one of `Fs.utimens`, which keeps every valid
`timespec` exactly. A time from before the Unix epoch is lost in the first conversion
(`mtime_kept_iff`). What the two handlers leave of a time is what the conversions make of it
(`setattr_mtime`, `mtime_handled`).
-/

namespace QuicFs.System

open Lib Client Server

/-- Nanoseconds from the Unix epoch. -/
abbrev SystemTime := Int

/-- `duration_since(UNIX_EPOCH)`, in nanoseconds; an error before it. -/
def sinceEpoch (t : SystemTime) : Option Nat := if 0 ≤ t then some t.toNat else none

/-- `as_nanos() as i64`, or 0 for a time before the epoch. -/
def nanosSinceEpoch (t : SystemTime) : Int64 := ((sinceEpoch t).map Int64.ofNat).getD 0

/-- `ns_of` of `setattr`. -/
def nsOf (t : SystemTime) : Int64 := nanosSinceEpoch t

/-- `ns` of `metadata_to_stat`. -/
def statNs (t : SystemTime) : Int64 := nanosSinceEpoch t

/-- `ns_to_st` of `stat_to_file_attr`. -/
def nsToSt (ns : Int64) : SystemTime :=
  if 0 ≤ ns then ns.toUInt64.toNat else -((-ns).toUInt64.toNat : Int)

/-- The nanoseconds of the time fit an `i64`. -/
def InRange (t : SystemTime) : Prop := ∀ d ∈ sinceEpoch t, d < 2 ^ 63

/-- The time set on the inode `i` is the time read back, and no conversion overflows. -/
def MtimeKept (fs : Fs) (i : Ino) (t : SystemTime) : Prop :=
  ∃ fs' node, fs.utimens i none (some (nsToTimespec (nsOf t))) = .ok fs' ∧ fs'.nodes i = some node ∧
    nsToSt (statNs node.mtime) = t ∧ InRange t ∧ InRange node.mtime ∧
    statNs node.mtime ≠ Int64.minValue

theorem sinceEpoch_of_nonneg {t : Int} (h : 0 ≤ t) : sinceEpoch t = some t.toNat := if_pos h

theorem nanosSinceEpoch_of_neg {t : Int} (h : t < 0) : nanosSinceEpoch t = 0 := by
  rw [nanosSinceEpoch, sinceEpoch, if_neg (Int.not_le.mpr h)]
  rfl

theorem toInt_nanosSinceEpoch {t : Int} (h : 0 ≤ t) (hmax : t < 2 ^ 63) :
    (nanosSinceEpoch t).toInt = t := by
  rw [nanosSinceEpoch, sinceEpoch_of_nonneg h]
  simp only [Option.map_some, Option.getD_some]
  rw [Int64.toInt_ofNat_of_lt (by omega)]
  omega

theorem inRange_of_lt {t : Int} (h : t < 2 ^ 63) : InRange t := by
  intro d hd
  unfold sinceEpoch at hd
  split at hd
  · obtain rfl := Option.some.inj hd
    omega
  · cases hd

theorem nsToSt_of_nonneg {ns : Int64} (h : 0 ≤ ns.toInt) : nsToSt ns = ns.toInt := by
  have h0 : (0 : Int64) ≤ ns := Int64.le_iff_toInt_le.mpr h
  rw [nsToSt, if_pos h0]
  change (ns.toBitVec.toNat : Int) = ns.toBitVec.toInt
  change 0 ≤ ns.toBitVec.toInt at h
  rw [BitVec.toInt_eq_toNat_cond] at h ⊢
  split at h <;> omega

theorem valid_nsToTimespec {ns : Int64} (h : 0 ≤ ns.toInt) : (nsToTimespec ns).Valid := by
  have h1 := Int.tmod_nonneg 1000000000 h
  have h2 := Int.tmod_lt_of_pos ns.toInt (b := 1000000000) (by decide)
  exact ⟨h1, h2⟩

theorem utimens_mtime {fs : Fs} {i : Ino} {node : Node} (hnode : fs.nodes i = some node)
    {ts : Timespec} (hts : ts.Valid) : ∃ fs', fs.utimens i none (some ts) = .ok fs' ∧
      fs'.nodes i = some { node with mtime := ts.sec * 1000000000 + ts.nsec } := by
  have hlt : i < fs.next := by
    by_contra hge
    rw [fs.fresh i (Nat.le_of_not_lt hge)] at hnode
    cases hnode
  refine ⟨fs.set i (some { node with mtime := ts.sec * 1000000000 + ts.nsec }), ?_,
    by simp [Fs.set, hlt]⟩
  rw [Fs.utimens, if_pos ⟨by simp, by simpa using hts⟩, Fs.modify, hnode]
  rfl

theorem nonneg_nanosSinceEpoch {t : Int} (hmax : t < 2 ^ 63) : 0 ≤ (nanosSinceEpoch t).toInt := by
  rcases Int.lt_or_le t 0 with h | h
  · rw [nanosSinceEpoch_of_neg h]
    decide
  · rwa [toInt_nanosSinceEpoch h hmax]

/-- The conversions composed: there and back. -/
theorem mtimeKept_iff_back {fs : Fs} {i : Ino} {node : Node} (hnode : fs.nodes i = some node)
    (t : Int64) : MtimeKept fs i t.toInt ↔ nsToSt (statNs (nsOf t.toInt).toInt) = t.toInt := by
  have hmax := Int64.toInt_lt t
  have h0 : 0 ≤ (nsOf t.toInt).toInt := nonneg_nanosSinceEpoch hmax
  obtain ⟨fs₁, hset₁, hget₁⟩ := utimens_mtime hnode (valid_nsToTimespec h0)
  rw [nanos_nsToTimespec] at hget₁
  constructor
  · rintro ⟨fs', node', hset, hget, hback, -⟩
    obtain rfl := Except.ok.inj (hset₁.symm.trans hset)
    obtain rfl := Option.some.inj (hget₁.symm.trans hget)
    exact hback
  · intro hback
    have hlt := Int64.toInt_lt (nsOf t.toInt)
    refine ⟨fs₁, _, hset₁, hget₁, hback, inRange_of_lt hmax, inRange_of_lt hlt, fun hmin => ?_⟩
    have hlow : Int64.minValue.toInt < 0 := by decide
    rw [← hmin] at hlow
    exact absurd (nonneg_nanosSinceEpoch hlt) (Int.not_le.mpr hlow)

/-- **A modification time survives exactly from the epoch on.** -/
theorem mtime_kept_iff {fs : Fs} {i : Ino} {node : Node} (hnode : fs.nodes i = some node)
    (t : Int64) : MtimeKept fs i t.toInt ↔ 0 ≤ t.toInt := by
  have hmax := Int64.toInt_lt t
  rw [mtimeKept_iff_back hnode]
  constructor
  · intro hback
    by_contra hneg
    have hns : nsOf t.toInt = 0 := nanosSinceEpoch_of_neg (Int.not_le.mp hneg)
    have hzero : nsToSt (statNs (0 : Int64).toInt) = 0 := by decide
    rw [hns, hzero] at hback
    exact hneg (Int.le_of_eq hback)
  · intro h
    have hns : (nsOf t.toInt).toInt = t.toInt := toInt_nanosSinceEpoch h hmax
    have hback : (statNs t.toInt).toInt = t.toInt := toInt_nanosSinceEpoch h hmax
    rw [hns, nsToSt_of_nonneg (hback.symm ▸ h), hback]

def timedFs : Fs :=
  ⟨fun i => if i = 0 then some ⟨.file [], 0o644, 5, 7⟩ else none, 1,
    fun _ hi => if_neg (Nat.ne_of_gt hi)⟩

theorem mtime_kept_iff_largest : MtimeKept timedFs 0 Int64.maxValue.toInt :=
  (mtime_kept_iff rfl Int64.maxValue).mpr (by decide)

/-- A nanosecond before the epoch comes back as the epoch. -/
theorem mtime_before_epoch : ¬MtimeKept timedFs 0 (-1) ∧
    ∃ fs' node, timedFs.utimens 0 none (some (nsToTimespec (nsOf (-1)))) = .ok fs' ∧
      fs'.nodes 0 = some node ∧ nsToSt (statNs node.mtime) = 0 :=
  ⟨fun h => absurd ((mtimeKept_iff_back (i := 0) rfl (-1)).mp h) (by decide), _, _, rfl,
    rfl, by decide⟩

/-! ## The handlers -/

/-- The SetAttr of a modification time. -/
def mtimeRequest (seq : UInt64) (path : Path) (t : SystemTime) : SetAttr :=
  ⟨seq, path, validBits none none none none none (some (nsOf t)), 0, 0, 0, 0, 0, nsOf t⟩

/-- What the client's `setattr` sends. -/
theorem setattr_mtime (chunkSize : UInt32) (ino : FuseIno) (t : SystemTime) (fh : Option Fh) :
    setattr chunkSize ino none none none none none (some (nsOf t)) fh = withPath ino fun path =>
      fenceSetattr chunkSize none fh >>= fun r => match r with
        | .error e => .ret (.error (rpcToErrno e))
        | .ok () => viaStat path .other fun seq =>
          .setAttr seq path (mtimeRequest seq path t).valid 0 0 0 (mtimeRequest seq path t).mtime :=
  rfl

/-- What the server's handler leaves, if no call fails once something is changed. -/
theorem mtime_handled {kernel : Kernel} {ex : Export} (hs : Standing kernel ex) {seq : UInt64}
    {path : Path} {t : Int64} {own : Ino → Owner} {n : Nat} {h h' : Host} {cs cs' : Nat → Choice}
    (hrun : ((mtimeRequest seq path t.toInt).handler ex).run (Sys.exec kernel ex n) cs h =
      some ((), h', cs'))
    (hspared : ((mtimeRequest seq path t.toInt).handler ex).Along (Sys.exec kernel ex n)
      (Sparing (mtimeRequest seq path t.toInt) own kernel ex h.fs) cs h)
    {r : Response} (hr : h'.replies = h.replies ++ [(n, r)]) (hok : r.status = .ok) :
    ∃ p i node, normalise path = .ok p ∧ (walkPlain ex h.fs true p).place slash = .obj i ∧
      h'.fs.nodes i = some node ∧
      (MtimeKept h.fs i t.toInt ↔ nsToSt (statNs node.mtime) = t.toInt) := by
  obtain ⟨r', hr', -, hgranted⟩ := ((setattr_ends hs).run hrun).mpr hspared
  obtain rfl : r = r' := by simpa using hr.symm.trans hr'
  obtain ⟨p, i, node, node', hp, hplace, hn, hn', hc, -⟩ := hgranted hok
  refine ⟨p, i, node', hp, hplace, hn', ?_⟩
  have hbit : bit (mtimeRequest seq path t.toInt).valid 0x20 = true := by
    simp [mtimeRequest, validBits, bit]
  rw [mtimeKept_iff_back hn, hc.mtime, if_pos hbit]
  rfl

end QuicFs.System
