import Mathlib
import QuicFs.Lib.Run

/-!
# Connection slots

The accept loop of `server/src/main.rs`. A connection takes a permit of a semaphore of
`max_clients`, then an `IpSlot`, a guard that is counted in a map from addresses; both belong
to the task of the connection and are dropped at its end, however it ends, the guard first.
The loop and the tasks run side by side, and each drop is a step of its own. `Slots.Exact` holds
in every state: the permits add up, and the map counts the guards (`exact_of_reach`).
-/

namespace QuicFs.Server

open Lib

variable {A : Type} [DecidableEq A]

abbrev IpCounts (A : Type) := AList fun _ : A => UInt32

namespace IpSlot

/-- `IpSlot::try_acquire`: whether there is a guard, and the map after it. -/
def tryAcquire (m : IpCounts A) (ip : A) (max : UInt32) : Bool × IpCounts A :=
  let count := (m.lookup ip).getD 0
  let m := m.insert ip count
  if max ≠ 0 ∧ max ≤ count then (false, if count = 0 then m.erase ip else m)
  else (true, m.insert ip (count + 1))

def drop (m : IpCounts A) (ip : A) : IpCounts A :=
  match m.lookup ip with
  | none => m
  | some c =>
    let c := if c = 0 then 0 else c - 1
    if c = 0 then m.erase ip else m.insert ip c

end IpSlot

/-- The map holds the number of the guards of each address, and no zero. -/
def Counts (m : IpCounts A) (guards : List A) : Prop :=
  ∀ ip, (m.lookup ip).map UInt32.toNat = if guards.count ip =
    0 then none else some (guards.count ip)

section Counts

variable {m : IpCounts A} {guards : List A} {ip : A}

theorem Counts.toNat_getD (h : Counts m guards) (ip : A) :
    ((m.lookup ip).getD 0).toNat = guards.count ip := by
  have hip := h ip
  cases hl : m.lookup ip with
  | none =>
    rw [hl] at hip
    split at hip
    · next h0 => exact h0.symm
    · cases hip
  | some c =>
    rw [hl] at hip
    split at hip
    · cases hip
    · exact Option.some.inj hip

theorem Counts.insert {guards' : List A} {c : UInt32} (h : Counts m guards)
    (hc : c.toNat = guards'.count ip) (hpos : guards'.count ip ≠ 0)
    (hne : ∀ k, k ≠ ip → guards'.count k = guards.count k) : Counts (m.insert ip c) guards' := by
  intro k
  by_cases hk : k = ip
  · subst hk
    rw [AList.lookup_insert, if_neg hpos, Option.map_some, hc]
  · rw [AList.lookup_insert_ne hk, hne k hk, h k]

theorem Counts.erase {guards' : List A} (h : Counts m guards) (hzero : guards'.count ip = 0)
    (hne : ∀ k, k ≠ ip → guards'.count k = guards.count k) : Counts (m.erase ip) guards' := by
  intro k
  by_cases hk : k = ip
  · subst hk
    rw [AList.lookup_erase, if_pos hzero, Option.map_none]
  · rw [AList.lookup_erase_ne hk, hne k hk, h k]

theorem toNat_add_one {c : UInt32} (h : c.toNat + 1 < 2 ^ 32) : (c + 1).toNat = c.toNat + 1 := by
  rw [UInt32.toNat_add, UInt32.toNat_one, Nat.mod_eq_of_lt h]

/-- **A guard is refused exactly at the limit**, and the map counts on. -/
theorem tryAcquire_spec (h : Counts m guards) (hlt : guards.count ip + 1 < 2 ^ 32) (max : UInt32) :
    ((IpSlot.tryAcquire m ip max).1 = false ↔ max ≠ 0 ∧ max.toNat ≤ guards.count ip) ∧
      Counts (IpSlot.tryAcquire m ip max).2
      (if (IpSlot.tryAcquire m ip max).1 then ip :: guards else guards) := by
  have hcount := h.toNat_getD ip
  unfold IpSlot.tryAcquire
  generalize (m.lookup ip).getD 0 = c at hcount
  simp only [UInt32.le_iff_toNat_le, hcount]
  split
  · next hmax =>
    have hpos : guards.count ip ≠ 0 := by
      have : max.toNat ≠ 0 := fun e => hmax.1 (UInt32.toNat_inj.mp e)
      omega
    have hc : c ≠ 0 := fun e => hpos (by rw [← hcount, e]; rfl)
    rw [if_neg hc]
    exact ⟨by simpa using hmax, h.insert hcount hpos fun _ _ => rfl⟩
  · next hmax =>
    refine ⟨by simpa using hmax, ?_⟩
    have hnew : (c + 1).toNat = (ip :: guards).count ip := by
      rw [toNat_add_one (hcount ▸ hlt), hcount, List.count_cons_self]
    rw [AList.insert_insert]
    have hpos : (ip :: guards).count ip ≠ 0 := by
      rw [List.count_cons_self]
      exact Nat.succ_ne_zero _
    exact h.insert hnew hpos fun k hk => List.count_cons_of_ne (Ne.symm hk)

/-- **The drop of a guard takes one away**, and the last one takes the entry with it. -/
theorem drop_spec (h : Counts m guards) (hip : ip ∈ guards) :
    Counts (IpSlot.drop m ip) (guards.erase ip) := by
  have hpos : 0 < guards.count ip := List.count_pos_iff.mpr hip
  have hcount := h.toNat_getD ip
  have hself : (guards.erase ip).count ip = guards.count ip - 1 := List.count_erase_self
  have hne : ∀ k, k ≠ ip → (guards.erase ip).count k = guards.count k :=
    fun k hk => List.count_erase_of_ne hk
  unfold IpSlot.drop
  cases hl : m.lookup ip with
  | none =>
    rw [hl] at hcount
    exact absurd hcount.symm hpos.ne'
  | some c =>
    rw [hl, Option.getD_some] at hcount
    have hc : c ≠ 0 := fun e => hpos.ne' (by rw [← hcount, e]; rfl)
    have hsub : (c - 1).toNat = guards.count ip - 1 := by
      rw [UInt32.toNat_sub_of_le _ _ (UInt32.le_iff_toNat_le.mpr (by simp; omega)), hcount]
      rfl
    simp only [if_neg hc]
    split
    · next h0 =>
      refine h.erase (hself.trans ?_) hne
      rw [← hsub, h0]
      rfl
    · next h0 =>
      refine h.insert (hsub.trans hself.symm) (fun e => h0 (UInt32.toNat_inj.mp ?_)) hne
      rw [hsub, ← hself, e]
      rfl

end Counts

/-! ## The server -/

structure SlotLimits where
  maxClients : UInt32
  maxPerIp : UInt32

/-- `max_clients` of `run_server`. -/
def SlotLimits.permits (cfg : SlotLimits) : Nat := max cfg.maxClients.toNat 1

/-- Where the accept loop is. -/
inductive Accepting (A : Type) where
  | idle
  /-- It holds a permit for a connection from `ip`. -/
  | permitted (ip : A)
  /-- It has refused the connection for its address, and still holds the permit. -/
  | refused (ip : A)
  deriving DecidableEq, Repr

def Accepting.held : Accepting A → Nat
  | idle => 0
  | permitted _ => 1
  | refused _ => 1

structure Slots (A : Type) where
  /-- The free permits of the semaphore. -/
  free : Nat
  counts : IpCounts A
  accept : Accepting A
  /-- The guards that are alive, one for each connection. -/
  live : List A
  /-- The connections that have dropped their guard and not yet their permit. -/
  closing : Nat

inductive SlotLabel (A : Type) where
  /-- A connection comes in, and a permit is tried for. -/
  | incoming (ip : A)
  /-- A guard is tried for; with it the task of the connection starts. -/
  | reserve
  /-- The permit of a refused connection is dropped. -/
  | refuse
  /-- A connection has ended, and its guard is dropped. -/
  | dropGuard (ip : A)
  | dropPermit
  deriving DecidableEq, Repr

namespace Slots

def init (cfg : SlotLimits) : Slots A where
  free := cfg.permits
  counts := ∅
  accept := .idle
  live := []
  closing := 0

def step (cfg : SlotLimits) (s : Slots A) : SlotLabel A → Option (Slots A)
  | .incoming ip =>
    if s.accept = .idle then
      -- without a permit the connection is refused
      if s.free = 0 then some s else some { s with free := s.free - 1, accept := .permitted ip }
    else none
  | .reserve =>
    match s.accept with
    | .permitted ip =>
      match IpSlot.tryAcquire s.counts ip cfg.maxPerIp with
      | (true, m) => some { s with counts := m, live := ip :: s.live, accept := .idle }
      | (false, m) => some { s with counts := m, accept := .refused ip }
    | _ => none
  | .refuse =>
    match s.accept with
    | .refused _ => some { s with free := s.free + 1, accept := .idle }
    | _ => none
  | .dropGuard ip =>
    if ip ∈ s.live then
      some { s with counts := IpSlot.drop s.counts ip, live := s.live.erase ip,
                    closing := s.closing + 1 }
    else none
  | .dropPermit =>
    if s.closing = 0 then none else some { s with closing := s.closing - 1, free := s.free + 1 }

/-- The permits add up, the map counts the guards, and no address has too many. -/
structure Exact (cfg : SlotLimits) (s : Slots A) : Prop where
  permits : s.free + s.accept.held + s.live.length + s.closing = cfg.permits
  counts : Counts s.counts s.live
  perIp : cfg.maxPerIp ≠ 0 → ∀ ip, s.live.count ip ≤ cfg.maxPerIp.toNat

variable {cfg : SlotLimits} {s s' : Slots A}

theorem exact_init : Exact cfg (init cfg : Slots A) where
  permits := rfl
  counts := fun _ => rfl
  perIp := fun _ _ => Nat.zero_le _

theorem Exact.count_lt (h : Exact cfg s) {ip : A} (ha : s.accept = .permitted ip) (k : A) :
    s.live.count k + 1 < 2 ^ 32 := by
  have hp := h.permits
  have hlen := List.count_le_length (a := k) (l := s.live)
  have hmax : cfg.permits < 2 ^ 32 := max_lt (UInt32.toNat_lt _) (by decide)
  rw [ha, Accepting.held] at hp
  omega

theorem reserve_cases (h : Exact cfg s) {ip : A} (ha : s.accept = .permitted ip)
    (hs : step cfg s .reserve = some s') :
    (¬(cfg.maxPerIp ≠ 0 ∧ cfg.maxPerIp.toNat ≤ s.live.count ip) ∧
      ∃ m, Counts m (ip :: s.live) ∧
      s' = { s with counts := m, live := ip :: s.live, accept := .idle }) ∨
    ((cfg.maxPerIp ≠ 0 ∧ cfg.maxPerIp.toNat ≤ s.live.count ip) ∧
      ∃ m, Counts m s.live ∧ s' = { s with counts := m, accept := .refused ip }) := by
  obtain ⟨hiff, hcounts⟩ := tryAcquire_spec h.counts (h.count_lt ha ip) cfg.maxPerIp
  simp only [step, ha] at hs
  generalize IpSlot.tryAcquire s.counts ip cfg.maxPerIp = r at *
  obtain ⟨got, m⟩ := r
  cases got with
  | true =>
    left
    exact ⟨fun hc => absurd (hiff.mpr hc) (by simp), m, hcounts, (Option.some.inj hs).symm⟩
  | false =>
    right
    exact ⟨hiff.mp rfl, m, hcounts, (Option.some.inj hs).symm⟩

theorem exact_step {l : SlotLabel A} (h : Exact cfg s) (hs : step cfg s l = some s') :
    Exact cfg s' := by
  have hp := h.permits
  cases l with
  | incoming ip =>
    simp only [step] at hs
    split at hs
    · next hidle =>
      split at hs
      · exact Option.some.inj hs ▸ h
      · next hfree =>
        obtain rfl := Option.some.inj hs
        rw [hidle, Accepting.held] at hp
        exact ⟨by simp only [Accepting.held]; omega, h.counts, h.perIp⟩
    · cases hs
  | reserve =>
    cases ha : s.accept with
    | idle => simp [step, ha] at hs
    | refused ip => simp [step, ha] at hs
    | permitted ip =>
      rw [ha, Accepting.held] at hp
      rcases reserve_cases h ha hs with ⟨hroom, m, hm, rfl⟩ | ⟨-, m, hm, rfl⟩
      · refine ⟨by simp only [Accepting.held, List.length_cons]; omega, hm, fun hne k => ?_⟩
        have hk := h.perIp hne k
        rw [List.count_cons]
        split
        · next he =>
          obtain rfl : ip = k := by simpa using he
          have := not_and.mp hroom hne
          omega
        · exact hk
      · exact ⟨hp, hm, h.perIp⟩
  | refuse =>
    cases ha : s.accept with
    | idle => simp [step, ha] at hs
    | permitted ip => simp [step, ha] at hs
    | refused ip =>
      simp only [step, ha] at hs
      obtain rfl := Option.some.inj hs
      rw [ha, Accepting.held] at hp
      exact ⟨by simp only [Accepting.held]; omega, h.counts, h.perIp⟩
  | dropGuard ip =>
    simp only [step] at hs
    split at hs
    · next hip =>
      obtain rfl := Option.some.inj hs
      have hlen := List.length_erase_of_mem hip
      have hpos := List.length_pos_of_mem hip
      refine ⟨by simp only [hlen]; omega, drop_spec h.counts hip, fun hne k => ?_⟩
      exact (List.erase_sublist.count_le k).trans (h.perIp hne k)
    · cases hs
  | dropPermit =>
    simp only [step] at hs
    split at hs
    · cases hs
    · next hclosing =>
      obtain rfl := Option.some.inj hs
      exact ⟨by dsimp only; omega, h.counts, h.perIp⟩

theorem exact_of_reach (h : Reach (step cfg) anyLabel (init cfg) s) : Exact cfg s :=
  h.invariant exact_init fun hi _ hs => exact_step hi hs

end Slots

/-- **The connection slots are exact** in every state of the server: there are at most `max_clients`
connections, the map holds for each address the number of its guards, the addition of
`try_acquire` does not overflow and the subtraction of `drop` does not saturate, and no address
has more than its share, which is the only reason for which it is refused. -/
theorem slots_exact {cfg : SlotLimits} (hmax : 1 ≤ cfg.maxClients) {s : Slots A}
    (h : Reach (Slots.step cfg) anyLabel (Slots.init cfg) s) :
    s.live.length ≤ cfg.maxClients.toNat ∧
    (∀ ip, (s.counts.lookup ip).map UInt32.toNat =
      if s.live.count ip = 0 then none else some (s.live.count ip)) ∧
    (∀ ip, s.accept = .permitted ip → ((s.counts.lookup ip).getD 0).toNat + 1 < 2 ^ 32) ∧
    (∀ ip ∈ s.live, ∃ c, s.counts.lookup ip = some c ∧ 0 < c) ∧
    (cfg.maxPerIp ≠ 0 → ∀ ip, s.live.count ip ≤ cfg.maxPerIp.toNat) ∧
    ∀ ip s', s.accept = .permitted ip → Slots.step cfg s .reserve = some s' →
      (s'.accept = .refused ip ↔ cfg.maxPerIp ≠ 0 ∧ s.live.count ip = cfg.maxPerIp.toNat) := by
  have hx := Slots.exact_of_reach h
  have hpermits : cfg.permits = cfg.maxClients.toNat := max_eq_left (UInt32.le_iff_toNat_le.mp hmax)
  refine ⟨?_, hx.counts, fun ip ha => ?_, fun ip hip => ?_, hx.perIp, fun ip s' ha hs => ?_⟩
  · have := hx.permits
    omega
  · rw [hx.counts.toNat_getD]
    exact hx.count_lt ha ip
  · have hpos : 0 < s.live.count ip := List.count_pos_iff.mpr hip
    have hc := hx.counts ip
    rw [if_neg hpos.ne'] at hc
    obtain ⟨c, hl, hc⟩ := Option.map_eq_some_iff.mp hc
    exact ⟨c, hl, UInt32.lt_iff_toNat_lt.mpr (by rw [hc]; exact hpos)⟩
  · rcases Slots.reserve_cases hx ha hs with ⟨hroom, m, -, rfl⟩ | ⟨hfull, m, -, rfl⟩
    · exact ⟨nofun, fun hc => absurd ⟨hc.1, hc.2.ge⟩ hroom⟩
    · exact ⟨fun _ => ⟨hfull.1, le_antisymm (hx.perIp hfull.1 ip) hfull.2⟩, fun _ => rfl⟩

/-- Two clients at most, one from an address: the first ends while the loop holds the permit of the
second, which comes from the same address and is then let in. -/
theorem slots_exact_second : ∃ s : Slots Nat,
    Reach (Slots.step ⟨2, 1⟩) anyLabel (Slots.init ⟨2, 1⟩) s ∧ s.live = [7] ∧ s.closing = 1 ∧
    s.live.length ≤ 2 ∧
    ∀ ip, (s.counts.lookup ip).map UInt32.toNat =
      if s.live.count ip = 0 then none else some (s.live.count ip) := by
  obtain ⟨s, hs, hlive, hclosing⟩ := Reach.of_check (Slots.step ⟨2, 1⟩) anyLabel (Slots.init ⟨2, 1⟩)
    [.incoming 7, .reserve, .incoming 7, .reserve, .refuse, .incoming 7, .dropGuard 7, .reserve]
    (fun s => s.live = [7] ∧ s.closing = 1) (by decide +kernel)
  have hx := slots_exact (by decide) hs
  exact ⟨s, hs, hlive, hclosing, hx.1, hx.2.1⟩

end QuicFs.Server
