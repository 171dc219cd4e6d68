import QuicFs.Server.Handles

/-!
# The handle table over the history of a session

Calls on a `HandleTable` in the order in which they take its lock, so that a run is any
interleaving of any callers. The ids a table issues are its first one and those after it
(`issued_eq`), so an id is not issued twice before the counter has gone round. It leaves the
epoch's half much earlier, once 2^32 - 1 files have been opened in the session, however few
are open at a time (`sessions_disjoint_iff`).
-/

namespace QuicFs.Server.HandleTable

inductive Call where
  | tryInsert (h : OpenHandle)
  | remove (id : ServerHandle)
  | getFile (id : ServerHandle)
  | getWriteCtx (id : ServerHandle)
  | getPath (id : ServerHandle)
  deriving DecidableEq

inductive Answer where
  | inserted (id : Option ServerHandle)
  | removed (h : Option OpenHandle)
  | file (f : Option File)
  | writeCtx (ctx : Option (File × UInt32 × Nat))
  | path (p : Option RootPath)

def Call.exec (t : HandleTable) : Call → Answer × HandleTable
  | .tryInsert h =>
    match t.tryInsert h with
    | none => (.inserted none, t)
    | some (id, t') => (.inserted (some id), t')
  | .remove id => (.removed (t.remove id).1, (t.remove id).2)
  | .getFile id => (.file (t.getFile id), t)
  | .getWriteCtx id => (.writeCtx (t.getWriteCtx id), t)
  | .getPath id => (.path (t.getPath id), t)

def runCalls (t : HandleTable) (calls : List Call) : HandleTable :=
  calls.foldl (fun t c => (c.exec t).2) t

def Answer.issued? : Answer → Option ServerHandle
  | .inserted id => id
  | _ => none

def issued (t : HandleTable) : List Call → List ServerHandle
  | [] => []
  | c :: cs => (c.exec t).1.issued?.toList ++ issued (c.exec t).2 cs

def live (t : HandleTable) : Nat := t.inner.entries.length

theorem runCalls_append (t : HandleTable) (xs ys : List Call) :
    t.runCalls (xs ++ ys) = (t.runCalls xs).runCalls ys := List.foldl_append

theorem issued_append (t : HandleTable) (xs ys : List Call) :
    t.issued (xs ++ ys) = t.issued xs ++ (t.runCalls xs).issued ys := by
  induction xs generalizing t with
  | nil => rfl
  | cons c xs ih =>
    rw [List.cons_append, issued, ih, issued, List.append_assoc]
    rfl

/-! ## One call -/

section
variable {t : HandleTable}

theorem tryInsert_eq_none_iff {h : OpenHandle} :
    t.tryInsert h = none ↔ t.maxHandles.toNat ≤ t.live := by
  unfold tryInsert live
  split <;> simp_all

theorem tryInsert_eq_some {h : OpenHandle} {id : ServerHandle} {t' : HandleTable}
    (e : t.tryInsert h = some (id, t')) : t.live < t.maxHandles.toNat ∧ id = t.counter ∧
      t' = { t with counter := t.counter + 1, inner := t.inner.insert t.counter h } := by
  unfold tryInsert at e
  split at e
  · cases e
  · next hlt =>
    obtain ⟨rfl, rfl⟩ := Prod.mk.inj (Option.some.inj e)
    exact ⟨Nat.lt_of_not_le hlt, rfl, rfl⟩

/-- What a call can do: it inserts under the id of the counter, or it takes nothing in. -/
theorem exec_cases (t : HandleTable) (c : Call) :
    (∃ h, c = .tryInsert h ∧ t.live < t.maxHandles.toNat ∧ (c.exec t).1.issued? = some t.counter ∧
      (c.exec t).2 = { t with counter := t.counter + 1, inner := t.inner.insert t.counter h }) ∨
    ((c.exec t).1.issued? = none ∧ (∀ h, c = .tryInsert h → t.maxHandles.toNat ≤ t.live) ∧
      ∃ inner, (c.exec t).2 = { t with inner } ∧ inner.entries.length ≤ t.live ∧
        ∀ id, inner.lookup id = if c = .remove id then none else t.inner.lookup id) := by
  cases c with
  | tryInsert h =>
    cases e : t.tryInsert h with
    | none =>
      have hfull := tryInsert_eq_none_iff.mp e
      exact .inr ⟨by simp [Call.exec, e, Answer.issued?], fun _ _ => hfull, t.inner,
        by simp [Call.exec, e],
        Nat.le_refl _, fun id => by simp⟩
    | some r =>
      obtain ⟨id, t'⟩ := r
      obtain ⟨hlt, hid, ht⟩ := tryInsert_eq_some e
      refine .inl ⟨h, rfl, hlt, ?_, ?_⟩
      · simp [Call.exec, e, Answer.issued?, hid]
      · simp [Call.exec, e, ht]
  | remove id =>
    refine .inr ⟨rfl, fun h e => (by cases e), t.inner.erase id, rfl,
      (List.kerase_sublist ..).length_le, fun k => ?_⟩
    by_cases hk : k = id
    · subst hk
      simp
    · simp [AList.lookup_erase_ne hk, Ne.symm hk]
  | getFile id | getWriteCtx id | getPath id =>
    exact .inr ⟨rfl, fun h e => (by cases e), t.inner, rfl, Nat.le_refl _, fun k => by simp⟩

theorem live_exec_le {c : Call} (h : t.live ≤ t.maxHandles.toNat) :
    (c.exec t).2.live ≤ t.maxHandles.toNat := by
  rcases exec_cases t c with ⟨h', -, hlt, -, e⟩ | ⟨-, -, inner, e, hle, -⟩
  · rw [e, live, AList.entries_insert, List.length_cons]
    exact Nat.lt_of_le_of_lt (List.kerase_sublist ..).length_le hlt
  · rw [e]
    exact Nat.le_trans hle h

@[simp] theorem maxHandles_exec (t : HandleTable) (c : Call) :
    (c.exec t).2.maxHandles = t.maxHandles := by
  rcases exec_cases t c with ⟨h', -, -, -, e⟩ | ⟨-, -, inner, e, -⟩ <;> rw [e]

end

/-! ## The ids of a run -/

/-- **The ids of a run are the first one and those after it.** -/
theorem issued_eq (calls : List Call) : ∀ t : HandleTable, t.issued calls =
    (List.range (t.issued calls).length).map fun i => t.counter + UInt64.ofNat i := by
  induction calls with
  | nil => intro t; rfl
  | cons c cs ih =>
    intro t
    have hcs := ih (c.exec t).2
    rcases exec_cases t c with ⟨h, -, -, he, e⟩ | ⟨he, -, inner, e, -⟩
    · rw [issued, he, Option.toList_some, List.singleton_append, List.length_cons,
        List.range_succ_eq_map,
        List.map_cons, List.map_map]
      refine congrArg₂ _ (by simp) (hcs.trans (List.map_congr_left fun i _ => ?_))
      rw [e, Function.comp, Nat.succ_eq_add_one, Nat.add_comm i 1, UInt64.ofNat_add,
        ← UInt64.add_assoc]
      rfl
    · rw [issued, he, hcs, e]
      simp

theorem length_issued_le (t : HandleTable) (calls : List Call) :
    (t.issued calls).length ≤ calls.length := by
  induction calls generalizing t with
  | nil => exact Nat.le_refl _
  | cons c cs ih =>
    rw [issued, List.length_append, List.length_cons]
    have h := ih (c.exec t).2
    have hone : (c.exec t).1.issued?.toList.length ≤ 1 := by cases (c.exec t).1.issued? <;> simp
    omega

theorem nodup_issued (t : HandleTable) {calls : List Call} (h : calls.length ≤ 2 ^ 64) :
    (t.issued calls).Nodup := by
  have hlen := length_issued_le t calls
  rw [issued_eq]
  refine List.Nodup.map_on (fun i hi j hj e => ?_) List.nodup_range
  rw [List.mem_range] at hi hj
  have := congrArg UInt64.toNat ((UInt64.add_right_inj _).mp e)
  rw [UInt64.toNat_ofNat', UInt64.toNat_ofNat', Nat.mod_eq_of_lt (by omega),
    Nat.mod_eq_of_lt (by omega)] at this
  exact this

theorem mem_issued_of_lookup {id : ServerHandle} (calls : List Call) : ∀ {t : HandleTable},
    (t.runCalls calls).inner.lookup id ≠ none → t.inner.lookup id ≠ none ∨ id ∈ t.issued calls := by
  induction calls with
  | nil => intro t h; exact .inl h
  | cons c cs ih =>
    intro t h
    rw [issued, List.mem_append]
    rcases ih (t := (c.exec t).2) h with h | h
    · rcases exec_cases t c with ⟨h', -, -, he, e⟩ | ⟨-, -, inner, e, -, hlook⟩
      · rw [he]
        by_cases hk : id = t.counter
        · exact .inr (.inl (by simp [hk]))
        · rw [e] at h
          exact .inl (by simpa [AList.lookup_insert_ne hk] using h)
      · have h : inner.lookup id ≠ none := by rwa [e] at h
        rw [hlook] at h
        split at h
        · exact absurd rfl h
        · exact .inl h
    · exact .inr (.inr h)

/-! ## A set of open files -/

theorem lookup_runCalls {id : ServerHandle} (calls : List Call) : ∀ {t : HandleTable},
    id ∉ t.issued calls →
      (t.runCalls calls).inner.lookup id = if .remove id ∈ calls then none
      else t.inner.lookup id := by
  induction calls with
  | nil => intro t _; rfl
  | cons c cs ih =>
    intro t hid
    rw [issued, List.mem_append, not_or] at hid
    have hrun : t.runCalls (c :: cs) = (c.exec t).2.runCalls cs := rfl
    rw [hrun, ih hid.2]
    rcases exec_cases t c with ⟨h, rfl, -, he, e⟩ | ⟨-, -, inner, e, -, hlook⟩
    · have hne : id ≠ t.counter := fun e => hid.1 (by rw [he, e]; simp)
      rw [e]
      simp [AList.lookup_insert_ne hne]
    · rw [e]
      simp only [hlook]
      by_cases hc : c = .remove id
      · simp [hc]
      · simp [hc, Ne.symm hc]

theorem live_runCalls_le (calls : List Call) : ∀ {t : HandleTable}, t.live ≤ t.maxHandles.toNat →
    (t.runCalls calls).live ≤ (t.runCalls calls).maxHandles.toNat := by
  induction calls with
  | nil => intro t h; exact h
  | cons c cs ih =>
    intro t h
    exact ih (by rw [maxHandles_exec]; exact live_exec_le h)

@[simp] theorem maxHandles_runCalls (t : HandleTable) (calls : List Call) :
    (t.runCalls calls).maxHandles = t.maxHandles := by
  induction calls generalizing t with
  | nil => rfl
  | cons c cs ih => exact (ih _).trans (maxHandles_exec t c)

/-- What a table answers for an id that stands for this handle, or for none. -/
def Resolves (t : HandleTable) (id : ServerHandle) (h : Option OpenHandle) : Prop :=
  t.getFile id = h.map (·.file) ∧ t.getWriteCtx id = h.map (fun h => (h.file, h.flags, h.inoKey)) ∧
    t.getPath id = h.map (·.path) ∧ (t.remove id).1 = h

theorem resolves_of_lookup {t : HandleTable} {id : ServerHandle} {h : Option OpenHandle}
    (e : t.inner.lookup id = h) : t.Resolves id h := by
  subst e
  exact ⟨rfl, rfl, rfl, rfl⟩

/-- **A handle table is a set of open files.** At every point of a run of fewer than 2^64 calls
no more files are open than the limit; an insertion fails exactly at the limit and then changes
nothing; an id that it returns was not returned before, and from then on it stands for what was
inserted until it is first removed, and for nothing ever after. -/
theorem refines_open_files (epoch maxHandles : UInt32) {before after : List Call} {c : Call}
    (hlen : (before ++ c :: after).length < 2 ^ 64) :
    let t₀ := withLimit epoch maxHandles
    let t := t₀.runCalls before
    t.live ≤ maxHandles.toNat ∧ ∀ h, c = .tryInsert h →
      ((c.exec t).1 = .inserted none ↔ t.live = maxHandles.toNat) ∧
      ((c.exec t).1 = .inserted none → (c.exec t).2 = t) ∧
      ∀ id, (c.exec t).1 = .inserted (some id) → id ∉ t₀.issued before ∧
        ∀ mid, mid <+: after →
          (t₀.runCalls (before ++ c :: mid)).Resolves id
            (if .remove id ∈ mid then none else some h) := by
  intro t₀ t
  rw [List.length_append, List.length_cons] at hlen
  have hlive : t.live ≤ maxHandles.toNat := by
    have := live_runCalls_le before (t := t₀) (Nat.zero_le _)
    rwa [maxHandles_runCalls] at this
  have hmax : t.maxHandles = maxHandles := maxHandles_runCalls t₀ before
  have hfresh : ∀ {mid}, mid <+: after → (t₀.issued (before ++ c :: mid)).Nodup := fun {mid} hmid =>
    nodup_issued t₀ (by
      have := hmid.length_le
      rw [List.length_append, List.length_cons]
      omega)
  refine ⟨hlive, fun h hc => ⟨?_, ?_, fun id hid => ?_⟩⟩
  · subst hc
    have hiff : (Call.exec t (.tryInsert h)).1 = .inserted none ↔ t.tryInsert h = none := by
      simp only [Call.exec]
      cases t.tryInsert h <;> simp
    rw [hiff, tryInsert_eq_none_iff, hmax]
    omega
  · subst hc
    intro hnone
    simp only [Call.exec] at hnone ⊢
    cases e : t.tryInsert h with
    | none => rfl
    | some r => rw [e] at hnone; cases hnone
  · rcases exec_cases t c with ⟨h', hc', -, he, e⟩ | ⟨he, -⟩
    · obtain rfl : h = h' := by rw [hc] at hc'; exact Call.tryInsert.inj hc'
      obtain rfl : t.counter = id := by rw [hid] at he; exact (Option.some.inj he).symm
      have hsplit : ∀ mid, t₀.issued (before ++ c :: mid) =
          t₀.issued before ++ t.counter :: (c.exec t).2.issued mid := fun mid => by
        rw [issued_append, issued, he]
        rfl
      refine ⟨fun hmem => ?_, fun mid hmid => resolves_of_lookup ?_⟩
      · have := @hfresh [] List.nil_prefix
        rw [hsplit] at this
        exact (List.nodup_append.mp this).2.2 _ hmem _ (List.mem_cons_self ..) rfl
      · have := hfresh hmid
        rw [hsplit] at this
        have hnot := (List.nodup_cons.mp (List.nodup_append.mp this).2.1).1
        rw [runCalls_append]
        refine (lookup_runCalls mid hnot).trans ?_
        rw [e]
        simp
    · rw [hid] at he
      cases he

/-- A table with room for one file: it is open under its id until it is removed. -/
theorem refines_open_files_small :
    let h : OpenHandle := ⟨[], 2, ⟨3, .rdwr⟩, 3⟩
    (Call.exec (withLimit 7 1) (.tryInsert h)).1 = .inserted (some 0x700000001) ∧
    ((withLimit 7 1).runCalls [.tryInsert h, .getPath 4]).Resolves 0x700000001 (some h) ∧
    ((withLimit 7 1).runCalls [.tryInsert h, .getPath 4, .remove 0x700000001]).Resolves 0x700000001
      none := by
  intro h
  have hid : (Call.exec (withLimit 7 1) (.tryInsert h)).1 = .inserted (some 0x700000001) := rfl
  have hspec := @refines_open_files 7 1 [] [.getPath 4, .remove 0x700000001]
    (.tryInsert h) (by simp)
  obtain ⟨-, hmid⟩ := (hspec.2 h rfl).2.2 0x700000001 hid
  exact ⟨hid, hmid [.getPath 4] (by decide), hmid [.getPath 4, .remove 0x700000001] (by decide)⟩

/-! ## Two sessions -/

/-- No insertion of the run finds the table full. -/
def WithinLimit (t : HandleTable) (calls : List Call) : Prop :=
  ∀ before h after, calls = before ++ .tryInsert h :: after →
    (t.runCalls before).live < t.maxHandles.toNat

theorem withinLimit_cons {t : HandleTable} {c : Call} {cs : List Call} : t.WithinLimit (c :: cs) ↔
    (∀ h, c = .tryInsert h → t.live < t.maxHandles.toNat) ∧ (c.exec t).2.WithinLimit cs := by
  constructor
  · refine fun h => ⟨fun h' e => h [] h' cs (by rw [e]; rfl), fun before h' after e => ?_⟩
    rw [maxHandles_exec]
    exact h (c :: before) h' after (by rw [e, List.cons_append])
  · rintro ⟨hc, hcs⟩ before h' after e
    cases before with
    | nil => exact hc h' (List.cons.inj e).1
    | cons c' before =>
      obtain ⟨rfl, rfl⟩ := List.cons.inj e
      have := hcs before h' after rfl
      rwa [maxHandles_exec] at this

theorem withinLimit_append {t : HandleTable} (xs : List Call) {ys : List Call} :
    t.WithinLimit (xs ++ ys) ↔ t.WithinLimit xs ∧ (t.runCalls xs).WithinLimit ys := by
  induction xs generalizing t with
  | nil => exact ⟨fun h => ⟨fun _ _ _ e => by simp at e, h⟩, fun h => h.2⟩
  | cons c xs ih =>
    rw [List.cons_append, withinLimit_cons, ih, withinLimit_cons, and_assoc]
    rfl

def Call.isOpen : Call → Bool
  | .tryInsert _ => true
  | _ => false

def opens (calls : List Call) : Nat := calls.countP Call.isOpen

theorem length_issued_eq (calls : List Call) : ∀ {t : HandleTable}, t.WithinLimit calls →
    (t.issued calls).length = opens calls := by
  induction calls with
  | nil => intro t _; rfl
  | cons c cs ih =>
    intro t h
    obtain ⟨hc, hrest⟩ := withinLimit_cons.mp h
    rw [issued, List.length_append, ih hrest, opens, opens, List.countP_cons, Nat.add_comm]
    rcases exec_cases t c with ⟨h', rfl, -, he, -⟩ | ⟨he, hfull, -⟩
    · rw [he]
      rfl
    · rw [he]
      cases c with
      | tryInsert h' => exact absurd (hc h' rfl) (Nat.not_lt.mpr (hfull h' rfl))
      | _ => rfl

theorem toNat_counter_withLimit (epoch maxHandles : UInt32) :
    (withLimit epoch maxHandles).counter.toNat = epoch.toNat * 2 ^ 32 + 1 := by
  have hlt := epoch.toNat_lt
  have hshift : (epoch.toUInt64 <<< 32).toNat = epoch.toNat <<< 32 := by
    rw [UInt64.toNat_shiftLeft, UInt32.toNat_toUInt64]
    refine Nat.mod_eq_of_lt ?_
    simp only [UInt64.reduceToNat, Nat.reduceMod, Nat.shiftLeft_eq]
    omega
  have hor : epoch.toNat <<< 32 ||| 1 = epoch.toNat <<< 32 + 1 :=
    (Nat.shiftLeft_add_eq_or_of_lt (by norm_num) _).symm
  rw [withLimit, UInt64.toNat_or, hshift]
  exact hor.trans (by rw [Nat.shiftLeft_eq])

theorem shiftRight_id (epoch maxHandles : UInt32) {i : Nat} (hi : i < 2 ^ 32) :
    ((withLimit epoch maxHandles).counter + UInt64.ofNat i) >>> 32 = epoch.toUInt64 ↔
    i + 1 < 2 ^ 32 := by
  have hlt := epoch.toNat_lt
  rw [← UInt64.toNat_inj, UInt64.toNat_shiftRight, UInt64.toNat_add, toNat_counter_withLimit,
    UInt64.toNat_ofNat', UInt32.toNat_toUInt64, Nat.shiftRight_eq_div_pow]
  simp only [UInt64.reduceToNat, Nat.reduceMod]
  omega

/-- The ids of a session carry its epoch as long as it has opened fewer than 2^32 files. -/
theorem epoch_of_issued_iff (epoch maxHandles : UInt32) {calls : List Call}
    (h : (withLimit epoch maxHandles).WithinLimit calls) :
    (∀ id ∈ (withLimit epoch maxHandles).issued calls, id >>> 32 = epoch.toUInt64) ↔
      opens calls < 2 ^ 32 := by
  rw [issued_eq, length_issued_eq calls h]
  constructor
  · intro hall
    by_contra hge
    have hlast := hall _ (List.mem_map_of_mem (List.mem_range.mpr
      (show 2 ^ 32 - 1 < opens calls by omega)))
    exact absurd ((shiftRight_id epoch maxHandles (by norm_num)).mp hlast) (by norm_num)
  · intro hlt id hid
    obtain ⟨i, hi, rfl⟩ := List.mem_map.mp hid
    rw [List.mem_range] at hi
    exact (shiftRight_id epoch maxHandles (by omega)).mpr (by omega)

/-- **The ids of two sessions with different epochs are apart, each with its own epoch in its
upper half, exactly when neither session opens 2^32 files or more** in its whole run. -/
theorem sessions_disjoint_iff {epoch₁ epoch₂ : UInt32} (he : epoch₁ ≠ epoch₂) (max₁ max₂ : UInt32)
    {calls₁ calls₂ : List Call} (h₁ : (withLimit epoch₁ max₁).WithinLimit calls₁)
    (h₂ : (withLimit epoch₂ max₂).WithinLimit calls₂) :
    let t₁ := withLimit epoch₁ max₁
    let t₂ := withLimit epoch₂ max₂
    ((∀ id ∈ t₁.issued calls₁, id >>> 32 = epoch₁.toUInt64) ∧
      (∀ id ∈ t₂.issued calls₂, id >>> 32 = epoch₂.toUInt64) ∧
      (∀ id ∈ t₁.issued calls₁, ∀ run, run <+: calls₂ → (t₂.runCalls run).Resolves id none) ∧
      ∀ id ∈ t₂.issued calls₂, ∀ run, run <+: calls₁ → (t₁.runCalls run).Resolves id none) ↔
    opens calls₁ < 2 ^ 32 ∧ opens calls₂ < 2 ^ 32 := by
  intro t₁ t₂
  have hi₁ := epoch_of_issued_iff epoch₁ max₁ h₁
  have hi₂ := epoch_of_issued_iff epoch₂ max₂ h₂
  constructor
  · rintro ⟨ha, hb, -⟩
    exact ⟨hi₁.mp ha, hi₂.mp hb⟩
  · rintro ⟨ha, hb⟩
    have ha := hi₁.mpr ha
    have hb := hi₂.mpr hb
    -- an id open in a table was issued by it, so its upper half is the table's epoch
    have hapart : ∀ {e e' m : UInt32} {calls run : List Call} {id : ServerHandle}, e ≠ e' →
        (∀ id ∈ (withLimit e m).issued calls, id >>> 32 = e.toUInt64) → run <+: calls →
        id >>> 32 = e'.toUInt64 → ((withLimit e m).runCalls run).Resolves id none := by
      intro e e' m calls run id hne hall hrun hid
      refine resolves_of_lookup ?_
      by_contra hopen
      rcases mem_issued_of_lookup run hopen with h0 | hmem
      · exact h0 rfl
      · obtain ⟨rest, rfl⟩ := hrun
        have := hall id (by rw [issued_append]; exact List.mem_append_left _ hmem)
        exact hne (UInt32.toUInt64_inj.mp (this.symm.trans hid))
    exact ⟨ha, hb, fun id hid run hrun => hapart (Ne.symm he) hb hrun (ha id hid),
      fun id hid run hrun => hapart he ha hrun (hb id hid)⟩

/-- Two sessions that open one file each. -/
theorem sessions_disjoint_iff_small :
    let h : OpenHandle := ⟨[], 2, ⟨3, .rdwr⟩, 3⟩
    (withLimit 8 1).issued [.tryInsert h] = [0x800000001] ∧
      ((withLimit 7 1).runCalls [.tryInsert h]).Resolves 0x800000001 none := by
  intro h
  have hlimit : ∀ epoch, (withLimit epoch 1).WithinLimit [.tryInsert h] := fun epoch =>
    withinLimit_cons.mpr ⟨fun _ _ => Nat.one_pos, fun _ _ _ e => by simp at e⟩
  have hapart := (@sessions_disjoint_iff 7 8 (by decide) 1 1 _ _ (hlimit 7) (hlimit 8)).mpr
    ⟨by decide, by decide⟩
  exact ⟨rfl, hapart.2.2.2 0x800000001 (by decide) _ (List.prefix_refl _)⟩

/-- A file is opened and released again and again. -/
def reopening (h : OpenHandle) (start : ServerHandle) (n : Nat) : List Call :=
  (List.range n).flatMap fun i => [.tryInsert h, .remove (start + UInt64.ofNat i)]

theorem reopening_spec (h : OpenHandle) (epoch : UInt32) (n : Nat) :
    let t := withLimit epoch 1
    t.WithinLimit (reopening h t.counter n) ∧
      t.runCalls (reopening h t.counter n) = { t with counter := t.counter + UInt64.ofNat n } ∧
      opens (reopening h t.counter n) = n := by
  intro t
  induction n with
  | zero => exact ⟨fun _ _ _ e => by simp [reopening] at e, by simp [reopening, runCalls], rfl⟩
  | succ n ih =>
    obtain ⟨hlimit, hrun, hopens⟩ := ih
    have hsplit : reopening h t.counter (n + 1) =
        reopening h t.counter n ++ [.tryInsert h, .remove (t.counter + UInt64.ofNat n)] := by
      simp [reopening, List.range_succ]
    rw [hsplit, withinLimit_append, runCalls_append, hrun, opens, List.countP_append,
      ← opens, hopens]
    refine ⟨⟨hlimit, withinLimit_cons.mpr ⟨fun _ _ => Nat.one_pos, withinLimit_cons.mpr
      ⟨fun h' e => (by cases e), fun _ _ _ e => by simp at e⟩⟩⟩, ?_, rfl⟩
    have hopen : ({ t with counter := t.counter + UInt64.ofNat n } : HandleTable).tryInsert h =
        some (t.counter + UInt64.ofNat n, { t with
          counter := t.counter + UInt64.ofNat n + 1
          inner := t.inner.insert (t.counter + UInt64.ofNat n) h }) := rfl
    have hclosed : (t.inner.insert (t.counter + UInt64.ofNat n) h).erase
        (t.counter + UInt64.ofNat n) =
        t.inner := by
      refine AList.ext ?_
      simp [t, withLimit, AList.erase]
    simp only [runCalls, List.foldl_cons, List.foldl_nil, Call.exec, hopen, remove, hclosed]
    rw [UInt64.ofNat_add, UInt64.add_assoc]
    rfl

/-- One file at a time, opened 2^32 + 1 times: the last id has the epoch of the other session
in its upper half, and it is the id of that session's first file. -/
theorem ids_of_two_sessions_meet :
    let h : OpenHandle := ⟨[], 2, ⟨3, .rdwr⟩, 3⟩
    let t₁ := withLimit 7 1
    let t₂ := withLimit 8 1
    let calls₁ := reopening h t₁.counter (2 ^ 32 + 1)
    t₁.WithinLimit calls₁ ∧ t₂.WithinLimit [.tryInsert h] ∧
      ∃ id ∈ t₁.issued calls₁, id >>> 32 ≠ 7 ∧
      (t₂.runCalls [.tryInsert h]).Resolves id (some h) := by
  intro h t₁ t₂ calls₁
  obtain ⟨hlimit, -, hopens⟩ := reopening_spec h 7 (2 ^ 32 + 1)
  refine ⟨hlimit, withinLimit_cons.mpr ⟨fun _ _ => Nat.one_pos, fun _ _ _ e => by simp at e⟩,
    t₁.counter + UInt64.ofNat (2 ^ 32), ?_, by decide, resolves_of_lookup (by decide)⟩
  rw [issued_eq, length_issued_eq _ hlimit]
  refine List.mem_map_of_mem (List.mem_range.mpr ?_)
  exact hopens.symm ▸ Nat.lt_succ_self _

end QuicFs.Server.HandleTable
