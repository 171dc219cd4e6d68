import QuicFs.Client.Trust

/-!
# The phases of a connection

What a task knows about its manager at each point of `connect` or of an operation is its
phase. `Sound` says what holds of a manager in each phase, in any run: the managers of the
main tasks are their own until `connect` returns, and a connection that is used has shown
the fingerprint the manager expects.
-/

namespace QuicFs.Client.Trust

open Lib Function

/-- What a task is at. -/
inductive Phase where
  | idle
  | ready (cfg : MountConfig)
  | made (m : Nat) (cfg : MountConfig)
  | seen (m : Nat) (cfg : MountConfig)
  | known (m : Nat) (cfg : MountConfig) (k : KnownHosts)
  | looked (m : Nat) (cfg : MountConfig) (k : KnownHosts)
  | dialing (m : Nat) (cfg : MountConfig) (k : KnownHosts) (expected : Option Text)
  | shaken (m : Nat) (cfg : MountConfig) (k : KnownHosts) (conn : Connection)
  | captured (m : Nat) (cfg : MountConfig) (k : KnownHosts) (conn : Connection) (fp : Text)
    (yes : Bool)
  | saving (m : Nat) (cfg : MountConfig) (k : KnownHosts) (conn : Connection) (fp : Text)
  | saved (m : Nat) (cfg : MountConfig) (conn : Connection) (fp : Text)
  | proven (m : Nat) (cfg : MountConfig) (conn : Connection)
  | failing (m : Nat) (cfg : MountConfig)
  | held (m : Nat)
  | redial (m : Nat) (expected : Option Text)
  | link (m : Nat) (conn : Connection)

namespace Phase

/-- The calls a task makes in the phase. -/
def Allows : Phase → Act → Prop
  | idle, a => ∃ m, a = .holds m
  | ready cfg, a => a = .create cfg
  | made _ _, a => a = .exists
  | seen m _, a => a = .readToString m
  | known m cfg k, a => a = .setExpected m (k.get cfg.hostKey)
  | looked m _ _, a => a = .getExpected m
  | dialing m _ _ expected, a => a = .tls m (modeOf expected)
  | shaken m _ _ _, a => a = .takeSink m
  | captured m cfg _ conn _ yes, a =>
    a = .isTerminal ∨ a = .promptYesNo m ∨ a = .close conn ∨ a = .ensureDir ∨
      a = .returned m false ∨
      a = .truncate m ∧ (cfg.tofu = .acceptNew ∨ cfg.tofu = .prompt ∧ yes = true)
  | saving m cfg k _ fp, a => a = .writeAll m (k.insert cfg.hostKey fp).render
  | saved m _ _ fp, a => a = .setExpected m (some fp)
  | proven m _ conn, a => a = .handshake m conn ∨ a = .install m conn ∨ ∃ ok, a = .returned m ok
  | failing m _, a => a = .returned m false
  | held m, a => a = .liveConn m ∨ a = .getExpected m
  | redial m expected, a => a = .tls m (modeOf expected)
  | link m conn, a =>
    a = .handshake m conn ∨ a = .install m conn ∨ a = .rpc m conn ∨ a = .getExpected m

/-- The phase after a call. -/
def after : Phase → (a : Act) → a.Ret → Phase
  | ready cfg, .create _, (m : Nat) => made m cfg
  | idle, .holds m, (b : Bool) => if b then held m else idle
  | made m cfg, .exists, (b : Bool) => if b then seen m cfg else known m cfg .empty
  | seen m cfg, .readToString _, (text : Option Text) =>
    match text with
    | some text => known m cfg (.parse text)
    | none => failing m cfg
  | known m cfg k, .setExpected .., _ => looked m cfg k
  | looked m cfg k, .getExpected _, (e : Option Text) => dialing m cfg k e
  | dialing m cfg k _, .tls .., (conn : Option Connection) =>
    match conn with
    | some conn => if k.get cfg.hostKey = none then shaken m cfg k conn else proven m cfg conn
    | none => failing m cfg
  | shaken m cfg k conn, .takeSink _, (fp : Option Text) =>
    match fp with
    | some fp => captured m cfg k conn fp false
    | none => failing m cfg
  | captured m cfg k conn fp _, .promptYesNo _, (answer : Option Bool) =>
    captured m cfg k conn fp (answer = some true)
  | captured m cfg k conn fp yes, .truncate _, (ok : Bool) =>
    if ok then saving m cfg k conn fp else captured m cfg k conn fp yes
  | captured .., .returned .., _ => idle
  | saving m cfg _ conn fp, .writeAll .., (ok : Bool) => if ok then saved m cfg conn fp
      else failing m cfg
  | saved m cfg conn _, .setExpected .., _ => proven m cfg conn
  | proven .., .returned .., _ => idle
  | failing .., .returned .., _ => idle
  | held m, .liveConn _, (conn : Option Connection) =>
    match conn with
    | some conn => link m conn
    | none => held m
  | held m, .getExpected _, (e : Option Text) => redial m e
  | redial m _, .tls .., (conn : Option Connection) =>
    match conn with
    | some conn => link m conn
    | none => held m
  | link m _, .getExpected _, (e : Option Text) => redial m e
  | φ, _, _ => φ

def AtRest : Phase → Prop
  | idle | held _ | redial .. | link .. => True
  | _ => False

end Phase

def protocol : Protocol Act Act.Ret Phase where
  pre := Phase.Allows
  post _ _ _ := True
  next := Phase.after

/-! ## The programs keep to their phases -/

theorem follows_fail {φ : Phase} {m : Nat} (ha : φ.Allows (.returned m false))
    (hn : φ.after (.returned m false) () = .idle) :
    (fail m).Follows protocol φ fun φ _ => φ.AtRest :=
  ⟨ha, fun r _ => by cases r; show (φ.after (.returned m false) ()).AtRest; rw [hn]; trivial⟩

theorem follows_finish (m : Nat) (cfg : MountConfig) (conn : Connection) :
    (finish m conn).Follows protocol (.proven m cfg conn) fun φ _ => φ.AtRest := by
  refine ⟨.inl rfl, fun (ok : Bool) _ => ?_⟩
  cases ok with
  | true => exact ⟨.inr (.inl rfl), fun _ _ => ⟨.inr (.inr ⟨true, rfl⟩), fun _ _ => trivial⟩⟩
  | false => exact follows_fail (.inr (.inr ⟨false, rfl⟩)) rfl

theorem follows_firstContact (m : Nat) (cfg : MountConfig) (k : KnownHosts) (conn : Connection) :
    (firstContact m cfg k conn).Follows protocol (.shaken m cfg k conn) fun φ _ => φ.AtRest := by
  refine ⟨rfl, fun (captured : Option Text) _ => ?_⟩
  cases captured with
  | none => exact follows_fail rfl rfl
  | some fp =>
    have hfail : ∀ yes, (fail m).Follows protocol (.captured m cfg k conn fp yes)
        fun φ _ => φ.AtRest :=
      fun yes => follows_fail (.inr (.inr (.inr (.inr (.inl rfl))))) rfl
    have hdecide :
        (decideFirstContact m cfg.tofu).Follows protocol (.captured m cfg k conn fp false)
        fun φ accepted => ∃ yes, φ = .captured m cfg k conn fp yes ∧
          (accepted = some true → cfg.tofu = .acceptNew ∨ cfg.tofu = .prompt ∧ yes = true) := by
      cases htofu : cfg.tofu with
      | strict => exact ⟨false, rfl, fun e => by cases e⟩
      | acceptNew => exact ⟨false, rfl, fun _ => .inl rfl⟩
      | prompt =>
        refine ⟨.inl rfl, fun (terminal : Bool) _ => ?_⟩
        cases terminal with
        | true =>
          exact ⟨.inr (.inl rfl), fun (answer : Option Bool) _ =>
            ⟨answer = some true, rfl, fun e => .inr ⟨rfl, decide_eq_true e⟩⟩⟩
        | false => exact ⟨false, rfl, fun e => by cases e⟩
    refine hdecide.bind fun φ accepted h => ?_
    obtain ⟨yes, rfl, haccept⟩ := h
    rcases accepted with _ | _ | _
    · exact hfail yes
    · exact ⟨.inr (.inr (.inl rfl)), fun _ _ => hfail yes⟩
    · refine ⟨.inr (.inr (.inr (.inl rfl))), fun (ok : Bool) _ => ?_⟩
      cases ok with
      | false => exact hfail yes
      | true =>
        refine ⟨.inr (.inr (.inr (.inr (.inr ⟨rfl, haccept rfl⟩)))), fun (ok : Bool) _ => ?_⟩
        cases ok with
        | false => exact hfail yes
        | true =>
          refine ⟨rfl, fun (ok : Bool) _ => ?_⟩
          cases ok with
          | false => exact follows_fail rfl rfl
          | true => exact ⟨rfl, fun _ _ => follows_finish m cfg conn⟩

theorem follows_establish (m : Nat) (cfg : MountConfig) (k : KnownHosts) :
    (establish m).Follows protocol (.looked m cfg k) fun φ conn =>
      φ = conn.elim (.failing m cfg) fun conn =>
        if k.get cfg.hostKey = none then .shaken m cfg k conn else .proven m cfg conn := by
  refine ⟨rfl, fun (expected : Option Text) _ => ⟨rfl, fun (conn : Option Connection) _ => ?_⟩⟩
  cases conn <;> rfl

theorem follows_load (m : Nat) (cfg : MountConfig) :
    (load m).Follows protocol (.made m cfg) fun φ known =>
    φ = known.elim (.failing m cfg) (.known m cfg) := by
  refine ⟨rfl, fun (there : Bool) _ => ?_⟩
  cases there with
  | false => rfl
  | true => exact ⟨rfl, fun (text : Option Text) _ => by cases text <;> rfl⟩

theorem follows_connect (cfg : MountConfig) :
    (connect cfg).Follows protocol (.ready cfg) fun φ _ => φ.AtRest := by
  refine ⟨rfl, fun (m : Nat) _ => (follows_load m cfg).bind fun φ known hφ => ?_⟩
  subst hφ
  cases known with
  | none => exact follows_fail rfl rfl
  | some k =>
    refine ⟨rfl, fun _ _ => (follows_establish m cfg k).bind fun φ conn hφ => ?_⟩
    subst hφ
    cases conn with
    | none => exact follows_fail rfl rfl
    | some conn =>
      by_cases hk : k.get cfg.hostKey = none
      · simp only [Option.elim, if_pos hk]
        exact follows_firstContact m cfg k conn
      · simp only [Option.elim, if_neg hk]
        exact follows_finish m cfg conn

def Phase.Holding (m : Nat) (φ : Phase) : Prop :=
  φ = .held m ∨ ∃ conn, φ = .link m conn

theorem follows_reconnect (m attempts : Nat) : ∀ {φ : Phase}, φ.Holding m →
    (reconnect m attempts).Follows protocol φ fun φ conn =>
      φ.Holding m ∧ ∀ c, conn = some c → φ = .link m c := by
  induction attempts with
  | zero => exact fun h => ⟨h, fun _ e => by cases e⟩
  | succ attempts ih =>
    intro φ h
    have hdo : (doConnect m).Follows protocol φ fun φ conn =>
        φ.Holding m ∧ ∀ c, conn = some c → φ = .link m c := by
      have hdial :
          ∀ e : Option Text, (Prog.act (.tls m (modeOf e)) .ret : Task (Option Connection)).Follows
          protocol (.redial m e) fun φ conn => φ = conn.elim (.held m) (.link m) :=
        fun e => ⟨rfl, fun (conn : Option Connection) _ => by cases conn <;> rfl⟩
      have hest : (establish m).Follows protocol φ fun φ conn =>
          φ = conn.elim (.held m) (.link m) := by
        rcases h with rfl | ⟨conn, rfl⟩
        · exact ⟨.inr rfl, fun e _ => hdial e⟩
        · exact ⟨.inr (.inr (.inr rfl)), fun e _ => hdial e⟩
      refine hest.bind fun φ conn hφ => ?_
      subst hφ
      cases conn with
      | none => exact ⟨.inl rfl, fun _ e => by cases e⟩
      | some conn =>
        refine ⟨.inl rfl, fun (ok : Bool) _ => ?_⟩
        cases ok with
        | true => exact ⟨.inr (.inl rfl), fun _ _ => ⟨.inr ⟨conn, rfl⟩, fun c e => by cases e; rfl⟩⟩
        | false => exact ⟨.inr ⟨conn, rfl⟩, fun _ e => by cases e⟩
    refine hdo.bind fun φ conn hφ => ?_
    cases conn with
    | some conn => exact hφ
    | none => exact ih hφ.1

theorem follows_operation (m attempts : Nat) :
    (operation m attempts).Follows protocol .idle fun φ _ => φ.AtRest := by
  refine ⟨⟨m, rfl⟩, fun (held : Bool) _ => ?_⟩
  cases held with
  | false => trivial
  | true =>
    have hens : (ensureConn m attempts).Follows protocol (.held m) fun φ conn =>
        φ.Holding m ∧ ∀ c, conn = some c → φ = .link m c := by
      refine ⟨.inl rfl, fun (conn : Option Connection) _ => ?_⟩
      cases conn with
      | some conn => exact ⟨.inr ⟨conn, rfl⟩, fun c e => by cases e; rfl⟩
      | none => exact follows_reconnect m attempts (.inl rfl)
    refine hens.bind fun φ conn hφ => ?_
    cases conn with
    | some conn =>
      obtain rfl := hφ.2 conn rfl
      exact ⟨.inr (.inr (.inl rfl)), fun _ _ => trivial⟩
    | none =>
      rcases hφ.1 with rfl | ⟨conn, rfl⟩ <;> trivial

/-! ## What holds of a manager in each phase -/

/-- The connection has shown the key of this fingerprint. -/
def Shows (X : Digests) (fp : Text) (conn : Connection) : Prop :=
  X.certFingerprint conn.cert = some fp

/-- The policy accepts the key of a host that has no pin. -/
def Inner.Accepted (i : Inner) : Prop :=
  i.cfg.tofu = .acceptNew ∨ i.cfg.tofu = .prompt ∧ i.answer = some true

/-- The pin of the host in the text that was loaded. -/
def Inner.found (i : Inner) : Option Text := (KnownHosts.ofFile i.loaded).get i.cfg.hostKey

/-- The fingerprint the manager enforces: it was found, or there was none and it was accepted. -/
def Inner.Expects (i : Inner) (fp : Text) : Prop :=
  i.expectedFp = some fp ∧ (i.found = some fp ∨ i.found = none ∧ i.Accepted)

def Inner.Linked (X : Digests) (i : Inner) (conn : Connection) : Prop :=
  ∃ fp, i.Expects fp ∧ Shows X fp conn

structure Inner.Ok (X : Digests) (i : Inner) : Prop where
  conn : ∀ conn, i.conn = some conn → i.Linked X conn
  outcome : i.outcome = some true → (∃ fp, i.Expects fp) ∧ i.torn = false

/-- The manager of a main task that has not returned it. -/
structure Inner.Own (i : Inner) (t : Nat × Nat) (cfg : MountConfig) : Prop where
  main : t.2 = 0
  owner : i.owner = t.1
  host : PlainHost cfg.hostKey
  cfg : i.cfg = cfg
  outcome : i.outcome = none

structure Inner.Fresh (i : Inner) (t : Nat × Nat) (cfg : MountConfig) :
    Prop extends i.Own t cfg where
  conn : i.conn = none
  torn : i.torn = false

/-- The managers differ in what `connect` has found out only. -/
structure Inner.Alike (i j : Inner) : Prop where
  owner : j.owner = i.owner
  cfg : j.cfg = i.cfg
  outcome : j.outcome = i.outcome
  conn : j.conn = i.conn
  torn : j.torn = i.torn

theorem Inner.Own.alike {i j : Inner} {t : Nat × Nat} {cfg : MountConfig} (h : i.Own t cfg)
    (e : i.Alike j) : j.Own t cfg :=
  ⟨h.main, e.owner.trans h.owner, h.host, e.cfg.trans h.cfg, e.outcome.trans h.outcome⟩

theorem Inner.Fresh.alike {i j : Inner} {t : Nat × Nat} {cfg : MountConfig} (h : i.Fresh t cfg)
    (e : i.Alike j) : j.Fresh t cfg :=
  ⟨h.toOwn.alike e, e.conn.trans h.conn, e.torn.trans h.torn⟩

theorem Inner.Fresh.ok {X : Digests} {i : Inner} {t : Nat × Nat} {cfg : MountConfig}
    (h : i.Fresh t cfg) : i.Ok X where
  conn conn hc := by cases h.conn.symm.trans hc
  outcome ho := by cases h.outcome.symm.trans ho

namespace Phase

def mgr? : Phase → Option Nat
  | idle | ready _ => none
  | made m _ | seen m _ | known m _ _ | looked m _ _ | dialing m _ _ _ | shaken m _ _ _
  | captured m _ _ _ _ _ | saving m _ _ _ _ | saved m _ _ _ | proven m _ _ | failing m _ | held m
  | redial m _ | link m _ => some m

/-- What the phase says of the manager. -/
def Tells (X : Digests) (t : Nat × Nat) (i : Inner) : Phase → Prop
  | idle => True
  | ready cfg => t.2 = 0 ∧ PlainHost cfg.hostKey
  | made _ cfg | seen _ cfg => i.Fresh t cfg ∧ i.loaded = none
  | known _ cfg k => i.Fresh t cfg ∧ k = .ofFile i.loaded
  | looked _ cfg k => i.Fresh t cfg ∧ k = .ofFile i.loaded ∧ i.expectedFp = k.get cfg.hostKey
  | dialing _ cfg k e => i.Fresh t cfg ∧ k = .ofFile i.loaded ∧ i.expectedFp = k.get cfg.hostKey ∧
      e = k.get cfg.hostKey
  | shaken _ cfg k conn => i.Fresh t cfg ∧ k = .ofFile i.loaded ∧ k.get cfg.hostKey = none ∧
      i.captureSink = X.certFingerprint conn.cert
  | captured _ cfg k conn fp yes => i.Fresh t cfg ∧ k = .ofFile i.loaded ∧
      k.get cfg.hostKey = none ∧
      Shows X fp conn ∧ (yes = true → i.answer = some true)
  | saving _ cfg k conn fp => i.Fresh t cfg ∧ k = .ofFile i.loaded ∧ k.get cfg.hostKey = none ∧
      Shows X fp conn ∧ i.Accepted
  | saved _ cfg conn fp => i.Fresh t cfg ∧ i.found = none ∧ Shows X fp conn ∧ i.Accepted
  | proven _ cfg conn => i.Own t cfg ∧ i.torn = false ∧ i.Linked X conn
  | failing _ cfg => i.Own t cfg
  | held _ => i.outcome = some true
  | redial _ e => i.outcome = some true ∧ i.expectedFp = e
  | link _ conn => i.outcome = some true ∧ i.Linked X conn

/-- The phase says what is so. -/
structure Ok (X : Digests) (s : State) (t : Nat × Nat) (φ : Phase) : Prop where
  lt : ∀ m, φ.mgr? = some m → m < s.count
  tells : ∀ i, φ.mgr?.elim True (fun m => i = s.mgrs m) → φ.Tells X t i

end Phase

structure Sound (X : Digests) (s : State) (l : Nat × Nat → Phase) : Prop where
  phases : ∀ t, (l t).Ok X s t
  mgrs : ∀ m, (s.mgrs m).Ok X
  bound : ∀ m, (s.mgrs m).torn = true ∨ (s.mgrs m).outcome ≠ none → m < s.count

section
variable {X : Digests} {s s' : State} {l : Nat × Nat → Phase} {t : Nat × Nat}

theorem Phase.Ok.of_tells {φ : Phase} {m : Nat} (hm : φ.mgr? = some m) (hlt : m < s.count)
    (h : φ.Tells X t (s.mgrs m)) : φ.Ok X s t := by
  refine ⟨fun m' e => ?_, fun i hi => ?_⟩
  · obtain rfl := Option.some.inj (hm.symm.trans e)
    exact hlt
  · rw [hm] at hi
    obtain rfl : i = s.mgrs m := hi
    exact h

theorem Phase.ok_idle : Phase.idle.Ok X s t := ⟨fun _ e => (by cases e), fun _ _ => trivial⟩

theorem Phase.Ok.tells_mgr {φ : Phase} (h : φ.Ok X s t) {m : Nat} (hm : φ.mgr? = some m) :
    φ.Tells X t (s.mgrs m) :=
  h.tells _ (by rw [hm]; rfl)

theorem Phase.Ok.frame {φ : Phase} (h : φ.Ok X s t) (hcount : s.count ≤ s'.count)
    (hm : ∀ m, φ.mgr? = some m → s'.mgrs m = s.mgrs m) : φ.Ok X s' t := by
  refine ⟨fun m e => Nat.lt_of_lt_of_le (h.lt m e) hcount, fun i hi => h.tells i ?_⟩
  cases hφ : φ.mgr? with
  | none => trivial
  | some m =>
    rw [hφ] at hi
    exact hi.trans (hm m hφ)

theorem Phase.Tells.own_or_returned {φ : Phase} {i : Inner} {m : Nat} (hm : φ.mgr? = some m)
    (h : φ.Tells X t i) : (∃ cfg, i.Own t cfg) ∨ i.outcome = some true := by
  cases φ with
  | idle => cases hm
  | ready => cases hm
  | made m cfg => exact .inl ⟨cfg, h.1.toOwn⟩
  | seen m cfg => exact .inl ⟨cfg, h.1.toOwn⟩
  | known m cfg k => exact .inl ⟨cfg, h.1.toOwn⟩
  | looked m cfg k => exact .inl ⟨cfg, h.1.toOwn⟩
  | dialing m cfg k e => exact .inl ⟨cfg, h.1.toOwn⟩
  | shaken m cfg k conn => exact .inl ⟨cfg, h.1.toOwn⟩
  | captured m cfg k conn fp yes => exact .inl ⟨cfg, h.1.toOwn⟩
  | saving m cfg k conn fp => exact .inl ⟨cfg, h.1.toOwn⟩
  | saved m cfg conn fp => exact .inl ⟨cfg, h.1.toOwn⟩
  | proven m cfg conn => exact .inl ⟨cfg, h.1⟩
  | failing m cfg => exact .inl ⟨cfg, h⟩
  | held m => exact .inr h
  | redial m e => exact .inr h.1
  | link m conn => exact .inr h.1

/-- **A main task's manager is its own.** -/
theorem Sound.mgr?_ne (h : Sound X s l) {m : Nat} {cfg : MountConfig} (hown : (s.mgrs m).Own t cfg)
    {u : Nat × Nat} (hu : u ≠ t) : (l u).mgr? ≠ some m := by
  intro hm
  rcases ((h.phases u).tells_mgr hm).own_or_returned hm with ⟨cfg', h'⟩ | h'
  · exact hu (Prod.ext (h'.owner.symm.trans hown.owner) (h'.main.trans hown.main.symm))
  · cases hown.outcome.symm.trans h'

theorem Sound.same (h : Sound X s l) (hmgrs : s'.mgrs = s.mgrs)
    (hcount : s'.count = s.count) {φ : Phase} (hφ : φ.Ok X s' t) : Sound X s' (update l t φ) := by
  refine ⟨fun u => ?_, fun m => hmgrs ▸ h.mgrs m, fun m hm => hcount ▸ h.bound m (hmgrs ▸ hm)⟩
  by_cases e : u = t
  · subst e
    simpa using hφ
  · simpa [e] using (h.phases u).frame hcount.ge fun m _ => congrFun hmgrs m

theorem Sound.congr (h : Sound X s l) (hmgrs : s'.mgrs = s.mgrs) (hcount : s'.count = s.count) :
    Sound X s' l := by
  have := h.same (t := (0, 0)) hmgrs hcount
    ((h.phases (0, 0)).frame hcount.ge fun m _ => congrFun hmgrs m)
  rwa [update_eq_self] at this

theorem Sound.own (h : Sound X s l) {m : Nat} {cfg : MountConfig} (hown : (s.mgrs m).Own t cfg)
    (hlt : m < s.count) {f : Inner → Inner} (hi : (f (s.mgrs m)).Ok X) {φ : Phase}
    (hm : φ.mgr? = some m ∨ φ = .idle) (hφ : φ.Tells X t (f (s.mgrs m))) :
    Sound X (s.modify m f) (update l t φ) := by
  have hself : (s.modify m f).mgrs m = f (s.mgrs m) := update_self ..
  have hother : ∀ m', m' ≠ m → (s.modify m f).mgrs m' = s.mgrs m' := fun m' e => update_of_ne e ..
  refine ⟨fun u => ?_, fun m' => ?_, fun m' hm' => ?_⟩
  · by_cases e : u = t
    · subst e
      rw [update_self]
      rcases hm with hm | rfl
      · exact .of_tells hm hlt (hself ▸ hφ)
      · exact Phase.ok_idle
    · rw [update_of_ne e]
      refine (h.phases u).frame (Nat.le_refl _) fun m' hm' => hother m' ?_
      rintro rfl
      exact h.mgr?_ne hown e hm'
  · by_cases e : m' = m
    · rw [e, hself]
      exact hi
    · rw [hother m' e]
      exact h.mgrs m'
  · by_cases e : m' = m
    · rw [e]
      exact hlt
    · rw [hother m' e] at hm'
      exact h.bound m' hm'

theorem Phase.Tells.install {φ : Phase} {i : Inner} (h : φ.Tells X t i)
    (hret : i.outcome = some true) (conn : Option Connection) : φ.Tells X t { i with conn } := by
  have hown : ∀ {cfg}, ¬i.Own t cfg := fun h => by cases h.outcome.symm.trans hret
  cases φ with
  | idle => trivial
  | ready => exact h
  | made => exact absurd h.1.toOwn hown
  | seen => exact absurd h.1.toOwn hown
  | known => exact absurd h.1.toOwn hown
  | looked => exact absurd h.1.toOwn hown
  | dialing => exact absurd h.1.toOwn hown
  | shaken => exact absurd h.1.toOwn hown
  | captured => exact absurd h.1.toOwn hown
  | saving => exact absurd h.1.toOwn hown
  | saved => exact absurd h.1.toOwn hown
  | proven => exact absurd h.1 hown
  | failing => exact absurd h hown
  | held => exact h
  | redial => exact h
  | link => exact h

theorem Sound.install (h : Sound X s l) {m : Nat} (hret : (s.mgrs m).outcome = some true)
    {conn : Connection} (hconn : (s.mgrs m).Linked X conn) :
    Sound X (s.modify m fun i => { i with conn := some conn }) l := by
  refine ⟨fun u => ⟨(h.phases u).lt, fun i hi => ?_⟩, fun m' => ?_, fun m' hm' => h.bound m' ?_⟩
  · cases hφ : (l u).mgr? with
    | none => exact (h.phases u).tells i (by rw [hφ]; trivial)
    | some m' =>
      rw [hφ] at hi
      obtain rfl : i = _ := hi
      by_cases e : m' = m
      · subst e
        simp only [State.modify, update_self]
        exact ((h.phases u).tells_mgr hφ).install hret _
      · simp only [State.modify, update_of_ne e]
        exact (h.phases u).tells_mgr hφ
  · by_cases e : m' = m
    · subst e
      simp only [State.modify, update_self]
      exact ⟨fun c hc => Option.some.inj hc ▸ hconn, (h.mgrs m').outcome⟩
    · simp only [State.modify, update_of_ne e]
      exact h.mgrs m'
  · by_cases e : m' = m
    · subst e
      simpa only [State.modify, update_self] using hm'
    · simpa only [State.modify, update_of_ne e] using hm'

theorem Sound.create (h : Sound X s l) {cfg : MountConfig} (hmain : t.2 = 0)
    (hhost : PlainHost cfg.hostKey) :
    Sound X { s with count := s.count + 1, mgrs := update s.mgrs s.count { cfg, owner := t.1 } }
      (update l t (.made s.count cfg)) := by
  refine ⟨fun u => ?_, fun m => ?_, fun m hm => ?_⟩
  · by_cases e : u = t
    · subst e
      rw [update_self]
      refine .of_tells rfl (Nat.lt_add_one _) ?_
      simp only [update_self]
      exact ⟨⟨⟨hmain, rfl, hhost, rfl, rfl⟩, rfl, rfl⟩, rfl⟩
    · rw [update_of_ne e]
      refine (h.phases u).frame (Nat.le_succ _) fun m hm => update_of_ne ?_ _ _
      exact ((h.phases u).lt m hm).ne
  · by_cases e : m = s.count
    · subst e
      simp only [update_self]
      exact ⟨fun c hc => (by cases hc), fun hc => (by cases hc)⟩
    · simp only [update_of_ne e]
      exact h.mgrs m
  · by_cases e : m = s.count
    · subst e
      exact Nat.lt_add_one _
    · simp only [update_of_ne e] at hm
      exact Nat.lt_succ_of_lt (h.bound m hm)

theorem verifyServerCert_enforce (X : Digests) (fp : Text) (sink : Option Text) (cert : Bytes) :
    (verifyServerCert X (.enforce fp) sink cert).2 = sink ∧
    ((verifyServerCert X (.enforce fp) sink cert).1 = true → X.certFingerprint cert = some fp) := by
  unfold verifyServerCert
  cases X.certFingerprint cert with
  | none => exact ⟨rfl, fun e => by cases e⟩
  | some fp' => exact ⟨rfl, fun e => congrArg some (of_decide_eq_true e)⟩

theorem verifyServerCert_capture (X : Digests) (sink : Option Text) (cert : Bytes)
    (h : (verifyServerCert X .capture sink cert).1 = true) :
    (verifyServerCert X .capture sink cert).2 = X.certFingerprint cert := by
  unfold verifyServerCert at h ⊢
  cases hf : X.certFingerprint cert with
  | none => simp [hf] at h
  | some fp => rfl

theorem exec_tls {p m : Nat} {mode : PinMode} {c : Happening} {r : Option Connection}
    (h : exec X p (.tls m mode) c s = some (r, s')) : r = none ∧ s' = s ∨
    r = (if (verifyServerCert X mode (s.mgrs m).captureSink c.cert).1 && c.through then
      some ⟨c.cert⟩ else none) ∧
      s' = s.modify m fun i => { i with
        captureSink := (verifyServerCert X mode (s.mgrs m).captureSink c.cert).2 } := by
  dsimp only [exec] at h
  split at h
  · obtain ⟨rfl, rfl⟩ := Prod.mk.inj (Option.some.inj h)
    exact .inl ⟨rfl, rfl⟩
  · obtain ⟨rfl, rfl⟩ := Prod.mk.inj (Option.some.inj h)
    exact .inr ⟨rfl, rfl⟩

theorem exec_liveConn {p m : Nat} {c : Happening} {r : Option Connection}
    (h : exec X p (.liveConn m) c s = some (r, s')) :
    s' = s ∧ (r = none ∨ r = (s.mgrs m).conn) := by
  dsimp only [exec] at h
  split at h
  · obtain ⟨rfl, rfl⟩ := Prod.mk.inj (Option.some.inj h)
    exact ⟨rfl, .inl rfl⟩
  · obtain ⟨rfl, rfl⟩ := Prod.mk.inj (Option.some.inj h)
    exact ⟨rfl, .inr rfl⟩

theorem Sound.stay (h : Sound X s l) {φ : Phase} {m : Nat} (hm : φ.mgr? = some m)
    (hlt : m < s.count) (hφ : φ.Tells X t (s.mgrs m)) : Sound X s (update l t φ) :=
  h.same rfl rfl (.of_tells hm hlt hφ)

theorem Sound.fresh (h : Sound X s l) {m : Nat} {cfg : MountConfig}
    (hfresh : (s.mgrs m).Fresh t cfg) (hlt : m < s.count) {f : Inner → Inner}
    (hf : (s.mgrs m).Alike (f (s.mgrs m))) {φ : Phase} (hm : φ.mgr? = some m)
    (hφ : (f (s.mgrs m)).Fresh t cfg → φ.Tells X t (f (s.mgrs m))) :
    Sound X (s.modify m f) (update l t φ) := by
  have hnew := hfresh.alike hf
  exact h.own hfresh.toOwn hlt hnew.ok (.inl hm) (hφ hnew)

/-! ### One step in each phase -/

/-- A step of a task in the phase keeps what the phases tell. -/
def Phase.Keeps (X : Digests) (s : State) (l : Nat × Nat → Phase) (t : Nat × Nat) (φ : Phase) :
    Prop :=
  ∀ {a : Act} {c : Happening} {r : a.Ret} {s' : State}, φ.Allows a →
    exec X t.1 a c s = some (r, s') →
    Sound X s' (update l t (φ.after a r))

variable {m : Nat} {cfg : MountConfig} {k : KnownHosts} {conn : Connection} {fp : Text}
    {e : Option Text}

theorem Sound.idle (h : Sound X s l) : Phase.idle.Keeps X s l t := by
  rintro _ c r s' ⟨m, rfl⟩ he
  obtain ⟨rfl, rfl⟩ := Prod.mk.inj (Option.some.inj he)
  dsimp only [Phase.after]
  split
  · next hheld =>
    have hret := of_decide_eq_true (Bool.and_eq_true_iff.mp hheld).2
    exact h.stay rfl (h.bound m (.inr (by rw [hret]; exact Option.some_ne_none _))) hret
  · exact h.same rfl rfl Phase.ok_idle

theorem Sound.made (h : Sound X s l) (hok : (Phase.made m cfg).Ok X s t) :
    (Phase.made m cfg).Keeps X s l t := by
  rintro _ c r s' rfl he
  obtain ⟨rfl, rfl⟩ := Prod.mk.inj (Option.some.inj he)
  have ht := hok.tells_mgr rfl
  dsimp only [Phase.after]
  split
  · exact h.stay rfl (hok.lt m rfl) ht
  · exact h.stay rfl (hok.lt m rfl) ⟨ht.1, by rw [ht.2]; rfl⟩

theorem Sound.seen (h : Sound X s l) (hok : (Phase.seen m cfg).Ok X s t) :
    (Phase.seen m cfg).Keeps X s l t := by
  rintro _ c r s' rfl he
  obtain ⟨hfresh, -⟩ := hok.tells_mgr rfl
  have hlt := hok.lt m rfl
  dsimp only [exec] at he
  split at he
  · obtain ⟨rfl, rfl⟩ := Prod.mk.inj (Option.some.inj he)
    exact h.stay rfl hlt hfresh.toOwn
  · obtain ⟨rfl, rfl⟩ := Prod.mk.inj (Option.some.inj he)
    cases hfile : s.file with
    | none => exact h.fresh hfresh hlt ⟨rfl, rfl, rfl, rfl, rfl⟩ rfl fun hnew => hnew.toOwn
    | some text => exact h.fresh hfresh hlt ⟨rfl, rfl, rfl, rfl, rfl⟩ rfl fun hnew => ⟨hnew, rfl⟩

theorem Sound.known (h : Sound X s l) (hok : (Phase.known m cfg k).Ok X s t) :
    (Phase.known m cfg k).Keeps X s l t := by
  rintro _ c r s' rfl he
  obtain ⟨hfresh, hk⟩ := hok.tells_mgr rfl
  obtain ⟨rfl, rfl⟩ := Prod.mk.inj (Option.some.inj he)
  exact h.fresh hfresh (hok.lt m rfl) ⟨rfl, rfl, rfl, rfl, rfl⟩ rfl fun hnew => ⟨hnew, hk, rfl⟩

theorem Sound.looked (h : Sound X s l) (hok : (Phase.looked m cfg k).Ok X s t) :
    (Phase.looked m cfg k).Keeps X s l t := by
  rintro _ c r s' rfl he
  obtain ⟨hfresh, hk, hexp⟩ := hok.tells_mgr rfl
  obtain ⟨rfl, rfl⟩ := Prod.mk.inj (Option.some.inj he)
  exact h.stay rfl (hok.lt m rfl) ⟨hfresh, hk, hexp, hexp⟩

theorem Sound.dialing (h : Sound X s l) (hok : (Phase.dialing m cfg k e).Ok X s t) :
    (Phase.dialing m cfg k e).Keeps X s l t := by
  rintro _ c r s' rfl he
  obtain ⟨hfresh, hk, hexp, rfl⟩ := hok.tells_mgr rfl
  have hlt := hok.lt m rfl
  obtain ⟨rfl, rfl⟩ | ⟨rfl, rfl⟩ := exec_tls he
  · exact h.stay rfl hlt hfresh.toOwn
  split
  · next hacc =>
    have hacc := (Bool.and_eq_true_iff.mp hacc).1
    cases hg : k.get cfg.hostKey with
    | none =>
      rw [hg] at hacc
      refine h.fresh hfresh hlt ⟨rfl, rfl, rfl, rfl, rfl⟩ ?_ fun hnew => ?_
      · simp [Phase.after, hg, Phase.mgr?]
      · simp only [Phase.after, hg, if_true]
        exact ⟨hnew, hk, hg, verifyServerCert_capture X _ _ hacc⟩
    | some fp =>
      rw [hg] at hacc hexp
      refine h.fresh hfresh hlt ⟨rfl, rfl, rfl, rfl, rfl⟩ ?_ fun hnew => ?_
      · simp [Phase.after, hg, Phase.mgr?]
      · simp only [Phase.after, hg, reduceCtorEq, if_false]
        refine ⟨hnew.toOwn, hfresh.torn, fp, ⟨hexp, .inl ?_⟩,
          (verifyServerCert_enforce X fp _ _).2 hacc⟩
        show (KnownHosts.ofFile (s.mgrs m).loaded).get (s.mgrs m).cfg.hostKey = some fp
        rw [← hk, hfresh.cfg, hg]
  · exact h.fresh hfresh hlt ⟨rfl, rfl, rfl, rfl, rfl⟩ rfl fun hnew => hnew.toOwn

theorem Sound.shaken (h : Sound X s l) (hok : (Phase.shaken m cfg k conn).Ok X s t) :
    (Phase.shaken m cfg k conn).Keeps X s l t := by
  rintro _ c r s' rfl he
  obtain ⟨hfresh, hk, hnone, hsink⟩ := hok.tells_mgr rfl
  obtain ⟨rfl, rfl⟩ := Prod.mk.inj (Option.some.inj he)
  cases hs : (s.mgrs m).captureSink with
  | none => exact h.fresh hfresh (hok.lt m rfl) ⟨rfl, rfl, rfl, rfl, rfl⟩ rfl fun hnew => hnew.toOwn
  | some fp =>
    exact h.fresh hfresh (hok.lt m rfl) ⟨rfl, rfl, rfl, rfl, rfl⟩ rfl fun hnew =>
      ⟨hnew, hk, hnone, hsink.symm.trans hs, fun e => by cases e⟩

theorem Sound.captured {yes : Bool} (h : Sound X s l)
    (hok : (Phase.captured m cfg k conn fp yes).Ok X s t) :
    (Phase.captured m cfg k conn fp yes).Keeps X s l t := by
  intro _ c r s' ha he
  have ht := hok.tells_mgr rfl
  have hlt := hok.lt m rfl
  have ⟨hfresh, hk, hnone, hshows, hyes⟩ := ht
  rcases ha with rfl | rfl | rfl | rfl | rfl | ⟨rfl, haccept⟩
  · obtain ⟨rfl, rfl⟩ := Prod.mk.inj (Option.some.inj he)
    exact h.stay rfl hlt ht
  · obtain ⟨rfl, rfl⟩ := Prod.mk.inj (Option.some.inj he)
    exact h.fresh hfresh hlt ⟨rfl, rfl, rfl, rfl, rfl⟩ rfl fun hnew =>
      ⟨hnew, hk, hnone, hshows, fun e => of_decide_eq_true e⟩
  · obtain ⟨rfl, rfl⟩ := Prod.mk.inj (Option.some.inj he)
    exact h.stay rfl hlt ht
  · obtain ⟨rfl, rfl⟩ := Prod.mk.inj (Option.some.inj he)
    exact h.stay rfl hlt ht
  · obtain ⟨rfl, rfl⟩ := Prod.mk.inj (Option.some.inj he)
    refine h.own hfresh.toOwn hlt ⟨hfresh.ok.conn, fun ho => ?_⟩ (.inr rfl) trivial
    cases ho
  · dsimp only [exec] at he
    split at he
    · obtain ⟨rfl, rfl⟩ := Prod.mk.inj (Option.some.inj he)
      exact h.stay rfl hlt ht
    · obtain ⟨rfl, rfl⟩ := Prod.mk.inj (Option.some.inj he)
      have haccepted : (s.mgrs m).Accepted := by
        unfold Inner.Accepted
        rw [hfresh.cfg]
        exact haccept.imp_right fun h => ⟨h.1, hyes h.2⟩
      exact (h.stay (φ := .saving m cfg k conn fp) rfl hlt
        ⟨hfresh, hk, hnone, hshows, haccepted⟩).congr rfl rfl

theorem Sound.saving (h : Sound X s l) (hok : (Phase.saving m cfg k conn fp).Ok X s t) :
    (Phase.saving m cfg k conn fp).Keeps X s l t := by
  rintro _ c r s' rfl he
  obtain ⟨hfresh, hk, hnone, hshows, haccept⟩ := hok.tells_mgr rfl
  have hlt := hok.lt m rfl
  dsimp only [exec] at he
  split at he
  · obtain ⟨rfl, rfl⟩ := Prod.mk.inj (Option.some.inj he)
    have hown : ({ s.mgrs m with torn := true } : Inner).Own t cfg :=
      ⟨hfresh.main, hfresh.owner, hfresh.host, hfresh.cfg, hfresh.outcome⟩
    refine (h.own (f := fun i => { i with torn := true }) (φ := .failing m cfg) hfresh.toOwn hlt
      ⟨hfresh.ok.conn, fun ho => ?_⟩ (.inl rfl) hown).congr rfl rfl
    cases hfresh.outcome.symm.trans ho
  · obtain ⟨rfl, rfl⟩ := Prod.mk.inj (Option.some.inj he)
    have hfound : (s.mgrs m).found = none := by
      unfold Inner.found
      rw [← hk, hfresh.cfg, hnone]
    exact (h.stay (φ := .saved m cfg conn fp) rfl hlt ⟨hfresh, hfound, hshows, haccept⟩).congr rfl
      rfl

theorem Sound.saved (h : Sound X s l) (hok : (Phase.saved m cfg conn fp).Ok X s t) :
    (Phase.saved m cfg conn fp).Keeps X s l t := by
  rintro _ c r s' rfl he
  obtain ⟨hfresh, hfound, hshows, haccept⟩ := hok.tells_mgr rfl
  obtain ⟨rfl, rfl⟩ := Prod.mk.inj (Option.some.inj he)
  exact h.fresh hfresh (hok.lt m rfl) ⟨rfl, rfl, rfl, rfl, rfl⟩ rfl fun hnew =>
    ⟨hnew.toOwn, hnew.torn, fp, ⟨rfl, .inr ⟨hfound, haccept⟩⟩, hshows⟩

theorem Sound.proven (h : Sound X s l) (hok : (Phase.proven m cfg conn).Ok X s t) :
    (Phase.proven m cfg conn).Keeps X s l t := by
  intro _ c r s' ha he
  obtain ⟨hown, htorn, hlink⟩ := hok.tells_mgr rfl
  have hlt := hok.lt m rfl
  rcases ha with rfl | rfl | ⟨ok, rfl⟩
  · obtain ⟨rfl, rfl⟩ := Prod.mk.inj (Option.some.inj he)
    exact h.stay rfl hlt ⟨hown, htorn, hlink⟩
  · obtain ⟨rfl, rfl⟩ := Prod.mk.inj (Option.some.inj he)
    refine h.own hown hlt ⟨fun conn' hc => ?_, fun ho => ?_⟩ (.inl rfl) ?_
    · obtain rfl := Option.some.inj hc
      exact hlink
    · cases hown.outcome.symm.trans ho
    · exact ⟨⟨hown.main, hown.owner, hown.host, hown.cfg, hown.outcome⟩, htorn, hlink⟩
  · obtain ⟨rfl, rfl⟩ := Prod.mk.inj (Option.some.inj he)
    obtain ⟨fp, hexp, -⟩ := hlink
    exact h.own hown hlt ⟨(h.mgrs m).conn, fun _ => ⟨⟨fp, hexp⟩, htorn⟩⟩ (.inr rfl) trivial

theorem Sound.failing (h : Sound X s l) (hok : (Phase.failing m cfg).Ok X s t) :
    (Phase.failing m cfg).Keeps X s l t := by
  rintro _ c r s' rfl he
  obtain ⟨rfl, rfl⟩ := Prod.mk.inj (Option.some.inj he)
  exact h.own (hok.tells_mgr rfl) (hok.lt m rfl) ⟨(h.mgrs m).conn, fun e => (by cases e)⟩
    (.inr rfl) trivial

theorem Sound.held (h : Sound X s l) (hok : (Phase.held m).Ok X s t) :
    (Phase.held m).Keeps X s l t := by
  intro _ c r s' ha he
  have hret := hok.tells_mgr rfl
  have hlt := hok.lt m rfl
  rcases ha with rfl | rfl
  · obtain ⟨rfl, rfl | rfl⟩ := exec_liveConn he
    · exact h.stay rfl hlt hret
    · cases hc : (s'.mgrs m).conn with
      | none => exact h.stay rfl hlt hret
      | some conn => exact h.stay rfl hlt ⟨hret, (h.mgrs m).conn conn hc⟩
  · obtain ⟨rfl, rfl⟩ := Prod.mk.inj (Option.some.inj he)
    exact h.stay rfl hlt ⟨hret, rfl⟩

theorem Sound.redial (h : Sound X s l) (hok : (Phase.redial m e).Ok X s t) :
    (Phase.redial m e).Keeps X s l t := by
  rintro _ c r s' rfl he
  obtain ⟨hret, rfl⟩ := hok.tells_mgr rfl
  have hlt := hok.lt m rfl
  obtain ⟨⟨fp, hexp⟩, -⟩ := (h.mgrs m).outcome hret
  rw [hexp.1] at he ⊢
  obtain ⟨rfl, rfl⟩ | ⟨rfl, rfl⟩ := exec_tls he
  · exact h.stay rfl hlt hret
  · have hmgrs : (s.modify m fun i => { i with
        captureSink :=
          (verifyServerCert X (modeOf (some fp)) (s.mgrs m).captureSink c.cert).2 }).mgrs =
        s.mgrs := by
      simp only [State.modify, modeOf, (verifyServerCert_enforce X fp _ _).1, update_eq_self]
    split
    · next hacc =>
      refine h.same hmgrs rfl (.of_tells rfl hlt ?_)
      rw [hmgrs]
      exact ⟨hret, fp, hexp, (verifyServerCert_enforce X fp _ _).2 (Bool.and_eq_true_iff.mp hacc).1⟩
    · refine h.same hmgrs rfl (.of_tells rfl hlt ?_)
      rw [hmgrs]
      exact hret

theorem Sound.link (h : Sound X s l) (hok : (Phase.link m conn).Ok X s t) :
    (Phase.link m conn).Keeps X s l t := by
  intro _ c r s' ha he
  have ht := hok.tells_mgr rfl
  have hlt := hok.lt m rfl
  rcases ha with rfl | rfl | rfl | rfl
  · obtain ⟨rfl, rfl⟩ := Prod.mk.inj (Option.some.inj he)
    exact h.stay rfl hlt ht
  · obtain ⟨rfl, rfl⟩ := Prod.mk.inj (Option.some.inj he)
    refine (h.install ht.1 ht.2).stay rfl hlt ?_
    simp only [State.modify, update_self]
    exact ht.install ht.1 _
  · obtain ⟨rfl, rfl⟩ := Prod.mk.inj (Option.some.inj he)
    exact h.stay rfl hlt ht
  · obtain ⟨rfl, rfl⟩ := Prod.mk.inj (Option.some.inj he)
    exact h.stay rfl hlt ⟨ht.1, rfl⟩

/-- **Every step of a task keeps to what the phases tell.** -/
theorem Sound.run (h : Sound X s l) {a : Act} {c : Happening} {r : a.Ret} (ha : (l t).Allows a)
    (he : exec X t.1 a c s = some (r, s')) : Sound X s' (update l t ((l t).after a r)) := by
  have hok := h.phases t
  generalize l t = φ at ha hok ⊢
  cases φ with
  | idle => exact h.idle ha he
  | ready cfg =>
    obtain rfl := ha
    obtain ⟨rfl, rfl⟩ := Prod.mk.inj (Option.some.inj he)
    obtain ⟨hmain, hhost⟩ := hok.tells (s.mgrs 0) trivial
    exact h.create hmain hhost
  | made m cfg => exact h.made hok ha he
  | seen m cfg => exact h.seen hok ha he
  | known m cfg k => exact h.known hok ha he
  | looked m cfg k => exact h.looked hok ha he
  | dialing m cfg k e => exact h.dialing hok ha he
  | shaken m cfg k conn => exact h.shaken hok ha he
  | captured m cfg k conn fp yes => exact h.captured hok ha he
  | saving m cfg k conn fp => exact h.saving hok ha he
  | saved m cfg conn fp => exact h.saved hok ha he
  | proven m cfg conn => exact h.proven hok ha he
  | failing m cfg => exact h.failing hok ha he
  | held m => exact h.held hok ha he
  | redial m e => exact h.redial hok ha he
  | link m conn => exact h.link hok ha he

end

end QuicFs.Client.Trust
