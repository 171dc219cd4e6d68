import QuicFs.System.Generations

/-!
# A flush across a reconnect

`flush_one` is to survive a connection that is replaced while it sends: when a send on a
positioned handle fails as stale, it compares the generation with the one it read before the
send and, if they differ, tries once more on a reopened handle.

The generation it starts from is read after `begin_flush`, and a connection is installed before
it is counted. So the comparison sees the new connection if it was not counted between the
choice of the handle and that first reading, and no connection is uncounted at the second one
(`flushOne_survives`). In the two gaps it does not (`stale_in_gaps`).
-/

namespace QuicFs.System

open Lib Client Server Function

/-- A state of a mount and what its threads are about to do. -/
abbrev Mount := Config Act Act.Ret World Tid

/-- A part of a run of a mount whose kernel keeps its promise. -/
abbrev Stretch {α : Type} (S : Setup) (a : Actor) (p : Task α) (c : Mount) (x : α) (c' : Mount) :
    Prop :=
  (mountMachine S).Stretch promised (.client a) p c x c'

/-! ## What holds along a run -/

section
variable {S : Setup} {w₀ : World} {c c' : Mount} {l : MountLabel}

/-- A mount nothing has happened in yet. -/
structure Fresh (w₀ : World) : Prop where
  mounted : Mounted w₀ (fun _ => {}) fun _ => none
  counted : Counted w₀ fun _ => {}

theorem fresh_init (S : Setup) (fs : Fs) (epoch : UInt32) (root : Path)
    (perHandle total window : Nat) : Fresh (.init S fs epoch root perHandle total window) :=
  ⟨mounted_init S fs epoch root perHandle total window,
    counted_init S fs epoch root perHandle total window⟩

/-- The state is one of a run of the mount. -/
abbrev Runs (S : Setup) (w₀ : World) (c : Mount) : Prop :=
  Reach (mountMachine S).step promised.Meets (Config.idle w₀) c

theorem Runs.counted (h0 : Fresh w₀) (h : Runs S w₀ c) : ∃ g, Counted c.state g ∧
    ∀ a, (c.threads (.client a)).Follows genProtocol (g a) fun l _ => l.bumping = false :=
  gen_sound counted_keeps h0.counted h

theorem step_later (h0 : Fresh w₀) (h : Runs S w₀ c) (hs : (mountMachine S).step c l = some c') :
    c.state.Later c'.state := by
  obtain ⟨g, hg, -⟩ := Runs.counted h0 h
  rcases Machine.step_cases hs with ⟨t, a, k, ch, r, -, -, he⟩ | e | ⟨e, -, he⟩
  · exact exec_later (fun hn => (hg.rpcs hn).1) he
  · rw [e]; exact .refl _
  · obtain e := Option.some.inj he
    rw [← e]
    exact env_later ..

/-- The entry of `fh` after a step is the one before it or one that a reopen has stamped. -/
theorem step_opened {fh : Fh} {f : OpenFile} (h0 : Fresh w₀) (h : Runs S w₀ c)
    (hhome : (c.state.files.home fh).isSome) (hs : (mountMachine S).step c l = some c')
    (hf : c'.state.files.opened fh = some f) :
    c.state.files.opened fh = some f ∨ c'.state.StampOk f := by
  obtain ⟨g, hg, hfol⟩ := Runs.counted h0 h
  rcases Machine.step_cases hs with ⟨t, act, k, ch, r, -, ht, he⟩ | e | ⟨e, -, he⟩
  · cases t with
    | client a =>
      have hpre := hfol a
      rw [ht] at hpre
      rcases opened_step hg hpre.1 he hf with hf | ⟨hok, -⟩ | ⟨home, rfl⟩
      · exact .inl hf
      · exact .inr hok
      · -- a file is registered under a handle that was never used
        obtain ⟨p, s, hm, hclient, -⟩ := mount_sound mounted_keeps h0.mounted h
        have hfresh := (hclient a _ _ ht).1
        rw [((hm.opened.task a).fresh fh hfresh).2] at hhome
        cases hhome
    | stream n =>
      rw [exec_stream_files he] at hf
      exact .inl hf
  · rw [e] at hf; exact .inl hf
  · obtain e' := Option.some.inj he
    rw [← e'] at hf
    cases e <;> exact .inl hf

/-- Files are stamped with generations there have been. -/
def Dated (w : World) : Prop := ∀ fh f, w.files.opened fh = some f → f.openedGen ≤ w.net.gen

theorem dated_keeps : GenKeeps S promised fun w g => Counted w g ∧ Dated w where
  client {a act ch r w w' g} h hpre _ he := by
    refine ⟨counted_client h.1 hpre he, fun fh f hf => ?_⟩
    have hw := exec_later (fun hn => (h.1.rpcs hn).1) he
    rcases opened_step h.1 hpre he hf with hf | ⟨-, hle⟩ | ⟨home, rfl⟩
    · exact (h.2 fh f hf).trans hw.gen
    · exact hle
    · obtain ⟨-, -, hgen, -⟩ := hpre
      rw [hgen]
      exact ((h.1.task a).later hw).gen
  stream {n act ch r w w' g} h he := by
    refine ⟨counted_stream h.1 he, fun fh f hf => ?_⟩
    rw [exec_stream_files he] at hf
    exact (h.2 fh f hf).trans (exec_later (fun hn => (h.1.rpcs hn).1) he).gen
  task h ha := ⟨counted_start h.1 ha, h.2⟩
  env {e w g} h := by
    refine ⟨counted_env h.1 e, fun fh f hf => ?_⟩
    cases e <;> exact h.2 fh f hf

theorem Runs.dated (h0 : Fresh w₀) (hd : Dated w₀) (h : Runs S w₀ c) : Dated c.state := by
  obtain ⟨g, hg, -⟩ := gen_sound dated_keeps ⟨h0.counted, hd⟩ h
  exact hg.2

/-- Time passes and what is found then has the property. -/
def Past (P : World → Prop) (w w' : World) : Prop := w.Later w' ∧ P w'

theorem stretch_amid {α : Type} {a : Actor} {p : Task α} {x : α} {c₁ : Mount} {P : World → Prop}
    {Q : α → World → Prop} (h0 : Fresh w₀) (h1 : Runs S w₀ c₁)
    (hP : ∀ {c}, Reach (mountMachine S).step promised.Meets c₁ c → P c.state)
    (h : Reach (mountMachine S).step promised.Meets c₁ c) (hx : Stretch S a p c x c')
    (hp : p.Amid (World.exec S (.client a)) (Past P) c.state Q) : Q x c'.state := by
  refine Machine.Stretch.amid (fun hr => ⟨.refl _, hP hr⟩) (fun h h' => ⟨h.1.trans h'.1, h'.2⟩)
    (fun hr hK hs => ⟨step_later h0 (h1.trans hr) hs, hP (hr.step hK hs)⟩) hx h hp

theorem stretch_later {α : Type} {a : Actor} {p : Task α} {x : α} (h0 : Fresh w₀) (h : Runs S w₀ c)
    (hx : Stretch S a p c x c') : c.state.Later c'.state := by
  refine stretch_amid (P := fun _ => True) (Q := fun _ w => c.state.Later w) h0 h
    (fun _ => trivial) .refl hx ?_
  exact Prog.amid_of_stable (P := fun w => c.state.Later w)
    (fun hle hl => hl.trans hle.1) p (.refl _)

theorem stretch_reconnectGen {a : Actor} {gen : Nat} (h0 : Fresh w₀) (h : Runs S w₀ c)
    (hx : Stretch S a reconnectGen c gen c') : gen = c'.state.net.gen := by
  refine stretch_amid (P := fun _ => True) (Q := fun gen w => gen = w.net.gen) h0 h
    (fun _ => trivial) .refl hx ?_
  intro w₁ _ ch r w₂ he _
  obtain ⟨rfl, rfl⟩ := Prod.mk.inj (Option.some.inj he)
  rfl

end

/-! ## The handle that is picked -/

section
variable {S : Setup} {a : Actor} {ch : Chance} {fh : Fh} {P : World → Prop} {w : World}

/-- The connection an RPC goes over is not behind the generations read before. -/
theorem ensureConn_amid
    (hP : ∀ {w}, P w → w.net.conn = some (w.net.sessions - 1) ∧ w.net.gen < w.net.sessions) :
    ensureConn.Amid (World.exec S (.client a)) (Past P) w fun r w' =>
      w.Later w' ∧ ∀ s, r = some s → w.net.gen ≤ s := by
  intro w₁ h₁ ch (r : Option Nat) w₂ he h₂
  obtain ⟨rfl, rfl⟩ := Prod.mk.inj (Option.some.inj he)
  obtain ⟨hconn, hlt⟩ := hP h₁.2
  cases hr : w₁.net.conn.filter (!w₁.net.closed ·) with
  | some s =>
    change w.Later w₁ ∧ ∀ s', some s = some s' → _
    refine ⟨h₁.1, ?_⟩
    rintro _ ⟨⟩
    have hs := (Option.filter_eq_some_iff.mp hr).1
    rw [hconn] at hs
    have := h₁.1.gen
    obtain rfl := Option.some.inj hs
    omega
  | none =>
    intro w₃ h₃ ch (r : Option Nat) w₄ he h₄
    obtain ⟨-, hlt⟩ := hP h₃.2
    rcases exec_connect he with ⟨rfl, rfl⟩ | ⟨rfl, -⟩
    · exact ⟨h₁.1.trans h₃.1, nofun⟩
    · intro w₅ h₅ ch r w₆ he h₆
      have hlater := (h₁.1.trans h₃.1).trans ((h₄.1.trans h₅.1).trans h₆.1)
      refine ⟨hlater, ?_⟩
      rintro _ ⟨⟩
      exact (h₁.1.trans h₃.1).gen.trans (Nat.le_of_lt hlt)

/-- A handle that an Open is answered with was issued on such a connection. -/
theorem rpcStat_amid {purpose : Purpose} {request : UInt64 → Request}
    (hg : ∀ seq, grants (request seq) = true)
    (hP : ∀ {w}, P w → w.net.conn = some (w.net.sessions - 1) ∧ w.net.gen < w.net.sessions) :
    (rpcStat purpose request).Amid (World.exec S (.client a)) (Past P) w fun r w' =>
      ∀ resp st, r = .ok (resp, st) → ∃ s, w.net.gen ≤ s ∧ w'.IssuedOn s resp.handle := by
  refine Prog.Amid.bind (Prog.Amid.mono (Q := fun r w' => ∀ resp, r = .ok resp →
    ∃ s, w.net.gen ≤ s ∧ w'.IssuedOn s resp.handle) ?_ fun r w' h => ?_)
  · intro w₁ h₁ ch (seq : UInt64) w₂ he h₂
    change Prog.Amid _ _ (ensureConn.bind _) _ _
    refine Prog.Amid.bind (Prog.Amid.mono (ensureConn_amid hP) fun r w₃ h₃ => ?_)
    cases r with
    | none => exact fun resp h => by cases h
    | some s =>
      have hs : w.net.gen ≤ s := (h₁.1.trans h₂.1).gen.trans (h₃.2 s rfl)
      intro w₄ h₄ ch (n : Option Nat) w₅ he h₅
      rcases exec_send he with ⟨rfl, rfl⟩ | ⟨rfl, rfl⟩
      · exact fun resp h => by cases h
      · intro w₆ h₆ ch (r : Option Response) w₇ he h₇
        obtain ⟨rpc₆, hn₆, hs₆, hq₆⟩ := h₆.1.rpcs (update_self ..)
        obtain ⟨rpc₇, hn₇, hs₇, hq₇⟩ := h₇.1.rpcs hn₆
        obtain ⟨rpc, -, ⟨rfl, -⟩ | ⟨resp, rfl, hans, rfl⟩⟩ := exec_await he
        · exact fun resp h => by cases h
        · intro resp' h
          change checkStatus resp = _ at h
          unfold checkStatus at h
          split at h
          · next hok =>
            cases h
            refine ⟨s, hs, _, rpc₇, resp, hn₇, hs₇.trans hs₆, ?_,
              mem_replies_of_answersOf hans, hok, rfl⟩
            rw [hq₇, hq₆]
            exact hg seq
          · cases h
  · cases r with
    | error e => exact fun resp st h => by cases h
    | ok r =>
      dsimp only
      split
      · exact fun resp st h => by cases h
      · rintro resp st ⟨⟩
        exact h r rfl

/-- What is known of the entry of `fh` once the handle of a flush was picked. -/
structure Picked (G : Nat) (fh : Fh) (w : World) : Prop where
  conn : w.net.conn = some (w.net.sessions - 1)
  gen : w.net.gen < w.net.sessions
  stamp : ∀ f, w.files.opened fh = some f → f.openedGen ≤ G ∨ w.StampOk f

/-- **A handle picked after a reconnect is one of the new connection.** -/
theorem ensureLive_amid {G : Nat} (hG : G < w.net.gen) :
    (ensureLive fh true).Amid (World.exec S (.client a)) (Past (Picked G fh)) w fun r w' =>
      ∀ handle, r = some handle → ∃ s, w.net.gen ≤ s ∧ w'.IssuedOn s handle := by
  intro w₁ h₁ ch (cur : Nat) w₂ he h₂
  obtain ⟨rfl, rfl⟩ := Prod.mk.inj (Option.some.inj he)
  intro w₃ h₃ ch (f : Option OpenFile) w₄ he h₄
  obtain ⟨rfl, rfl⟩ := Prod.mk.inj (Option.some.inj he)
  cases hf : w₃.files.opened fh with
  | none => exact fun handle h => by cases h
  | some f =>
    change Prog.Amid _ _ (if f.openedGen = w₁.net.gen then _ else _) _ _
    split
    · next hgen =>
      rintro handle ⟨⟩
      rcases h₃.2.stamp f hf with hle | ⟨s, hs, hi⟩
      · exact absurd (h₁.1.gen.trans (hgen ▸ hle)) (Nat.not_le.mpr hG)
      · exact ⟨s, h₁.1.gen.trans (hgen ▸ hs), hi⟩
    · refine Prog.Amid.bind
        (Prog.Amid.mono (rpcStat_amid (fun _ => rfl) fun hp => ⟨hp.conn, hp.gen⟩)
        fun r w₅ h₅ => ?_)
      cases r with
      | error e => exact fun handle h => by cases h
      | ok r =>
        obtain ⟨s, hs, hi⟩ := h₅ r.1 r.2 rfl
        intro w₆ h₆ ch _ w₇ _ h₇
        have hi := (hi.later h₆.1).later h₇.1
        change Prog.Amid _ _ ((dropAppends fh f.isAppend).bind _) _ _
        refine Prog.Amid.bind
          (Prog.Amid.mono (Prog.amid_of_stable (P := fun w => w.IssuedOn s r.1.handle)
          (fun hle hi => hi.later hle.1) (dropAppends fh f.isAppend) hi) fun _ w₈ hi => ?_)
        rintro handle ⟨⟩
        exact ⟨s, (h₁.1.trans h₃.1).gen.trans hs, hi⟩

theorem ensureLive_home (hP : ∀ {w}, P w → (w.files.opened fh).isSome → (w.files.home fh).isSome) :
    (ensureLive fh true).Amid (World.exec S (.client a)) (Past P) w fun r w' =>
      ∀ handle, r = some handle → (w'.files.home fh).isSome := by
  intro w₁ h₁ ch (cur : Nat) w₂ _ h₂ w₃ h₃ ch (f : Option OpenFile) w₄ he h₄
  obtain ⟨rfl, rfl⟩ := Prod.mk.inj (Option.some.inj he)
  cases hf : w₃.files.opened fh with
  | none => exact fun handle h => by cases h
  | some f =>
    have hhome := hP h₃.2 (by rw [hf]; rfl)
    exact Prog.Amid.mono (Prog.amid_of_stable (P := fun w => (w.files.home fh).isSome)
      (fun hle h => hle.1.home h) _ hhome) fun _ _ h _ _ => h

end

section
variable {S : Setup} {w₀ : World} {c c₁ : Mount} {fh : Fh}

/-- From a handle's choice on its entry is the old one or one that a reopen has stamped. -/
theorem picked_reach (h0 : Fresh w₀) (hd : Dated w₀) (h1 : Runs S w₀ c₁)
    (hhome : (c₁.state.files.home fh).isSome)
    (h : Reach (mountMachine S).step promised.Meets c₁ c) : Picked c₁.state.net.gen fh c.state := by
  have hfiles : (c.state.files.home fh).isSome ∧
      ∀ f, c.state.files.opened fh = some f → f.openedGen ≤ c₁.state.net.gen ∨
      c.state.StampOk f := by
    induction h with
    | refl => exact ⟨hhome, fun f hf => .inl (Runs.dated h0 hd h1 fh f hf)⟩
    | step h hK hs ih =>
      have hlater := step_later h0 (h1.trans h) hs
      refine ⟨hlater.home ih.1, fun f hf => ?_⟩
      rcases step_opened h0 (h1.trans h) ih.1 hs hf with hf | hok
      · exact (ih.2 f hf).imp_right fun hok => hok.later hlater
      · exact .inr hok
  obtain ⟨g, hg, -⟩ := Runs.counted h0 (h1.trans h)
  have hcount := hg.counted
  exact ⟨hg.conn, by omega, hfiles.2⟩

end

/-! ## The first attempt of a flush -/

/-- The stages of an attempt of `flush_one` that failed: the state each of them ends in, and what
it found. -/
structure FlushAttempt where
  start : Mount
  handle : ServerHandle
  picked : Mount
  batch : FlushBatch
  begun : Mount
  genBefore : Nat
  sampled : Mount
  failed : Mount
  file : Option OpenFile
  looked : Mount
  kept : Mount
  gen : Nat
  decided : Mount

/-- A first attempt on a positioned handle whose send fails as stale, among the steps of the other
threads. -/
structure StaleAttempt (S : Setup) (a : Actor) (fh : Fh) (x : FlushAttempt) : Prop where
  picks : Stretch S a (ensureLive fh true) x.start (some x.handle) x.picked
  begins : Stretch S a (beginFlush fh) x.picked (some x.batch) x.begun
  samples : Stretch S a reconnectGen x.begun x.genBefore x.sampled
  fails : Stretch S a (sendBatch S.chunkSize fh x.handle x.batch.chunks) x.sampled
    (.error (.server .stale)) x.failed
  looks : Stretch S a (getOpen fh) x.failed x.file x.looked
  positioned : (x.file.map OpenFile.isAppend).getD false = false
  keeps : Stretch S a (failFlush fh) x.looked () x.kept
  decides : Stretch S a reconnectGen x.kept x.gen x.decided

section
variable {S : Setup} {w₀ : World} {a : Actor} {fh : Fh} {x : FlushAttempt}
    {κ : Except RpcError Unit → Task Unit}

/-- What `flush_one` does after it: a second attempt exactly if the generation has changed. -/
theorem StaleAttempt.decided (hx : StaleAttempt S a fh x)
    (hprog : x.start.threads (.client a) = (flushOne S.chunkSize fh true).bind κ) :
    x.decided.threads (.client a) =
      if x.gen ≠ x.genBefore then (flushAttempts S.chunkSize fh true 1 (.server .stale)).bind κ
      else κ (.error (.server .stale)) := by
  have hpicked := hx.picks.threads_bind hprog
  have hbegun := hx.begins.threads_bind hpicked
  have hsampled := hx.samples.threads_bind hbegun
  have hfailed := hx.fails.threads_bind hsampled
  have hlooked := hx.looks.threads_bind hfailed
  simp only [hx.positioned, Bool.false_eq_true, if_false, if_true] at hlooked
  have hkept := hx.keeps.threads_bind hlooked
  have hdecided := hx.decides.threads_bind hkept
  rw [hdecided]
  split <;> rfl

theorem StaleAttempt.runs (hx : StaleAttempt S a fh x) (h : Runs S w₀ x.start) :
    Runs S w₀ x.picked ∧ Runs S w₀ x.begun ∧ Runs S w₀ x.sampled ∧ Runs S w₀ x.failed ∧
      Runs S w₀ x.kept ∧
      Reach (mountMachine S).step promised.Meets x.picked x.decided := by
  have hdecided : Reach (mountMachine S).step promised.Meets x.picked x.decided :=
    hx.decides.reach
      (hx.keeps.reach (hx.looks.reach (hx.fails.reach (hx.samples.reach (hx.begins.reach .refl)))))
  have hpicked := hx.picks.reach h
  have hbegun := hx.begins.reach hpicked
  have hsampled := hx.samples.reach hbegun
  have hfailed := hx.fails.reach hsampled
  exact ⟨hpicked, hbegun, hsampled, hfailed, hx.keeps.reach (hx.looks.reach hfailed), hdecided⟩

end

theorem dated_init (S : Setup) (fs : Fs) (epoch : UInt32) (root : Path)
    (perHandle total window : Nat) :
    Dated (.init S fs epoch root perHandle total window) := fun _ _ hf => by cases hf

/-- **A flush survives a reconnect** between the choice of the handle and the failed send, if the
new connection was not counted before the generation was read and none is uncounted when the
generations are compared: `flush_one` makes a second attempt, and the handle it picks for it was
issued on that connection or a later one. -/
theorem flushOne_survives (S : Setup) (fs : Fs) (epoch : UInt32) (root : Path)
    (perHandle total window : Nat) {a : Actor} {fh : Fh} {κ : Except RpcError Unit → Task Unit}
    {x : FlushAttempt} (hrun : Runs S (.init S fs epoch root perHandle total window) x.start)
    (hprog : x.start.threads (.client a) = (flushOne S.chunkSize fh true).bind κ)
    (hx : StaleAttempt S a fh x)
    (hreplaced : x.picked.state.net.sessions < x.failed.state.net.sessions)
    (hsampled : x.sampled.state.net.gen < x.picked.state.net.sessions)
    (hcounted : ∀ b k, x.decided.threads (.client b) ≠ .act (.net .bumpGen) k) :
    x.decided.threads (.client a) = (flushAttempts S.chunkSize fh true 1 (.server .stale)).bind κ ∧
      ∀ {handle : ServerHandle} {c : Mount}, Stretch S a (ensureLive fh true) x.decided
      (some handle) c →
        ∃ s, x.failed.state.net.sessions ≤ s + 1 ∧ c.state.IssuedOn s handle := by
  have h0 := fresh_init S fs epoch root perHandle total window
  have hd := dated_init S fs epoch root perHandle total window
  obtain ⟨hpicked, hbegun, hsamp, hfailed, hkept, hreach⟩ := hx.runs hrun
  have hdecided := hpicked.trans hreach
  -- the comparison
  have hbefore := stretch_reconnectGen h0 hbegun hx.samples
  have hgen := stretch_reconnectGen h0 hkept hx.decides
  have hall : x.decided.state.net.gen + 1 = x.decided.state.net.sessions := by
    obtain ⟨g, hg, hfol⟩ := Runs.counted h0 hdecided
    exact hg.all hfol hcounted
  have hlate : x.failed.state.net.sessions ≤ x.decided.state.net.sessions := by
    have hlooked := hx.looks.reach hfailed
    exact (stretch_later h0 hfailed hx.looks).sessions.trans
      ((stretch_later h0 hlooked hx.keeps).sessions.trans
        (stretch_later h0 hkept hx.decides).sessions)
  have hearly : x.picked.state.net.gen ≤ x.sampled.state.net.gen :=
    (stretch_later h0 hpicked hx.begins).gen.trans (stretch_later h0 hbegun hx.samples).gen
  have hne : x.gen ≠ x.genBefore := by omega
  refine ⟨(hx.decided hprog).trans (if_pos hne), fun {handle c} hretry => ?_⟩
  -- the handle of the second attempt
  have hhome : (x.picked.state.files.home fh).isSome := by
    refine stretch_amid (P := fun w => (w.files.opened fh).isSome → (w.files.home fh).isSome)
      (Q := fun r w => ∀ handle, r = some handle → (w.files.home fh).isSome) h0 hrun
        (fun hr hopened => ?_) .refl
      hx.picks (ensureLive_home id) x.handle rfl
    obtain ⟨p, s, hm, -⟩ := mount_sound mounted_keeps h0.mounted (hrun.trans hr)
    exact hm.opened.opened hopened
  have hG : x.picked.state.net.gen < x.decided.state.net.gen := by omega
  obtain ⟨s, hs, hi⟩ := stretch_amid h0 hpicked (picked_reach h0 hd hpicked hhome) hreach hretry
    (ensureLive_amid hG) handle rfl
  exact ⟨s, by omega, hi⟩

/-! ## Attempts that can be evaluated -/

/-- The request of a callback taken from the kernel. -/
def Mount.call (S : Setup) (c : Mount) (cb : Callback) : Mount where
  state := { c.state with call := some ⟨cb, c.state.buf.pool.next⟩ }
  threads := update c.threads (.client .fuse)
    ((callback S.chunkSize cb).bind fun a => Prog.call (Act.dev (.reply a)))

theorem Runs.call {S : Setup} {w₀ : World} {c : Mount} {cb : Callback} (h : Runs S w₀ c)
    (hidle : (c.threads (.client .fuse)).isRet = true) (hcb : c.state.Promised cb) :
    Runs S w₀ (c.call S cb) := by
  have hret := Prog.eq_ret_of_isRet hidle
  have hstart : (mountMachine S).step c (.start (.client .fuse) (.callback cb)) =
      some ⟨c.state, update c.threads (.client .fuse) (serve S.chunkSize cb)⟩ := by
    simp only [Machine.step, hret]
    rfl
  have hmeets : promised.Meets c (.start (.client .fuse) (.callback cb)) := hcb
  refine (h.step hmeets hstart).step (l := .run (.client .fuse) {}) ?_ ?_
  · simp only [Cond.Meets, update_self]
    trivial
  · simp only [Machine.step, update_self, update_idem]
    rfl

theorem callback_flush (chunkSize : UInt32) (fh : Fh) (κ' : Answer → Task Unit) :
    ∃ κ, (callback chunkSize (.flush fh)).bind κ' = (flushOne chunkSize fh true).bind κ := by
  have h : (callback chunkSize (.flush fh)).bind κ' =
      ((((flushOne chunkSize fh true).bind _).bind _).bind _).bind κ' := rfl
  rw [Prog.bind_assoc, Prog.bind_assoc, Prog.bind_assoc] at h
  exact ⟨_, h⟩

/-- Evaluate an attempt along given labels. -/
def FlushAttempt.eval (S : Setup) (a : Actor) (fh : Fh) (start : Mount) (ls : List MountLabel) :
    Option FlushAttempt :=
  ((mountMachine S).stretch promised (.client a) ls (ensureLive fh true) start).bind fun picked =>
  picked.1.bind fun handle =>
  ((mountMachine S).stretch promised (.client a) picked.2.2 (beginFlush fh) picked.2.1).bind
    fun begun =>
  begun.1.bind fun batch =>
  ((mountMachine S).stretch promised (.client a) begun.2.2 reconnectGen begun.2.1).bind
    fun sampled =>
  ((mountMachine S).stretch promised (.client a) sampled.2.2
    (sendBatch S.chunkSize fh handle batch.chunks)
    sampled.2.1).bind fun failed =>
  if failed.1 = .error (.server .stale) then
    ((mountMachine S).stretch promised (.client a) failed.2.2 (getOpen fh) failed.2.1).bind
      fun looked =>
    if (looked.1.map OpenFile.isAppend).getD false = false then
      ((mountMachine S).stretch promised (.client a) looked.2.2 (failFlush fh) looked.2.1).bind
        fun kept =>
      ((mountMachine S).stretch promised (.client a) kept.2.2 reconnectGen kept.2.1).map
        fun decided =>
        ⟨start, handle, picked.2.1, batch, begun.2.1, sampled.1, sampled.2.1, failed.2.1,
          looked.1, looked.2.1,
          kept.2.1, decided.1, decided.2.1⟩
    else none
  else none

theorem StaleAttempt.of_eval {S : Setup} {a : Actor} {fh : Fh} {c : Mount} {ls : List MountLabel}
    {x : FlushAttempt} {κ : Except RpcError Unit → Task Unit}
    (h : FlushAttempt.eval S a fh c ls = some x)
    (hprog : c.threads (.client a) = (flushOne S.chunkSize fh true).bind κ) : x.start = c ∧
    StaleAttempt S a fh x := by
  unfold FlushAttempt.eval at h
  obtain ⟨⟨live, picked, ls₁⟩, h₁, h⟩ := Option.bind_eq_some_iff.mp h
  obtain ⟨handle, rfl, h⟩ := Option.bind_eq_some_iff.mp h
  obtain ⟨⟨begun?, begun, ls₂⟩, h₂, h⟩ := Option.bind_eq_some_iff.mp h
  obtain ⟨batch, rfl, h⟩ := Option.bind_eq_some_iff.mp h
  obtain ⟨⟨genBefore, sampled, ls₃⟩, h₃, h⟩ := Option.bind_eq_some_iff.mp h
  obtain ⟨⟨sent, failed, ls₄⟩, h₄, h⟩ := Option.bind_eq_some_iff.mp h
  split at h
  · next hstale =>
    obtain rfl : sent = Except.error (.server .stale) := hstale
    obtain ⟨⟨file, looked, ls₅⟩, h₅, h⟩ := Option.bind_eq_some_iff.mp h
    split at h
    · next hpos =>
      obtain ⟨⟨u, kept, ls₆⟩, h₆, h⟩ := Option.bind_eq_some_iff.mp h
      obtain ⟨⟨gen, decided, ls₇⟩, h₇, rfl⟩ := Option.map_eq_some_iff.mp h
      have s₁ : Stretch S a _ c (some handle) picked :=
        .of_eval h₁ (hprog.trans (Prog.bind_assoc ..))
      have t₁ := s₁.threads_bind hprog
      have s₂ : Stretch S a _ picked (some batch) begun :=
        .of_eval h₂ (t₁.trans (Prog.bind_assoc ..))
      have t₂ := s₂.threads_bind t₁
      have s₃ : Stretch S a _ begun genBefore sampled := .of_eval h₃ (t₂.trans (Prog.bind_assoc ..))
      have t₃ := s₃.threads_bind t₂
      have s₄ : Stretch S a _ sampled (Except.error (RpcError.server .stale)) failed :=
        .of_eval h₄ (t₃.trans (Prog.bind_assoc ..))
      have t₄ := s₄.threads_bind t₃
      have s₅ : Stretch S a _ failed file looked := .of_eval h₅ (t₄.trans (Prog.bind_assoc ..))
      have t₅ := s₅.threads_bind t₄
      have hpos : (file.map OpenFile.isAppend).getD false = false := hpos
      simp only [hpos, Bool.false_eq_true, if_false, if_true] at t₅
      have s₆ : Stretch S a _ looked () kept := .of_eval h₆ (t₅.trans (Prog.bind_assoc ..))
      have t₆ := s₆.threads_bind t₅
      have s₇ : Stretch S a _ kept gen decided := .of_eval h₇ (t₆.trans (Prog.bind_assoc ..))
      exact ⟨rfl, s₁, s₂, s₃, s₄, s₅, hpos, s₆, s₇⟩
    · cases h
  · cases h

/-- `/a` and `/b` are created as the handles `1` and `2`, and both are written to; the write to
`/b` is due to be flushed. -/
def twoDirty : List MountLabel :=
  createA ++ called (.create 1 ['b'] 0o644 2) 5 ++ taken 1 7 ++ acts (.client .fuse) 6 ++
    called (.write 2 0 [6]) 5 ++ [.env (.tick 20)] ++ called (.write 1 0 [5]) 5

/-- The connection closes and a round of the background task for the handle `2` takes `n` steps: six
install a new connection, a seventh counts it. -/
def replaced (n : Nat) : List MountLabel :=
  .env (.close 0) :: .start (.client .bg) .tick :: .run (.client .bg) {} :: .run (.client .bg)
    { iter := [2] } ::
    acts (.client .bg) n

/-- An attempt of `flush` on the handle `1`, evaluated from where the kernel asks for it. -/
def flushA (c : Mount) (ls : List MountLabel) : Option FlushAttempt :=
  FlushAttempt.eval smallSetup .fuse 1 (c.call smallSetup (.flush 1)) ls

/-- What the attempt shows: the connections when the handle was picked and when the send failed, and
the generations that are compared. -/
def FlushAttempt.seen (x : FlushAttempt) : Nat × Nat × Nat × Nat :=
  (x.picked.state.net.sessions, x.failed.state.net.sessions, x.genBefore, x.gen)

/-- A run to an attempt of `flush` that is evaluated. -/
theorem flushA_runs (ls : List MountLabel) (P : FlushAttempt → Prop) [DecidablePred P]
    (h : (execBy (mountMachine smallSetup).step promised.Meets (Config.idle smallMount)
      twoDirty).any (fun c =>
      decide ((c.threads (.client .fuse)).isRet = true ∧ c.state.Promised (.flush 1)) &&
        (flushA c ls).any fun x => decide (P x)) = true) :
    ∃ κ x, Runs smallSetup smallMount x.start ∧
      x.start.threads (.client .fuse) = (flushOne smallSetup.chunkSize 1 true).bind κ ∧
      StaleAttempt smallSetup .fuse 1 x ∧ P x := by
  obtain ⟨c, hc, h⟩ := (Option.any_eq_true ..).mp h
  obtain ⟨hcall, hx⟩ := (Bool.and_eq_true ..).mp h
  obtain ⟨hidle, hcb⟩ := of_decide_eq_true hcall
  obtain ⟨x, hx, hP⟩ := (Option.any_eq_true ..).mp hx
  have hrun : Runs smallSetup smallMount c := .of_execBy .refl hc
  obtain ⟨κ, hκ⟩ := callback_flush smallSetup.chunkSize 1 fun a => Prog.call (Act.dev (.reply a))
  have hprog : (c.call smallSetup (.flush 1)).threads (.client .fuse) =
      (flushOne smallSetup.chunkSize 1 true).bind κ := by
    rw [← hκ]
    simp only [Mount.call, update_self]
  obtain ⟨hstart, hstale⟩ := StaleAttempt.of_eval hx hprog
  exact ⟨κ, x, hstart ▸ hrun.call hidle hcb, hstart ▸ hprog, hstale, of_decide_eq_true hP⟩

/-- The connection is replaced and counted while the flush sends: there is a second attempt. -/
theorem flushOne_survives_counted : ∃ κ x, Runs smallSetup smallMount x.start ∧
    StaleAttempt smallSetup .fuse 1 x ∧ x.seen = (1, 2, 0, 1) ∧
    x.decided.threads (.client .fuse) =
      (flushAttempts smallSetup.chunkSize 1 true 1 (.server .stale)).bind κ := by
  obtain ⟨κ, x, hrun, hprog, hx, hseen, hgen, hcounted⟩ := flushA_runs
    (acts (.client .fuse) 4 ++ replaced 7 ++ acts (.client .fuse) 3 ++ taken 2 3 ++
      acts (.client .fuse) 4)
    (fun x => x.seen = (1, 2, 0, 1) ∧ x.sampled.state.net.gen = 0 ∧
      ∀ b, ¬Counting (x.decided.threads (.client b)))
    (by decide +kernel)
  have hpicked : x.picked.state.net.sessions = 1 := congrArg Prod.fst hseen
  have hfailed : x.failed.state.net.sessions = 2 := congrArg (fun s => s.2.1) hseen
  have hsurvives := flushOne_survives smallSetup _ _ _ _ _ _ hrun hprog hx (by omega) (by omega)
    fun b k e => hcounted b (by rw [e]; trivial)
  exact ⟨κ, x, hrun, hx, hseen, hsurvives.1⟩

/-- In a run of the small mount the connection is replaced after `flush_one` picked its handle, the
send is answered `Stale`, and `flush_one` returns that error. -/
def FlushAttempt.GivenUp (x : FlushAttempt) : Prop :=
  ∃ κ, Runs smallSetup smallMount x.start ∧
    x.start.threads (.client .fuse) = (flushOne smallSetup.chunkSize 1 true).bind κ ∧
    StaleAttempt smallSetup .fuse 1 x ∧ x.picked.state.net.sessions < x.failed.state.net.sessions ∧
    x.decided.threads (.client .fuse) = κ (.error (.server .stale))

/-- **The two gaps**: a connection that is counted right after the handle was picked, so that the
generation read before the send is already the new one, and one that is installed but not counted
yet when the generations are compared. -/
theorem stale_in_gaps :
    (∃ x : FlushAttempt, x.GivenUp ∧
      ∀ b k, x.decided.threads (.client b) ≠ .act (.net .bumpGen) k) ∧
    ∃ x : FlushAttempt, x.GivenUp ∧ x.sampled.state.net.gen < x.picked.state.net.sessions := by
  constructor
  · obtain ⟨κ, x, hrun, hprog, hx, hlt, hgen, hcounted⟩ := flushA_runs
      (acts (.client .fuse) 2 ++ replaced 7 ++ acts (.client .fuse) 5 ++ taken 2 3 ++
        acts (.client .fuse) 4)
      (fun x => x.picked.state.net.sessions < x.failed.state.net.sessions ∧ x.gen = x.genBefore ∧
        ∀ b, ¬Counting (x.decided.threads (.client b)))
      (by decide +kernel)
    exact ⟨x, ⟨κ, hrun, hprog, hx, hlt, (hx.decided hprog).trans (if_neg (not_not.mpr hgen))⟩,
      fun b k e => hcounted b (by rw [e]; trivial)⟩
  · obtain ⟨κ, x, hrun, hprog, hx, hlt, hsampled, hgen⟩ := flushA_runs
      (acts (.client .fuse) 4 ++ replaced 6 ++ acts (.client .fuse) 3 ++ taken 2 3 ++
        acts (.client .fuse) 4)
      (fun x => x.picked.state.net.sessions < x.failed.state.net.sessions ∧
        x.sampled.state.net.gen < x.picked.state.net.sessions ∧ x.gen = x.genBefore)
      (by decide +kernel)
    exact ⟨x, ⟨κ, hrun, hprog, hx, hlt, (hx.decided hprog).trans (if_neg (not_not.mpr hgen))⟩,
      hsampled⟩

end QuicFs.System
