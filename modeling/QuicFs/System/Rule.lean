import QuicFs.System.Discipline

/-!
# The invariant rule of a mount

An invariant of a mount speaks about the state, the phases of the client's tasks and the
phases of the server's streams. `Keeps S K J I` says that every step the protocols and the
condition `K` allow keeps `I`, given `J`; `mount_sound` that `I` then holds in every state
reached, for phases in which all tasks follow their protocols.

`promised` is what the kernel promises about its requests: the file handle of a callback is
one that is open, and a write has data.
-/

namespace QuicFs.System

open Lib Client Server Function

/-- A condition on the steps of a mount. -/
abbrev MountCond := Cond Act World Tid Chance Job Env

/-- The phases of the client's tasks. -/
abbrev Clients := Actor → ClientPhase

/-- The phases of the server's streams, `none` before the request is taken up. -/
abbrev Streams := Nat → Option StreamPhase

def streamSide : Protocol Act Act.Ret (Option StreamPhase) where
  pre l a :=
    match a, l with
    | .accept, l => l = none
    | .sys a, some l => streamProtocol.pre l a
    | _, _ => False
  post l a r :=
    match a, l, r with
    | .sys a, some l, r => streamProtocol.post l a r
    | _, _, _ => True
  next l a r :=
    match a, r with
    | .accept, r => some (.start (r : Incoming).session (r : Incoming).request)
    | .sys a, r => l.map (streamProtocol.next · a r)
    | _, _ => l

theorem onServer_follows {α : Type} {p : Calls α} {l : StreamPhase} {Q : StreamPhase → α → Prop}
    (h : Follows l p Q) :
    (onServer p).Follows streamSide (some l) fun l' x => ∃ l, l' = some l ∧ Q l x := by
  induction p generalizing l with
  | ret x => exact ⟨l, rfl, h⟩
  | act a k ih => exact ⟨h.1, fun r hr => ih r (h.2 r hr)⟩

theorem serveStream_follows (S : Setup) :
    (serveStream S).Follows streamSide none fun _ _ => True := by
  refine ⟨rfl, fun (q : Incoming) _ => ?_⟩
  exact (onServer_follows (handle_follows S.ex S.dur q.frames q.session q.request)).mono
    fun _ _ _ => trivial

/-- The phase of a thread, as that of a task or of a stream. -/
structure Phase where
  client : ClientPhase := {}
  stream : Option StreamPhase := none

def mountProtocol (S : Setup) : Tid → Protocol Act Act.Ret Phase
  | .client _ => (clientProtocol S.chunkSize).within Phase.client fun m l => { m with client := l }
  | .stream _ => streamSide.within Phase.stream fun m l => { m with stream := l }

/-- The phase a task of the client starts its job in. -/
def firstPhase : Actor → Job → ClientPhase
  | .fuse, .callback cb => { cb := some cb }
  | _, _ => {}

/-- An invariant of a mount. -/
abbrev Inv := World → Clients → Streams → Prop

/-- Every step that `K` and the protocols allow keeps `I`, given `J`. -/
structure Keeps (S : Setup) (K : MountCond) (J I : Inv) : Prop where
  client : ∀ {a act ch r w w' p s}, J w p s → I w p s → (clientProtocol S.chunkSize).pre (p a) act →
    K.run w (.client a) act ch → World.exec S (.client a) act ch w = some (r, w') →
    I w' (update p a ((clientProtocol S.chunkSize).next (p a) act r)) s
  accept : ∀ {n ch w w' p s} {q : Incoming}, J w p s → I w p s → s n = none →
    K.run w (.stream n) .accept ch → World.exec S (.stream n) .accept ch w = some (q, w') →
    I w' p (update s n (some (.start q.session q.request)))
  sys : ∀ {n a ch w w' p s l} {r : a.Ret}, J w p s → I w p s → s n = some l →
    streamProtocol.pre l a → K.run w (.stream n) (.sys a) ch →
    World.exec S (.stream n) (.sys a) ch w = some (r, w') →
    I w' p (update s n (some (streamProtocol.next l a r)))
  task : ∀ {a job w p s}, J w p s → I w p s → (p a).Rested → K.start w (.client a) job →
    I w (update p a (firstPhase a job)) s
  stream : ∀ {n job w p s}, J w p s → I w p s → K.start w (.stream n) job →
    I w p (update s n none)
  env : ∀ {e w p s}, J w p s → I w p s → K.env w e → I (w.env e) p s

section
variable {S : Setup} {K K' : MountCond} {I J : Inv}

/-- Two invariants, the second by means of the first. -/
theorem Keeps.and (hJ : Keeps S K (fun _ _ _ => True) J) (hI : Keeps S K J I) :
    Keeps S K (fun _ _ _ => True) fun w p s => J w p s ∧ I w p s where
  client _ h hp hK he := ⟨hJ.client trivial h.1 hp hK he, hI.client h.1 h.2 hp hK he⟩
  accept _ h hn hK he := ⟨hJ.accept trivial h.1 hn hK he, hI.accept h.1 h.2 hn hK he⟩
  sys _ h hn hp hK he := ⟨hJ.sys trivial h.1 hn hp hK he, hI.sys h.1 h.2 hn hp hK he⟩
  task _ h hr hK := ⟨hJ.task trivial h.1 hr hK, hI.task h.1 h.2 hr hK⟩
  stream _ h hK := ⟨hJ.stream trivial h.1 hK, hI.stream h.1 h.2 hK⟩
  env _ h hK := ⟨hJ.env trivial h.1 hK, hI.env h.1 h.2 hK⟩

/-- The same invariant in other words. -/
theorem Keeps.imp {I' : Inv} (h : Keeps S K (fun _ _ _ => True) I)
    (hto : ∀ {w p s}, I w p s → I' w p s) (hfrom : ∀ {w p s}, I' w p s → I w p s) :
    Keeps S K (fun _ _ _ => True) I' where
  client _ hi hp hK he := hto (h.client trivial (hfrom hi) hp hK he)
  accept _ hi hn hK he := hto (h.accept trivial (hfrom hi) hn hK he)
  sys _ hi hn hp hK he := hto (h.sys trivial (hfrom hi) hn hp hK he)
  task _ hi hr hK := hto (h.task trivial (hfrom hi) hr hK)
  stream _ hi hK := hto (h.stream trivial (hfrom hi) hK)
  env _ hi hK := hto (h.env trivial (hfrom hi) hK)

/-- A stronger condition and a stronger hypothesis. -/
theorem Keeps.mono {J' : Inv} (h : Keeps S K J I)
    (hrun : ∀ {w t a c}, K'.run w t a c → K.run w t a c)
    (hstart : ∀ {w t q}, K'.start w t q → K.start w t q) (henv : ∀ {w e}, K'.env w e → K.env w e)
    (hJ : ∀ {w p s}, J' w p s → J w p s) : Keeps S K' J' I where
  client hj hi hp hK he := h.client (hJ hj) hi hp (hrun hK) he
  accept hj hi hn hK he := h.accept (hJ hj) hi hn (hrun hK) he
  sys hj hi hn hp hK he := h.sys (hJ hj) hi hn hp (hrun hK) he
  task hj hi hr hK := h.task (hJ hj) hi hr (hstart hK)
  stream hj hi hK := h.stream (hJ hj) hi (hstart hK)
  env hj hi hK := h.env (hJ hj) hi (henv hK)

theorem update_clients (l : Tid → Phase) (a : Actor) (x : Phase) :
    (fun b => (update l (.client a) x (.client b)).client) =
      update (fun b => (l (.client b)).client) a x.client := by
  funext b
  by_cases h : b = a
  · subst h; simp
  · simp [h]

theorem update_streams (l : Tid → Phase) (n : Nat) (x : Phase) :
    (fun m => (update l (.stream n) x (.stream m)).stream) =
      update (fun m => (l (.stream m)).stream) n x.stream := by
  funext m
  by_cases h : m = n
  · subst h; simp
  · simp [h]

/-- A step of a stream is one system call on the host, recorded in the history. -/
theorem exec_sys {n : Nat} {a : Sys} {ch : Chance} {w w' : World} {r : a.Ret}
    (he : World.exec S (.stream n) (.sys a) ch w = some (r, w')) :
    ∃ host, a.exec S.kernel S.ex n ch.toChoice w.host = some (r, host) ∧
      w' = { w with host, hist := (w.hist.afterSys (w.net.rpcs n) a r).record n a r } := by
  obtain ⟨⟨r', host⟩, h, e⟩ := Option.map_eq_some_iff.mp he
  obtain ⟨rfl, rfl⟩ := Prod.mk.inj e
  exact ⟨host, h, rfl⟩

theorem mountProtocol_post {t : Tid} {m : Phase} {act : Act} {ch : Chance} {r : act.Ret}
    {w w' : World} (he : World.exec S t act ch w = some (r, w')) :
    (mountProtocol S t).post m act r := by
  cases t with
  | client a => trivial
  | stream n =>
    rcases m with ⟨c, _ | l⟩
    · cases act <;> trivial
    · cases act with
      | sys a =>
        obtain ⟨host, h, -⟩ := exec_sys he
        exact exec_post (l := l) h
      | _ => trivial

theorem prog_follows {a : Actor} (job : Job) :
    TaskFollows S.chunkSize (firstPhase a job) ((mountMachine S).prog (.client a) job)
      fun l _ => l.Rested := by
  have hrest : ClientPhase.Rested {} := ⟨⟨rfl, rfl, rfl, rfl⟩, rfl, rfl⟩
  cases a <;> cases job <;>
    first
    | exact serve_follows _
    | exact backgroundTick_follows hrest
    | exact unmountFlush_follows hrest
    | exact hrest

/-- The phases of a mount as an invariant sees them. -/
def Inv.over (I : Inv) (w : World) (l : Tid → Phase) : Prop :=
  I w (fun a => (l (.client a)).client) fun n => (l (.stream n)).stream

def Phase.Ended (m : Phase) : Tid → Prop
  | .client _ => m.client.Rested
  | .stream _ => True

theorem Keeps.run (hk : Keeps S K (fun _ _ _ => True) I) {t : Tid} {act : Act} {ch : Chance}
    {r : act.Ret} {w w' : World} {l : Tid → Phase} (hi : I.over w l)
    (hpre : (mountProtocol S t).pre (l t) act) (hK : K.run w t act ch)
    (he : World.exec S t act ch w = some (r, w')) :
    I.over w' (update l t ((mountProtocol S t).next (l t) act r)) := by
  unfold Inv.over
  cases t with
  | client a =>
    rw [update_clients]
    simpa [mountProtocol, Protocol.within] using hk.client trivial hi hpre hK he
  | stream n =>
    rw [update_streams]
    have hf : streamSide.pre (l (.stream n)).stream act := hpre
    cases act with
    | accept =>
      simpa [mountProtocol, Protocol.within, streamSide] using hk.accept trivial hi hpre hK he
    | sys a =>
      cases hl : (l (.stream n)).stream with
      | none => rw [hl] at hf; exact hf.elim
      | some m =>
        rw [hl] at hf
        have := hk.sys trivial hi hl hf hK he
        simpa [mountProtocol, Protocol.within, streamSide, hl] using this
    | _ =>
      revert hf
      cases (l (.stream n)).stream <;> exact False.elim

theorem Keeps.start (hk : Keeps S K (fun _ _ _ => True) I) {t : Tid} {job : Job} {w : World}
    {l : Tid → Phase} (hi : I.over w l) (hf : (l t).Ended t) (hK : K.start w t job) :
    ∃ m, I.over w (update l t m) ∧
      ((mountMachine S).prog t job).Follows (mountProtocol S t) m fun m _ => m.Ended t := by
  unfold Inv.over
  cases t with
  | client a =>
    refine ⟨⟨firstPhase a job, none⟩, ?_, ?_⟩
    · rw [update_clients]
      simpa using hk.task trivial hi hf hK
    · have hset : ∀ (m : Phase) l, ({ m with client := l } : Phase).client = l := fun _ _ => rfl
      exact Prog.Follows.within (m := ⟨firstPhase a job, none⟩) hset (prog_follows job)
  | stream n =>
    refine ⟨⟨{}, none⟩, ?_, ?_⟩
    · rw [update_streams]
      simpa using hk.stream trivial hi hK
    · cases job with
      | stream =>
        have hset : ∀ (m : Phase) l, ({ m with stream := l } : Phase).stream = l := fun _ _ => rfl
        exact Prog.Follows.within (m := ⟨{}, none⟩) hset (serveStream_follows S)
      | _ => trivial

/-- **The invariant rule of a mount.** -/
theorem mount_sound {w₀ : World} {c : Config Act Act.Ret World Tid}
    (hk : Keeps S K (fun _ _ _ => True) I) (h0 : I w₀ (fun _ => {}) fun _ => none)
    (h : Reach (mountMachine S).step K.Meets (Config.idle w₀) c) :
    ∃ p s, I c.state p s ∧
      (∀ a act k, c.threads (.client a) = .act act k → (clientProtocol S.chunkSize).pre (p a) act) ∧
      ∀ n act k, c.threads (.stream n) = .act act k → streamSide.pre (s n) act := by
  have h0' : I.over w₀ fun _ => {} := h0
  have hfin : ∀ t : Tid, Phase.Ended {} t
    | .client _ => ⟨⟨rfl, rfl, rfl, rfl⟩, rfl, rfl⟩
    | .stream _ => trivial
  have hall : ∃ l, I.over c.state l ∧
      ∀ t, (c.threads t).Follows (mountProtocol S t) (l t) fun m _ => m.Ended t :=
    Machine.sound h0' hfin (fun t l a ch r w w' _ he => mountProtocol_post he)
      (fun t act ch r w w' l hi hpre hK he => hk.run hi hpre hK he)
      (fun t job w l hi hf hK => hk.start hi hf hK)
      (fun e w w' l hi hK he => Option.some.inj he ▸ hk.env trivial hi hK) h
  obtain ⟨l, hi, hfol⟩ := hall
  refine ⟨_, _, hi, fun a act k ht => ?_, fun n act k ht => ?_⟩
  · have := hfol (.client a)
    rw [ht] at this
    exact this.1
  · have := hfol (.stream n)
    rw [ht] at this
    exact this.1

/-- The rule from the middle of a run on, for an invariant that holds there. -/
theorem mount_sound_from {w₀ : World} {c₀ c : Config Act Act.Ret World Tid} {I' : Inv}
    (hk : Keeps S K (fun _ _ _ => True) I) (hk' : Keeps S K (fun _ _ _ => True) I')
    (h0 : I w₀ (fun _ => {}) fun _ => none)
    (h₀ : Reach (mountMachine S).step K.Meets (Config.idle w₀) c₀)
    (hmid : ∀ p s, I c₀.state p s → I' c₀.state p s)
    (h : Reach (mountMachine S).step K.Meets c₀ c) :
    ∃ p s, I' c.state p s ∧
      ∀ a act k, c.threads (.client a) = .act act k →
      (clientProtocol S.chunkSize).pre (p a) act := by
  have h0' : I.over w₀ fun _ => {} := h0
  have hfin : ∀ t : Tid, Phase.Ended {} t
    | .client _ => ⟨⟨rfl, rfl, rfl, rfl⟩, rfl, rfl⟩
    | .stream _ => trivial
  have hfirst : ∃ l, I.over c₀.state l ∧
      ∀ t, (c₀.threads t).Follows (mountProtocol S t) (l t) fun m _ => m.Ended t :=
    Machine.sound h0' hfin (fun t l a ch r w w' _ he => mountProtocol_post he)
      (fun t act ch r w w' l hi hpre hK he => hk.run hi hpre hK he)
      (fun t job w l hi hf hK => hk.start hi hf hK)
      (fun e w w' l hi hK he => Option.some.inj he ▸ hk.env trivial hi hK) h₀
  have hmiddle : ∃ l, I'.over c₀.state l ∧
      ∀ t, (c₀.threads t).Follows (mountProtocol S t) (l t) fun m _ => m.Ended t := by
    obtain ⟨l, hi, hfol⟩ := hfirst
    exact ⟨l, hmid _ _ hi, hfol⟩
  have hall : ∃ l, I'.over c.state l ∧
      ∀ t, (c.threads t).Follows (mountProtocol S t) (l t) fun m _ => m.Ended t :=
    Machine.sound_from hmiddle (fun t l a ch r w w' _ he => mountProtocol_post he)
      (fun t act ch r w w' l hi hpre hK he => hk'.run hi hpre hK he)
      (fun t job w l hi hf hK => hk'.start hi hf hK)
      (fun e w w' l hi hK he => Option.some.inj he ▸ hk'.env trivial hi hK) h
  obtain ⟨l, hi, hfol⟩ := hall
  refine ⟨_, _, hi, fun a act k ht => ?_⟩
  have := hfol (.client a)
  rw [ht] at this
  exact this.1

end

end QuicFs.System
