import QuicFs.System.Generations

/-!
# The callback in progress

Only the FUSE task talks to the kernel, and between the request and the reply it does not
(`callback_inward`): the protocol of `Generations.lean` says so. So the callback that the state
names is the one that is being served, from its request to its reply (`serving`). `servingToo` adds
this to a condition on the steps.
-/

namespace QuicFs.System

open Lib Client Server

def Act.Inward : Act → Prop
  | .dev _ => False
  | _ => True

abbrev Inward {α : Type} (p : Task α) : Prop := p.Only Act.Inward

section
variable {α : Type} {chunkSize : UInt32}

/-- The protocol of the generations lets only the task that serves callbacks talk to the kernel. -/
theorem inward_of_follows {p : Task α} {l : GenPhase} {Q : GenPhase → α → Prop}
    (h : p.Follows genProtocol l Q) (hl : l.serves = false) : Inward p := by
  refine h.only (I := fun l => l.serves = false) (fun l a hl ha => ?_)
    (fun l a r hl => ⟨trivial, ?_⟩) hl
  · cases a with
    | dev op =>
      cases op with
      | recv cb => cases hl.symm.trans ha.2.1
      | reply x => cases hl.symm.trans ha.2
    | _ => trivial
  · cases a with
    | net op => cases op <;> exact hl
    | dev op => cases op <;> exact hl
    | files op => cases op <;> exact hl
    | _ => exact hl

/-- **A callback does not talk to the kernel** before its reply. -/
theorem callback_inward (cb : Callback) : Inward (callback chunkSize cb) :=
  inward_of_follows (callback_counts (l := { opening := cb.opens }) chunkSize cb rfl rfl) rfl

end

/-! ## The call -/

section
variable {S : Setup} {w w' : World} {ch : Chance}

theorem exec_inward {b : Actor} {act : Act} {r : act.Ret} (ha : act.Inward)
    (he : World.exec S (.client b) act ch w = some (r, w')) : w'.call = w.call := by
  cases act with
  | buf op => obtain ⟨x, -, rfl⟩ := exec_buf he; rfl
  | files op => obtain ⟨f, -, rfl⟩ := exec_files he; rfl
  | paths op => obtain ⟨t, rfl⟩ := exec_paths he; rfl
  | cache op => obtain rfl := exec_cache he; rfl
  | net op => exact (exec_net_frame he).call
  | dev op => exact ha.elim
  | accept | sys => cases he

theorem exec_stream_call {n : Nat} {act : Act} {r : act.Ret}
    (he : World.exec S (.stream n) act ch w = some (r, w')) : w'.call = w.call := by
  cases act with
  | accept => obtain ⟨rpc, -, -, -, rfl⟩ := exec_accept he; rfl
  | sys a => obtain ⟨host, -, rfl⟩ := exec_sys he; rfl
  | _ => cases he

/-- Where the FUSE task is: between callbacks, at the request, or on the way to the reply. -/
def FuseAt (S : Setup) (w : World) (p : Task Unit) : Prop :=
  p = .ret () ∨ (∃ cb, p = serve S.chunkSize cb) ∨
    w.call.isSome ∧ ∃ q : Task Answer, Inward q ∧ p = q.bind fun a => Prog.call (Act.dev (.reply a))

/-- Only the FUSE task talks to the kernel, and where it is tells whether there is a call. -/
structure Serving (S : Setup) (c : Config Act Act.Ret World Tid) : Prop where
  fuse : FuseAt S c.state (c.threads (.client .fuse))
  others : ∀ a, a ≠ .fuse → Inward (c.threads (.client a))

theorem fuseAt_run {act : Act} {p : act.Ret → Task Unit} {r : act.Ret} (h : FuseAt S w (.act act p))
    (he : World.exec S (.client .fuse) act ch w = some (r, w')) : FuseAt S w' (p r) := by
  rcases h with h | ⟨cb, h⟩ | ⟨hcall, q, hq, h⟩
  · cases h
  · obtain ⟨rfl, hp⟩ := Prog.act.inj h
    obtain rfl := eq_of_heq hp
    obtain rfl := exec_recv he
    exact .inr (.inr ⟨rfl, _, callback_inward cb, rfl⟩)
  · cases q with
    | ret x =>
      obtain ⟨rfl, hp⟩ := Prog.act.inj h
      obtain rfl := eq_of_heq hp
      exact .inl rfl
    | act a k =>
      obtain ⟨rfl, hp⟩ := Prog.act.inj h
      obtain rfl := eq_of_heq hp
      rw [← exec_inward hq.1 he] at hcall
      exact .inr (.inr ⟨hcall, k r, hq.2 r, rfl⟩)

theorem FuseAt.of_call {p : Task Unit} (h : FuseAt S w p) (hw : w'.call = w.call) :
    FuseAt S w' p := by
  unfold FuseAt
  rwa [hw]

theorem fuseAt_prog (job : Job) : FuseAt S w ((mountMachine S).prog (.client .fuse) job) := by
  cases job with
  | callback cb => exact .inr (.inl ⟨cb, rfl⟩)
  | _ => exact .inl rfl

theorem prog_inward {a : Actor} (ha : a ≠ .fuse) (job : Job) :
    Inward ((mountMachine S).prog (.client a) job) := by
  cases a with
  | fuse => exact absurd rfl ha
  | bg =>
    cases job with
    | tick => exact inward_of_follows (backgroundTick_counts S.chunkSize {} rfl) rfl
    | _ => trivial
  | shutdown =>
    cases job with
    | unmount => exact inward_of_follows (unmountFlush_counts S.chunkSize {} rfl) rfl
    | _ => trivial

theorem Serving.update {c : Config Act Act.Ret World Tid} {t : Tid} {p : Task Unit}
    (h : Serving S c) (hfuse : t = .client .fuse → FuseAt S w p)
    (hcall : t ≠ .client .fuse → w.call = c.state.call)
    (hother : ∀ a, t = .client a → a ≠ .fuse → Inward p) :
    Serving S ⟨w, Function.update c.threads t p⟩ := by
  refine ⟨?_, fun b hb => ?_⟩
  · by_cases ht : t = .client .fuse
    · subst ht
      simpa using hfuse rfl
    · simpa [Function.update_of_ne (Ne.symm ht)] using h.fuse.of_call (hcall ht)
  · simp only [Function.update_apply]
    split
    · next e => exact hother b e.symm hb
    · exact h.others b hb

theorem serving_step {c c' : Config Act Act.Ret World Tid} {l : MountLabel} (h : Serving S c)
    (hs : (mountMachine S).step c l = some c') : Serving S c' := by
  cases l with
  | run t ch =>
    cases ht : c.threads t with
    | ret x => simp only [Machine.step, ht] at hs; cases hs
    | act a k =>
      simp only [Machine.step, ht] at hs
      obtain ⟨⟨r, w'⟩, he, rfl⟩ := Option.map_eq_some_iff.mp hs
      have hinward : ∀ b, t = .client b → b ≠ .fuse → Inward (.act a k : Task Unit) := by
        rintro b rfl hb
        rw [← ht]
        exact h.others b hb
      refine h.update (fun e => ?_) (fun hne => ?_) fun b hb hne => (hinward b hb hne).2 r
      · subst e
        have hf := h.fuse
        rw [ht] at hf
        exact fuseAt_run hf he
      · cases t with
        | stream n => exact exec_stream_call he
        | client b => exact exec_inward (hinward b rfl fun e => hne (by rw [e])).1 he
  | start t job =>
    cases ht : c.threads t with
    | act a k => simp only [Machine.step, ht] at hs; cases hs
    | ret x =>
      simp only [Machine.step, ht] at hs
      obtain rfl := Option.some.inj hs
      refine h.update (fun e => ?_) (fun _ => rfl) fun b hb hne => ?_
      · subst e
        exact fuseAt_prog job
      · subst hb
        exact prog_inward hne job
  | env e =>
    obtain rfl := Option.some.inj hs
    exact ⟨h.fuse.of_call (by cases e <;> rfl), h.others⟩

/-- **There is a call while it is served**: whatever the FUSE task does next, other than to take a
request, it does for the callback in the state. -/
theorem serving {K : MountCond} {w₀ : World} {c : Config Act Act.Ret World Tid}
    (h : Reach (mountMachine S).step K.Meets (Config.idle w₀) c) {act : Act}
    {k : act.Ret → Task Unit} (ht : c.threads (.client .fuse) = .act act k) :
    (∃ cb, act = .dev (.recv cb)) ∨ c.state.call.isSome := by
  have hserving : Serving S c :=
    h.invariant ⟨.inl rfl, fun _ _ => trivial⟩ fun hi _ hs => serving_step hi hs
  have hf := hserving.fuse
  rw [ht] at hf
  rcases hf with hf | ⟨cb, hf⟩ | ⟨hcall, -⟩
  · cases hf
  · exact .inl ⟨cb, (Prog.act.inj hf).1⟩
  · exact .inr hcall

end

/-- The condition, and that the FUSE task acts for the callback in the state. -/
def servingToo (K : MountCond) : MountCond where
  run w t a ch := K.run w t a ch ∧ (t = .client .fuse → (∀ cb, a ≠ .dev (.recv cb)) → w.call.isSome)
  start := K.start
  env := K.env

theorem reach_servingToo {S : Setup} {K : MountCond} {w₀ : World} {c : Config Act Act.Ret World Tid}
    (h : Reach (mountMachine S).step K.Meets (Config.idle w₀) c) :
    Reach (mountMachine S).step (servingToo K).Meets (Config.idle w₀) c := by
  induction h with
  | refl => exact .refl
  | @step c c' l hr hl hs ih =>
    refine ih.step ?_ hs
    cases l with
    | run t ch =>
      cases ht : c.threads t with
      | ret x => simp only [Cond.Meets, ht]
      | act a k =>
        simp only [Cond.Meets, ht] at hl ⊢
        refine ⟨hl, fun e hne => ?_⟩
        subst e
        exact (serving hr ht).resolve_left fun ⟨cb, hcb⟩ => hne cb hcb
    | start t job => exact hl
    | env e => exact hl

/-- The reply that the FUSE task is about to give. -/
def replyOf (c : Config Act Act.Ret World Tid) : Option Answer :=
  match c.threads (.client .fuse) with
  | .act (.dev (.reply x)) _ => some x
  | _ => none

theorem exists_of_replyOf {c : Config Act Act.Ret World Tid} {x : Answer} (h : replyOf c = some x) :
    ∃ k, c.threads (.client .fuse) = .act (.dev (.reply x)) k := by
  unfold replyOf at h
  split at h
  · next k hk =>
    cases h
    exact ⟨k, hk⟩
  · cases h

end QuicFs.System
