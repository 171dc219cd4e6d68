import QuicFs.Lib.Prog

/-!
# Programs that are cut off

A service runs one program after another over a state that outlives it. A crash ends the
program between any two of its actions and keeps the state. `Prog.Guarded` says of one program
what is needed: wherever a crash may come, the state is one from which a program can be started
again. `Service.sound` is the rule for every sequence of programs and crashes.
-/

namespace QuicFs.Lib

variable {A : Type} {R : A → Type} {S C Q α β : Type}

structure Service (A : Type) (R : A → Type) (S C Q α : Type) where
  exec : (a : A) → C → S → Option (R a × S)
  /-- The program of a request. -/
  prog : Q → Prog A R α

structure Process (A : Type) (R : A → Type) (S α : Type) where
  state : S
  call : Option (Prog A R α)

def Process.result? (p : Process A R S α) : Option α :=
  match p.call with
  | some (.ret x) => some x
  | _ => none

theorem Process.call_of_result? {p : Process A R S α} {x : α} (h : p.result? = some x) :
    p.call = some (.ret x) := by
  unfold result? at h
  split at h
  · next y hy => rw [hy, Option.some.inj h]
  · cases h

inductive CrashLabel (Q C : Type) where
  | start (q : Q)
  | run (c : C)
  | crash
  | finish

/-- What is asked of the steps; that of a crash depends on the action it comes before. -/
structure CrashCond (A S C Q : Type) where
  start : S → Q → Prop
  run : S → A → C → Prop
  crash : S → A → Prop

def CrashCond.Meets (K : CrashCond A S C Q) (p : Process A R S α) : CrashLabel Q C → Prop
  | .start q => K.start p.state q
  | .run c =>
    match p.call with
    | some (.act a _) => K.run p.state a c
    | _ => True
  | .crash =>
    match p.call with
    | some (.act a _) => K.crash p.state a
    | _ => True
  | .finish => True

class CrashCond.Checkable (K : CrashCond A S C Q) where
  start : ∀ s q, Decidable (K.start s q)
  run : ∀ s a c, Decidable (K.run s a c)
  crash : ∀ s a, Decidable (K.crash s a)

instance (K : CrashCond A S C Q) [h : K.Checkable] (p : Process A R S α) :
    ∀ l, Decidable (K.Meets p l)
  | .start q => h.start p.state q
  | .run c =>
    match p with
    | ⟨s, some (.act a _)⟩ => h.run s a c
    | ⟨_, some (.ret _)⟩ => inferInstanceAs (Decidable True)
    | ⟨_, none⟩ => inferInstanceAs (Decidable True)
  | .crash =>
    match p with
    | ⟨s, some (.act a _)⟩ => h.crash s a
    | ⟨_, some (.ret _)⟩ => inferInstanceAs (Decidable True)
    | ⟨_, none⟩ => inferInstanceAs (Decidable True)
  | .finish => inferInstanceAs (Decidable True)

/-- The program is followed as long as its steps meet `K`: each step is one of `T`, where a crash
may come `J` holds, and it ends with a result and in a state that meet `P`. -/
def Prog.Guarded (exec : (a : A) → C → S → Option (R a × S)) (K : CrashCond A S C Q) (J : S → Prop)
    (T : S → S → Prop) : Prog A R α → S → (α → S → Prop) → Prop
  | ret x, s, P => P x s
  | act a k, s, P => (K.crash s a → J s) ∧
      ∀ c r s', K.run s a c → exec a c s = some (r, s') → T s s' ∧ (k r).Guarded exec K J T s' P

section

variable {exec : (a : A) → C → S → Option (R a × S)} {K : CrashCond A S C Q} {J : S → Prop}
    {T : S → S → Prop}
  {s : S}

theorem Prog.Guarded.bind {p : Prog A R α} {f : α → Prog A R β} {P : α → S → Prop}
    {P' : β → S → Prop} (h : p.Guarded exec K J T s P)
    (hf : ∀ x s, P x s → (f x).Guarded exec K J T s P') : (p.bind f).Guarded exec K J T s P' := by
  induction p generalizing s with
  | ret x => exact hf x s h
  | act a k ih =>
    refine ⟨h.1, fun c r s' hc he => ?_⟩
    obtain ⟨hT, hk⟩ := h.2 c r s' hc he
    exact ⟨hT, ih r hk⟩

end

namespace Service

variable (M : Service A R S C Q α)

def step (p : Process A R S α) : CrashLabel Q C → Option (Process A R S α)
  | .start q =>
    match p.call with
    | none => some { p with call := some (M.prog q) }
    | some _ => none
  | .run c =>
    match p.call with
    | some (.act a k) => (M.exec a c p.state).map fun (r, s) => ⟨s, some (k r)⟩
    | _ => none
  | .crash =>
    match p.call with
    | some (.act _ _) => some { p with call := none }
    | _ => none
  | .finish =>
    match p.call with
    | some (.ret _) => some { p with call := none }
    | _ => none

/-- Between programs `J` holds; a program that runs is guarded. -/
def Guarded (K : CrashCond A S C Q) (J : S → Prop) (T : S → S → Prop) (P : α → S → Prop) :
    Process A R S α → Prop
  | ⟨s, none⟩ => J s
  | ⟨s, some p⟩ => p.Guarded M.exec K J T s P

variable {M} {K : CrashCond A S C Q} {J : S → Prop} {T : S → S → Prop} {P : α → S → Prop}

theorem guarded_step (hrefl : ∀ s, T s s) (hfinish : ∀ x s, P x s → J s)
    (hstart : ∀ s q, J s → K.start s q → (M.prog q).Guarded M.exec K J T s P)
    {p p' : Process A R S α} {l : CrashLabel Q C} (h : M.Guarded K J T P p) (hl : K.Meets p l)
    (hs : M.step p l = some p') : T p.state p'.state ∧ M.Guarded K J T P p' := by
  obtain ⟨s, call⟩ := p
  cases l with
  | start q =>
    cases call with
    | none =>
      obtain rfl := Option.some.inj hs
      exact ⟨hrefl s, hstart s q h hl⟩
    | some c => cases hs
  | run c =>
    match call with
    | none => cases hs
    | some (.ret x) => cases hs
    | some (.act a k) =>
      obtain ⟨⟨r, s'⟩, he, rfl⟩ := Option.map_eq_some_iff.mp hs
      exact h.2 c r s' hl he
  | crash =>
    match call with
    | none => cases hs
    | some (.ret x) => cases hs
    | some (.act a k) =>
      obtain rfl := Option.some.inj hs
      exact ⟨hrefl s, h.1 hl⟩
  | finish =>
    match call with
    | none => cases hs
    | some (.act a k) => cases hs
    | some (.ret x) =>
      obtain rfl := Option.some.inj hs
      exact ⟨hrefl s, hfinish x s h⟩

/-- **The rule for crashes.** -/
theorem sound (hrefl : ∀ s, T s s) (hfinish : ∀ x s, P x s → J s)
    (hstart : ∀ s q, J s → K.start s q → (M.prog q).Guarded M.exec K J T s P)
    {p p' : Process A R S α} (h : M.Guarded K J T P p) (hr : Reach M.step K.Meets p p') :
    M.Guarded K J T P p' :=
  hr.invariant h fun hi hl hs => (guarded_step hrefl hfinish hstart hi hl hs).2

theorem sound_between (hrefl : ∀ s, T s s) (hfinish : ∀ x s, P x s → J s)
    (hstart : ∀ s q, J s → K.start s q → (M.prog q).Guarded M.exec K J T s P)
    (htrans : ∀ {s s' s''}, T s s' → T s' s'' → T s s'') {p p' : Process A R S α}
    (h : M.Guarded K J T P p) (hr : Reach M.step K.Meets p p') : T p.state p'.state := by
  induction hr with
  | refl => exact hrefl _
  | step hr hl hs ih =>
    exact htrans ih (guarded_step hrefl hfinish hstart (sound hrefl hfinish hstart h hr) hl hs).1

end Service

end QuicFs.Lib
