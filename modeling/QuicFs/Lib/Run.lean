import Mathlib

/-!
# Runs of a labelled transition system

`step s l` is the state after the label `l`, `none` if `l` cannot happen in `s`.
`Reach step cond s₀ s`: some run from `s₀` to `s` in which every label met `cond` in the
state it happened in. `execBy` evaluates a run label by label.
-/

namespace QuicFs.Lib

universe u v

variable {S : Type u} {L : Type v}

inductive Reach (step : S → L → Option S) (cond : S → L → Prop) (s₀ : S) : S → Prop where
  | refl : Reach step cond s₀ s₀
  | step {s s' : S} {l : L} : Reach step cond s₀ s → cond s l → step s l = some s' →
      Reach step cond s₀ s'

/-- Every label may happen. -/
abbrev anyLabel : S → L → Prop := fun _ _ => True

/-- What holds at the start and survives every label that meets the condition holds in
every state reached. -/
theorem Reach.invariant {step : S → L → Option S} {cond : S → L → Prop} {s₀ s : S} {I : S → Prop}
    (h : Reach step cond s₀ s) (h0 : I s₀)
    (hstep : ∀ {s s' l}, I s → cond s l → step s l = some s' → I s') : I s := by
  induction h with
  | refl => exact h0
  | step _ hc hs ih => exact hstep ih hc hs

theorem Reach.trans {step : S → L → Option S} {cond : S → L → Prop} {s₀ s₁ s : S}
    (h : Reach step cond s₀ s₁) (h' : Reach step cond s₁ s) : Reach step cond s₀ s := by
  induction h' with
  | refl => exact h
  | step _ hl hs ih => exact .step ih hl hs

/-- What the steps of a run from `s₀` meet is met from any state of it on. -/
theorem Reach.strengthen {step : S → L → Option S} {cond cond' : S → L → Prop} {s₀ s₁ s : S}
    (h₀ : Reach step cond s₀ s₁) (h : Reach step cond s₁ s)
    (hc : ∀ s l, Reach step cond s₀ s → cond s l → cond' s l) : Reach step cond' s₁ s := by
  induction h with
  | refl => exact .refl
  | step hr hl hs ih => exact ih.step (hc _ _ (h₀.trans hr) hl) hs

theorem Reach.relabel {M : Type*} {step : S → L → Option S} {cond : S → L → Prop} {f : M → L}
    {cond' : S → M → Prop} {s₀ s : S} (h : Reach (fun s m => step s (f m)) cond' s₀ s)
    (hc : ∀ s m, cond' s m → cond s (f m)) : Reach step cond s₀ s := by
  induction h with
  | refl => exact .refl
  | step _ hl hs ih => exact .step ih (hc _ _ hl) hs

def Stuck (step : S → L → Option S) (cond : S → L → Prop) (s : S) : Prop :=
  ∀ l, cond s l → step s l = none

def NextOf (step : S → L → Option S) (cond : S → L → Prop) (s' s : S) : Prop :=
  ∃ l, cond s l ∧ step s l = some s'

theorem Reach.exists_stuck {step : S → L → Option S} {cond : S → L → Prop} {s₀ s : S}
    (hwf : WellFounded (NextOf step cond)) (h : Reach step cond s₀ s) :
    ∃ s', Reach step cond s₀ s' ∧ Stuck step cond s' := by
  induction s using hwf.induction with
  | _ s ih =>
    by_cases hs : Stuck step cond s
    · exact ⟨s, h, hs⟩
    · unfold Stuck at hs
      push Not at hs
      obtain ⟨l, hl, hne⟩ := hs
      obtain ⟨s1, hs1⟩ := Option.ne_none_iff_exists'.mp hne
      exact ih s1 ⟨l, hl, hs1⟩ (h.step hl hs1)

/-- Evaluate a run; `none` as soon as a label cannot happen or fails the condition. -/
def execBy (step : S → L → Option S) (cond : S → L → Prop) [∀ s l, Decidable (cond s l)] (s : S) :
    List L → Option S
  | [] => some s
  | l :: ls => if cond s l then (step s l).bind (execBy step cond · ls) else none

theorem Reach.of_execBy {step : S → L → Option S} {cond : S → L → Prop}
    [∀ s l, Decidable (cond s l)] {s₀ : S} {ls : List L} : ∀ {s s' : S}, Reach step cond s₀ s →
    execBy step cond s ls = some s' → Reach step cond s₀ s' := by
  induction ls with
  | nil => rintro s s' h ⟨⟩; exact h
  | cons l ls ih =>
    intro s s' h he
    rw [execBy] at he
    split at he
    · rename_i hc
      obtain ⟨s1, hs1, he⟩ := Option.bind_eq_some_iff.mp he
      exact ih (h.step hc hs1) he
    · cases he

/-- A run that can be evaluated, to a state with a property that can be checked. -/
theorem Reach.of_check (step : S → L → Option S) (cond : S → L → Prop) [∀ s l, Decidable (cond s l)]
    (s₀ : S) (ls : List L) (P : S → Prop) [DecidablePred P]
    (h : (execBy step cond s₀ ls).any (fun s => decide (P s)) = true) :
    ∃ s, Reach step cond s₀ s ∧ P s := by
  obtain ⟨s, hs, hp⟩ := (Option.any_eq_true ..).mp h
  exact ⟨s, .of_execBy .refl hs, of_decide_eq_true hp⟩

end QuicFs.Lib
