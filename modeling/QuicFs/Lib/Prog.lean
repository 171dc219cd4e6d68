import Mathlib
import QuicFs.Lib.Run

/-!
# Interleaved programs and the protocols they follow

`Prog A R α` is a program whose atomic steps are actions `a : A`; the rest of the program
depends on the answer, a value of type `R a`. A `Machine` runs one program for each
thread over a shared state: a label lets one thread take one step, gives an idle thread
its next request, or lets the environment act. The `Choice` in a step resolves whatever
the action leaves open, so a run can be evaluated. `Prog.run` is one program by itself.

A `Protocol` says what a thread may do next, given what it has learnt from the answers so
far (its phase). That a program follows its protocol is a fact about the program alone
(`Prog.Follows`, with one rule for each program form). `Machine.sound` is the invariant
rule: to prove something about the shared state and all phases it is enough to look at
the actions the protocols allow.

`Machine.Stretch` is a part of a run in which one thread takes a part of its program to its
end, among the steps of the others; `Prog.Amid` is what can be said of its result when only
the effect of those steps is known.
-/

namespace QuicFs.Lib

open Function

inductive Prog (A : Type) (R : A → Type) (α : Type) where
  | ret (x : α)
  | act (a : A) (k : R a → Prog A R α)

namespace Prog

variable {A : Type} {R : A → Type} {α β : Type}

def bind (p : Prog A R α) (f : α → Prog A R β) : Prog A R β :=
  match p with
  | ret x => f x
  | act a k => act a fun r => (k r).bind f

instance : Monad (Prog A R) where
  pure := ret
  bind := bind

def isRet : Prog A R α → Bool
  | ret _ => true
  | act .. => false

theorem eq_ret_of_isRet {p : Prog A R Unit} (h : p.isRet = true) : p = ret () := by
  cases p with
  | ret x => rfl
  | act a k => cases h

def call (a : A) : Prog A R (R a) := act a ret

@[simp] theorem pure_eq (x : α) : (pure x : Prog A R α) = ret x := rfl

@[simp] theorem bind_eq (p : Prog A R α) (f : α → Prog A R β) : p >>= f = p.bind f := rfl

@[simp] theorem ret_bind (x : α) (f : α → Prog A R β) : (ret x).bind f = f x := rfl

@[simp] theorem act_bind (a : A) (k : R a → Prog A R α) (f : α → Prog A R β) :
    (act a k).bind f = act a fun r => (k r).bind f := rfl

@[simp] theorem call_bind (a : A) (f : R a → Prog A R β) : (call a).bind f = act a f := rfl

theorem bind_assoc {γ : Type} (p : Prog A R α) (f : α → Prog A R β) (g : β → Prog A R γ) :
    (p.bind f).bind g = p.bind fun x => (f x).bind g := by
  induction p with
  | ret x => rfl
  | act a k ih => exact congrArg (act a) (funext fun r => ih r)

/-- The program after one of its answers. -/
inductive Next : Prog A R α → Prog A R α → Prop where
  | intro (a : A) (k : R a → Prog A R α) (r : R a) : Next (k r) (act a k)

theorem wellFounded_next : WellFounded (Next : Prog A R α → Prog A R α → Prop) := by
  refine ⟨fun p => ?_⟩
  induction p with
  | ret x => exact ⟨_, fun _ h => by cases h⟩
  | act a k ih => exact ⟨_, fun _ h => by cases h with | intro _ _ r => exact ih r⟩

end Prog

/-! ## A program run alone -/

namespace Prog

variable {A : Type} {R : A → Type} {S C α β : Type} {exec : (a : A) → C → S → Option (R a × S)}

/-- A program run by itself, each action with the next choice: its result, the state and the
choices that are left; `none` if it has to wait. -/
def run (exec : (a : A) → C → S → Option (R a × S)) : Prog A R α → (Nat → C) → S →
    Option (α × S × (Nat → C))
  | ret x, cs, s => some (x, s, cs)
  | act a k, cs, s => (exec a (cs 0) s).bind fun (r, s) => (k r).run exec (fun i => cs (i + 1)) s

@[simp] theorem run_ret (x : α) (cs : Nat → C) (s : S) :
    (ret x : Prog A R α).run exec cs s = some (x, s, cs) := rfl

theorem run_act {a : A} {k : R a → Prog A R α} {cs : Nat → C} {s s' : S} {r : R a}
    (h : exec a (cs 0) s = some (r, s')) :
    (act a k).run exec cs s = (k r).run exec (fun i => cs (i + 1)) s' := by
  rw [run, h, Option.bind_some]

theorem run_bind {p : Prog A R α} {f : α → Prog A R β} {cs cs' : Nat → C} {s s' : S} {x : α}
    (h : p.run exec cs s = some (x, s', cs')) :
    (p.bind f).run exec cs s = (f x).run exec cs' s' := by
  induction p generalizing cs s with
  | ret y =>
    obtain ⟨rfl, rfl, rfl⟩ : y = x ∧ s = s' ∧ cs = cs' := by simpa using h
    rfl
  | act a k ih =>
    obtain ⟨⟨r, s1⟩, he, h⟩ := Option.bind_eq_some_iff.mp h
    rw [act_bind, run_act he]
    exact ih r h

/-- Whatever the choices are, as long as they meet `G`, the program run by itself ends with the
result `x` in the state `s'`. -/
def RunsTo (exec : (a : A) → C → S → Option (R a × S)) (G : C → Prop) (p : Prog A R α)
    (s : S) (x : α) (s' : S) : Prop :=
  ∀ cs : Nat → C, (∀ i, G (cs i)) → ∃ cs', (∀ i, G (cs' i)) ∧ p.run exec cs s = some (x, s', cs')

section
variable {G : C → Prop} {s s₁ s' : S}

theorem runsTo_ret (x : α) : RunsTo exec G (ret x : Prog A R α) s x s := fun cs h => ⟨cs, h, rfl⟩

theorem RunsTo.act {a : A} {k : R a → Prog A R α} {r : R a} {x : α}
    (he : ∀ c, G c → exec a c s = some (r, s₁)) (h : RunsTo exec G (k r) s₁ x s') :
    RunsTo exec G (.act a k) s x s' := by
  intro cs hcs
  obtain ⟨cs', hcs', hrun⟩ := h (fun i => cs (i + 1)) fun i => hcs (i + 1)
  exact ⟨cs', hcs', (run_act (he _ (hcs 0))).trans hrun⟩

theorem RunsTo.bind {p : Prog A R α} {f : α → Prog A R β} {x : α} {y : β}
    (h : RunsTo exec G p s x s₁) (hf : RunsTo exec G (f x) s₁ y s') :
    RunsTo exec G (p.bind f) s y s' := by
  intro cs hcs
  obtain ⟨cs₁, hcs₁, hrun⟩ := h cs hcs
  obtain ⟨cs', hcs', hrun'⟩ := hf cs₁ hcs₁
  exact ⟨cs', hcs', (run_bind hrun).trans hrun'⟩

end

end Prog

/-- What a thread may do in each phase, what it may rely on in the answer, and the phase it
is in after it. -/
structure Protocol (A : Type) (R : A → Type) (L : Type) where
  pre : L → A → Prop
  post : L → (a : A) → R a → Prop
  next : L → (a : A) → R a → L

namespace Prog

variable {A : Type} {R : A → Type} {L α β : Type}

/-- From the phase `l` on every action the program can come to is one the protocol allows,
and it ends in a phase and with a result that meet `Q`. -/
def Follows (P : Protocol A R L) (l : L) (p : Prog A R α) (Q : L → α → Prop) : Prop :=
  match p with
  | ret x => Q l x
  | act a k => P.pre l a ∧ ∀ r, P.post l a r → (k r).Follows P (P.next l a r) Q

variable {P : Protocol A R L} {l : L}

@[simp] theorem follows_ret {x : α} {Q : L → α → Prop} :
    (ret x : Prog A R α).Follows P l Q ↔ Q l x := Iff.rfl

theorem follows_of_forall {Q : L → α → Prop} (hpre : ∀ l a, P.pre l a) (hQ : ∀ l x, Q l x)
    (p : Prog A R α) : p.Follows P l Q := by
  induction p generalizing l with
  | ret x => exact hQ l x
  | act a k ih => exact ⟨hpre l a, fun r _ => ih r⟩

theorem Follows.mono {p : Prog A R α} {Q Q' : L → α → Prop} (h : p.Follows P l Q)
    (hQ : ∀ l x, Q l x → Q' l x) : p.Follows P l Q' := by
  induction p generalizing l with
  | ret x => exact hQ l x h
  | act a k ih => exact ⟨h.1, fun r hr => ih r (h.2 r hr)⟩

theorem Follows.bind {p : Prog A R α} {f : α → Prog A R β} {Q : L → α → Prop} {Q' : L → β → Prop}
    (h : p.Follows P l Q) (hf : ∀ l x, Q l x → (f x).Follows P l Q') :
    (p.bind f).Follows P l Q' := by
  induction p generalizing l with
  | ret x => exact hf l x h
  | act a k ih => exact ⟨h.1, fun r hr => ih r (h.2 r hr)⟩

/-- Every action the program can come to meets `P`. -/
def Only (P : A → Prop) : Prog A R α → Prop
  | ret _ => True
  | act a k => P a ∧ ∀ r, (k r).Only P

theorem Only.bind {P : A → Prop} {p : Prog A R α} {f : α → Prog A R β} (h : p.Only P)
    (hf : ∀ x, (f x).Only P) : (p.bind f).Only P := by
  induction p with
  | ret x => exact hf x
  | act a k ih => exact ⟨h.1, fun r => ih r (h.2 r)⟩

/-- What a protocol allows in the phases of `I`, if it takes every result and stays in them. -/
theorem Follows.only {I : L → Prop} {K : A → Prop} (hpre : ∀ l a, I l → P.pre l a → K a)
    (hnext : ∀ l a r, I l → P.post l a r ∧ I (P.next l a r)) {p : Prog A R α} {Q : L → α → Prop}
    (h : p.Follows P l Q) (hl : I l) : p.Only K := by
  induction p generalizing l with
  | ret x => trivial
  | act a k ih =>
    exact ⟨hpre l a hl h.1, fun r => ih r (h.2 r (hnext l a r hl).1) (hnext l a r hl).2⟩

end Prog

/-! ## What every run of a program comes to -/

namespace Prog

variable {A : Type} {R : A → Type} {S C α β : Type} {exec : (a : A) → C → S → Option (R a × S)}
  {K : A → C → S → Prop}

/-- Every step of the run with these choices meets `K` in the state before it. -/
def Along (exec : (a : A) → C → S → Option (R a × S)) (K : A → C → S → Prop) :
    Prog A R α → (Nat → C) → S → Prop
  | ret _, _, _ => True
  | act a k, cs, s => K a (cs 0) s ∧ ∀ r s', exec a (cs 0) s = some (r, s') →
      (k r).Along exec K (fun i => cs (i + 1)) s'

theorem along_act {a : A} {k : R a → Prog A R α} {cs : Nat → C} {s s' : S} {r : R a}
    (h : exec a (cs 0) s = some (r, s')) :
    (act a k).Along exec K cs s ↔ K a (cs 0) s ∧ (k r).Along exec K (fun i => cs (i + 1)) s' := by
  refine and_congr_right fun _ => ⟨fun hall => hall r s' h, fun hr r' s'' he => ?_⟩
  obtain ⟨rfl, rfl⟩ := Prod.mk.inj (Option.some.inj (h.symm.trans he))
  exact hr

theorem along_of_forall {cs : Nat → C} (h : ∀ a i s, K a (cs i) s) (p : Prog A R α) (s : S) :
    p.Along exec K cs s := by
  induction p generalizing cs s with
  | ret x => trivial
  | act a k ih => exact ⟨h a 0 s, fun r s' _ => ih r (fun a i => h a (i + 1)) s'⟩

/-- Whatever the choices are, a run that ends does so in `Q`, which is told the result, the state
and whether every step met `K`. -/
def Ends (exec : (a : A) → C → S → Option (R a × S)) (K : A → C → S → Prop) :
    Prog A R α → S → (α → S → Prop → Prop) → Prop
  | ret x, s, Q => Q x s True
  | act a k, s, Q => ∀ c r s', exec a c s = some (r, s') →
      (k r).Ends exec K s' fun x s'' ok => Q x s'' (K a c s ∧ ok)

variable {Q Q' : α → S → Prop → Prop} {s : S}

theorem Ends.run {p : Prog A R α} (h : p.Ends exec K s Q) {cs cs' : Nat → C} {x : α} {s' : S}
    (hrun : p.run exec cs s = some (x, s', cs')) : Q x s' (p.Along exec K cs s) := by
  induction p generalizing cs s Q with
  | ret y =>
    obtain ⟨rfl, rfl, rfl⟩ : y = x ∧ s = s' ∧ cs = cs' := by simpa using hrun
    exact h
  | act a k ih =>
    obtain ⟨⟨r, s₁⟩, he, hrun⟩ := Option.bind_eq_some_iff.mp hrun
    rw [propext (along_act he)]
    exact ih r (h _ r s₁ he) hrun

theorem Ends.mono {p : Prog A R α} (h : p.Ends exec K s Q) (hQ : ∀ x s ok, Q x s ok → Q' x s ok) :
    p.Ends exec K s Q' := by
  induction p generalizing s Q Q' with
  | ret x => exact hQ x s True h
  | act a k ih => exact fun c r s' he => ih r (h c r s' he) fun x s ok => hQ x s _

theorem Ends.bind {p : Prog A R α} {f : α → Prog A R β} {Q : β → S → Prop → Prop}
    (h : p.Ends exec K s fun x s' ok => (f x).Ends exec K s' fun y s'' ok' => Q y s'' (ok ∧ ok')) :
    (p.bind f).Ends exec K s Q := by
  induction p generalizing s Q with
  | ret x =>
    refine Ends.mono h fun y s' ok hQ => ?_
    rwa [true_and] at hQ
  | act a k ih =>
    intro c r s' he
    refine ih r (Ends.mono (h c r s' he) fun x s₁ ok hx => Ends.mono hx fun y s₂ ok' hQ => ?_)
    rwa [and_assoc] at hQ

theorem ends_trivial (p : Prog A R α) (s : S) : p.Ends exec K s fun _ _ _ => True := by
  induction p generalizing s with
  | ret x => trivial
  | act a k ih => exact fun c r s' _ => ih r s'

theorem ends_of_only {P : A → Prop} {p : Prog A R α} (h : p.Only P)
    (hP : ∀ a, P a → ∀ c r s', exec a c s = some (r, s') → s' = s ∧ K a c s) :
    p.Ends exec K s fun _ s' ok => s' = s ∧ ok := by
  induction p with
  | ret x => exact ⟨rfl, trivial⟩
  | act a k ih =>
    intro c r s' he
    obtain ⟨rfl, hk⟩ := hP a h.1 c r s' he
    exact Ends.mono (ih r (h.2 r)) fun x s₁ ok hQ => ⟨hQ.1, hk, hQ.2⟩

/-- A run whose result is settled when the choices meet `G`, seen from its first answer on. -/
theorem RunsTo.of_act {G : C → Prop} {a : A} {k : R a → Prog A R α} {x : α} {s s₁ s' : S}
    {c : C} {r : R a} (h : RunsTo exec G (.act a k) s x s') (hc : G c)
    (he : exec a c s = some (r, s₁)) : RunsTo exec G (k r) s₁ x s' := by
  intro cs hcs
  obtain ⟨cs', hcs', hrun⟩ := h (fun | 0 => c | i + 1 => cs i) fun | 0 => hc | i + 1 => hcs i
  exact ⟨cs', hcs', (run_act he).symm.trans hrun⟩

theorem RunsTo.ends {G : C → Prop} {P : A → Prop} {p : Prog A R α} {x : α} {s s' : S}
    (h : RunsTo exec G p s x s') (ho : p.Only P) (c₀ : C) (hc₀ : G c₀) :
    p.Ends exec (fun a c _ => P a → G c) s fun y s'' ok => ok → y = x ∧ s'' = s' := by
  induction p generalizing s with
  | ret y =>
    obtain ⟨cs', -, hrun⟩ := h (fun _ => c₀) fun _ => hc₀
    obtain ⟨rfl, rfl, -⟩ : y = x ∧ s = s' ∧ (fun _ => c₀) = cs' := by simpa using hrun
    exact fun _ => ⟨rfl, rfl⟩
  | act a k ih =>
    intro c r s₁ he
    by_cases hc : G c
    · exact Ends.mono (ih r (h.of_act hc he) (ho.2 r)) fun y s₂ ok hy hok => hy hok.2
    · exact Ends.mono (ends_trivial (k r) s₁) fun y s₂ ok _ hok => absurd (hok.1 ho.1) hc

end Prog

/-- A protocol whose phase is part of a larger one. -/
def Protocol.within {A : Type} {R : A → Type} {L M : Type} (P : Protocol A R L) (get : M → L)
    (set : M → L → M) : Protocol A R M where
  pre m a := P.pre (get m) a
  post m a r := P.post (get m) a r
  next m a r := set m (P.next (get m) a r)

theorem Prog.Follows.within {A : Type} {R : A → Type} {L M α : Type} {P : Protocol A R L}
    {get : M → L} {set : M → L → M} (hset : ∀ m l, get (set m l) = l) {p : Prog A R α} {m : M}
    {Q : L → α → Prop} (h : p.Follows P (get m) Q) :
    p.Follows (P.within get set) m fun m x => Q (get m) x := by
  induction p generalizing m with
  | ret x => exact h
  | act a k ih =>
    refine ⟨h.1, fun r hr => ih r ?_⟩
    show (k r).Follows P (get (set m (P.next (get m) a r))) Q
    rw [hset]
    exact h.2 r hr

/-- The threads' programs over a shared state. -/
structure Machine (A : Type) (R : A → Type) (S T C Q E : Type) where
  /-- One step of a thread; `none` if it has to wait. -/
  exec : T → (a : A) → C → S → Option (R a × S)
  /-- One step of the environment. -/
  env : E → S → Option S
  /-- What a thread runs for a request. -/
  prog : T → Q → Prog A R Unit

inductive Label (T C Q E : Type) where
  | run (t : T) (c : C)
  | start (t : T) (q : Q)
  | env (e : E)

structure Config (A : Type) (R : A → Type) (S T : Type) where
  state : S
  threads : T → Prog A R Unit

/-- A condition on the steps of a run, each in the state before it. -/
structure Cond (A S T C Q E : Type) where
  run : S → T → A → C → Prop
  start : S → T → Q → Prop
  env : S → E → Prop

section
variable {A : Type} {R : A → Type} {S T C Q E : Type}

def Config.idle (s : S) : Config A R S T := ⟨s, fun _ => .ret ()⟩

def Cond.Meets (K : Cond A S T C Q E) (c : Config A R S T) : Label T C Q E → Prop
  | .run t ch =>
    match c.threads t with
    | .ret _ => True
    | .act a _ => K.run c.state t a ch
  | .start t q => K.start c.state t q
  | .env e => K.env c.state e

/-- A condition that can be evaluated, so that a run can be checked against it. -/
class Cond.Checkable (K : Cond A S T C Q E) where
  run : ∀ s t a c, Decidable (K.run s t a c)
  start : ∀ s t q, Decidable (K.start s t q)
  env : ∀ s e, Decidable (K.env s e)

instance (K : Cond A S T C Q E) [k : K.Checkable] (c : Config A R S T) (l : Label T C Q E) :
    Decidable (K.Meets c l) :=
  match l with
  | .run t ch =>
    match h : c.threads t with
    | .ret _ => isTrue (by simp [Cond.Meets, h])
    | .act a _ =>
      have := k.run c.state t a ch
      decidable_of_iff (K.run c.state t a ch) (by simp [Cond.Meets, h])
  | .start t q => k.start c.state t q
  | .env e => k.env c.state e

variable [DecidableEq T]

def Machine.step (M : Machine A R S T C Q E) (c : Config A R S T) :
    Label T C Q E → Option (Config A R S T)
  | .run t ch =>
    match c.threads t with
    | .ret _ => none
    | .act a k =>
      (M.exec t a ch c.state).map fun (r, s) => ⟨s, update c.threads t (k r)⟩
  | .start t q =>
    match c.threads t with
    | .ret _ => some ⟨c.state, update c.threads t (M.prog t q)⟩
    | .act .. => none
  | .env e => (M.env e c.state).map fun s => ⟨s, c.threads⟩

end

/-- A step that was taken. -/
structure Event (A : Type) (R : A → Type) (T : Type) where
  thread : T
  act : A
  answer : R act

/-- The machine with a record of its steps. -/
def Machine.recorded {A : Type} {R : A → Type} {S T C Q E : Type} (M : Machine A R S T C Q E) :
    Machine A R (S × List (Event A R T)) T C Q E where
  exec t a c s := (M.exec t a c s.1).map fun (r, s') => (r, s', s.2 ++ [⟨t, a, r⟩])
  env e s := (M.env e s.1).map (·, s.2)
  prog := M.prog

theorem Machine.exec_recorded {A : Type} {R : A → Type} {S T C Q E : Type}
    {M : Machine A R S T C Q E} {t : T} {a : A} {c : C} {s s' : S × List (Event A R T)} {r : R a}
    (h : M.recorded.exec t a c s = some (r, s')) :
    M.exec t a c s.1 = some (r, s'.1) ∧ s'.2 = s.2 ++ [⟨t, a, r⟩] := by
  obtain ⟨⟨r', s1⟩, he, h⟩ := Option.map_eq_some_iff.mp h
  obtain ⟨rfl, rfl⟩ := Prod.mk.inj h
  exact ⟨he, rfl⟩

section
variable {A : Type} {R : A → Type} {S T C Q E L : Type} [DecidableEq T]
variable {M : Machine A R S T C Q E} {K : Cond A S T C Q E} {P : T → Protocol A R L}
variable {I : S → (T → L) → Prop} {fin : T → L → Prop}

/-- **The invariant rule.** `I` relates the shared state and the phases of the threads. If the
steps the protocols allow keep it and every request starts a program that follows its
protocol and ends in a final phase, `I` goes on to hold, for some phases in which the
programs still to run follow their protocols. -/
theorem Machine.sound_from {c₀ c : Config A R S T}
    (h0 : ∃ l, I c₀.state l ∧ ∀ t, (c₀.threads t).Follows (P t) (l t) fun l _ => fin t l)
    (hpost : ∀ t l a ch r s s', (P t).pre l a → M.exec t a ch s = some (r, s') → (P t).post l a r)
    (hrun : ∀ t a ch r s s' l, I s l → (P t).pre (l t) a → K.run s t a ch →
      M.exec t a ch s = some (r, s') → I s' (update l t ((P t).next (l t) a r)))
    (hstart : ∀ t q s l, I s l → fin t (l t) → K.start s t q → ∃ l', I s (update l t l') ∧
      (M.prog t q).Follows (P t) l' fun l _ => fin t l)
    (henv : ∀ e s s' l, I s l → K.env s e → M.env e s = some s' → I s' l)
    (h : Reach M.step K.Meets c₀ c) :
    ∃ l, I c.state l ∧ ∀ t, (c.threads t).Follows (P t) (l t) fun l _ => fin t l := by
  refine h.invariant (I := fun c : Config A R S T => ∃ l, I c.state l ∧
    ∀ t, (c.threads t).Follows (P t) (l t) fun l _ => fin t l) h0 ?_
  rintro c c' lab ⟨l, hi, hfol⟩ hc hs
  -- only the thread that moved has a new phase and a new program
  have hthread : ∀ {t l' p}, p.Follows (P t) l' (fun l _ => fin t l) → ∀ u,
      (update c.threads t p u).Follows (P u) (update l t l' u)
        fun l _ => fin u l := by
    intro t l' p hp u
    by_cases e : u = t
    · subst e; simpa using hp
    · simpa [e] using hfol u
  cases lab with
  | run t ch =>
    simp only [Machine.step] at hs
    simp only [Cond.Meets] at hc
    cases hp : c.threads t with
    | ret x => rw [hp] at hs; cases hs
    | act a k =>
      have ht := hfol t
      rw [hp] at hs hc ht
      obtain ⟨⟨r, s'⟩, he, rfl⟩ := Option.map_eq_some_iff.mp hs
      exact ⟨_, hrun t a ch r _ s' l hi ht.1 hc he,
        hthread (ht.2 r (hpost t (l t) a ch r _ s' ht.1 he))⟩
  | start t q =>
    simp only [Machine.step] at hs
    cases hp : c.threads t with
    | ret x =>
      have ht := hfol t
      rw [hp] at hs ht
      obtain rfl := Option.some.inj hs
      obtain ⟨l', hi', hprog⟩ := hstart t q _ l hi ht hc
      exact ⟨_, hi', hthread hprog⟩
    | act a k => rw [hp] at hs; cases hs
  | env e =>
    obtain ⟨s', he, rfl⟩ := Option.map_eq_some_iff.mp hs
    exact ⟨l, henv e _ _ l hi hc he, hfol⟩

/-- The invariant rule, from the start: `I` holds in every state reached. -/
theorem Machine.sound {s₀ : S} {l₀ : T → L} {c : Config A R S T} (h0 : I s₀ l₀)
    (hfin : ∀ t, fin t (l₀ t))
    (hpost : ∀ t l a ch r s s', (P t).pre l a → M.exec t a ch s = some (r, s') → (P t).post l a r)
    (hrun : ∀ t a ch r s s' l, I s l → (P t).pre (l t) a → K.run s t a ch →
      M.exec t a ch s = some (r, s') → I s' (update l t ((P t).next (l t) a r)))
    (hstart : ∀ t q s l, I s l → fin t (l t) → K.start s t q → ∃ l', I s (update l t l') ∧
      (M.prog t q).Follows (P t) l' fun l _ => fin t l)
    (henv : ∀ e s s' l, I s l → K.env s e → M.env e s = some s' → I s' l)
    (h : Reach M.step K.Meets (Config.idle s₀) c) :
    ∃ l, I c.state l ∧ ∀ t, (c.threads t).Follows (P t) (l t) fun l _ => fin t l := by
  have hidle : ∃ l, I (Config.idle s₀ : Config A R S T).state l ∧
      ∀ t, ((Config.idle s₀ : Config A R S T).threads t).Follows (P t) (l t) fun l _ => fin t l :=
    ⟨l₀, h0, hfin⟩
  exact Machine.sound_from hidle hpost hrun hstart henv h

end

/-! ## A part of a program among the steps of others -/

section
variable {A : Type} {R : A → Type} {S T C Q E α β : Type}

def Label.thread? : Label T C Q E → Option T
  | .run t _ | .start t _ => some t
  | .env _ => none

/-- Whatever steps come in between, of which only `le` is known, the program ends in `Q`. -/
def Prog.Amid (exec : (a : A) → C → S → Option (R a × S)) (le : S → S → Prop) :
    Prog A R α → S → (α → S → Prop) → Prop
  | .ret x, s, Q => Q x s
  | .act a k, s, Q => ∀ s₁, le s s₁ → ∀ c r s₂, exec a c s₁ = some (r, s₂) → le s₁ s₂ →
      (k r).Amid exec le s₂ Q

section
variable {exec : (a : A) → C → S → Option (R a × S)} {le : S → S → Prop} {s s₁ : S}

theorem Prog.Amid.mono {p : Prog A R α} {Q Q' : α → S → Prop} (h : p.Amid exec le s Q)
    (hQ : ∀ x s, Q x s → Q' x s) : p.Amid exec le s Q' := by
  induction p generalizing s with
  | ret x => exact hQ x s h
  | act a k ih => exact fun s₁ hle c r s₂ he hle' => ih r (h s₁ hle c r s₂ he hle')

theorem Prog.Amid.bind {p : Prog A R α} {f : α → Prog A R β} {Q : β → S → Prop}
    (h : p.Amid exec le s fun x s => (f x).Amid exec le s Q) : (p.bind f).Amid exec le s Q := by
  induction p generalizing s with
  | ret x => exact h
  | act a k ih => exact fun s₁ hle c r s₂ he hle' => ih r (h s₁ hle c r s₂ he hle')

theorem Prog.amid_of_stable {P : S → Prop} (hP : ∀ {s s'}, le s s' → P s → P s')
    (p : Prog A R α) (h : P s) : p.Amid exec le s fun _ s => P s := by
  induction p generalizing s with
  | ret x => exact h
  | act a k ih => exact fun s₁ hle c r s₂ he hle' => ih r (hP hle' (hP hle h))

end

variable [DecidableEq T] {M : Machine A R S T C Q E} {K : Cond A S T C Q E} {t : T}

/-- From `c` to `c'` the thread `t` takes the program `p`, the next part of its own, to the result
`x`; the last step is its own. -/
inductive Machine.Stretch (M : Machine A R S T C Q E) (K : Cond A S T C Q E) (t : T) :
    Prog A R α → Config A R S T → α → Config A R S T → Prop where
  | done (x : α) (c : Config A R S T) : Stretch M K t (.ret x) c x c
  | own {a : A} {k : R a → Prog A R α} {k' : R a → Prog A R Unit} {ch : C}
    {c c' : Config A R S T} {r : R a}
      {s : S} {x : α} (ht : c.threads t = .act a k') (hK : K.run c.state t a ch)
      (he : M.exec t a ch c.state = some (r, s))
      (h : Stretch M K t (k r) ⟨s, update c.threads t (k' r)⟩ x c') :
        Stretch M K t (.act a k) c x c'
  | other {a : A} {k : R a → Prog A R α} {l : Label T C Q E} {c c₁ c' : Config A R S T} {x : α}
      (hl : l.thread? ≠ some t) (hK : K.Meets c l) (hs : M.step c l = some c₁)
      (h : Stretch M K t (.act a k) c₁ x c') : Stretch M K t (.act a k) c x c'

theorem Machine.step_cases {l : Label T C Q E} {c c' : Config A R S T} (hs : M.step c l = some c') :
    (∃ t a k ch r, l = .run t ch ∧ c.threads t = .act a k ∧
      M.exec t a ch c.state = some (r, c'.state)) ∨
      c'.state = c.state ∨ ∃ e, l = .env e ∧ M.env e c.state = some c'.state := by
  cases l with
  | run t ch =>
    simp only [Machine.step] at hs
    split at hs
    · cases hs
    · next a k ht =>
      obtain ⟨⟨r, s⟩, he, rfl⟩ := Option.map_eq_some_iff.mp hs
      exact .inl ⟨t, a, k, ch, r, rfl, ht, he⟩
  | start t q =>
    simp only [Machine.step] at hs
    split at hs
    · cases hs
      exact .inr (.inl rfl)
    · cases hs
  | env e =>
    obtain ⟨s, he, rfl⟩ := Option.map_eq_some_iff.mp hs
    exact .inr (.inr ⟨e, rfl, he⟩)

theorem Machine.step_other {l : Label T C Q E} {c c' : Config A R S T} (hl : l.thread? ≠ some t)
    (hs : M.step c l = some c') : c'.threads t = c.threads t := by
  cases l with
  | run u ch =>
    have hne : t ≠ u := fun e => hl (by rw [e]; rfl)
    simp only [Machine.step] at hs
    split at hs
    · cases hs
    · obtain ⟨⟨r, s⟩, -, rfl⟩ := Option.map_eq_some_iff.mp hs
      exact update_of_ne hne ..
  | start u q =>
    have hne : t ≠ u := fun e => hl (by rw [e]; rfl)
    simp only [Machine.step] at hs
    split at hs
    · cases hs
      exact update_of_ne hne ..
    · cases hs
  | env e =>
    obtain ⟨s, -, rfl⟩ := Option.map_eq_some_iff.mp hs
    rfl

section
variable {p : Prog A R α} {c₀ c c' : Config A R S T} {x : α}

theorem Machine.Stretch.threads {κ : α → Prog A R Unit} (h : M.Stretch K t p c x c')
    (hc : c.threads t = p.bind κ) : c'.threads t = κ x := by
  induction h with
  | done x c => exact hc
  | own ht hK he h ih =>
    obtain ⟨-, hk⟩ := Prog.act.inj (ht.symm.trans hc)
    cases hk
    exact ih (update_self ..)
  | other hl hK hs h ih => exact ih ((Machine.step_other hl hs).trans hc)

theorem Machine.Stretch.threads_bind {f : α → Prog A R β} {κ : β → Prog A R Unit}
    (h : M.Stretch K t p c x c') (hc : c.threads t = (p.bind f).bind κ) :
    c'.threads t = (f x).bind κ :=
  h.threads (hc.trans (Prog.bind_assoc ..))

theorem Machine.step_own {a : A} {k : R a → Prog A R Unit} {ch : C} {r : R a} {s : S}
    (ht : c.threads t = .act a k) (he : M.exec t a ch c.state = some (r, s)) :
    M.step c (.run t ch) = some ⟨s, update c.threads t (k r)⟩ := by
  simp only [Machine.step, ht, he, Option.map_some]

theorem Machine.Stretch.reach (h : M.Stretch K t p c x c') (h0 : Reach M.step K.Meets c₀ c) :
    Reach M.step K.Meets c₀ c' := by
  induction h with
  | done x c => exact h0
  | own ht hK he h ih =>
    refine ih (h0.step (l := .run t _) ?_ (Machine.step_own ht he))
    simp only [Cond.Meets, ht]
    exact hK
  | other hl hK hs h ih => exact ih (h0.step hK hs)

/-- A stretch of a reachable part of a run ends as its program does among any steps that are
`le`. -/
theorem Machine.Stretch.amid {le : S → S → Prop} {Q : α → S → Prop}
    (hrefl : ∀ {c}, Reach M.step K.Meets c₀ c → le c.state c.state)
    (htrans : ∀ {s s₁ s₂}, le s s₁ → le s₁ s₂ → le s s₂)
    (hstep : ∀ {c l c'}, Reach M.step K.Meets c₀ c → K.Meets c l → M.step c l = some c' →
      le c.state c'.state)
    (h : M.Stretch K t p c x c') (h0 : Reach M.step K.Meets c₀ c)
    (hp : p.Amid (M.exec t) le c.state Q) : Q x c'.state := by
  induction h with
  | done x c => exact hp
  | @own a k k' ch c c' r s x ht hK he h ih =>
    have hmeets : K.Meets c (.run t ch) := by
      simp only [Cond.Meets, ht]
      exact hK
    have hown := Machine.step_own ht he
    exact ih (h0.step hmeets hown) (hp _ (hrefl h0) _ _ _ he (hstep h0 hmeets hown))
  | other hl hK hs h ih =>
    exact ih (h0.step hK hs) fun s₁ hle => hp s₁ (htrans (hstep h0 hK hs) hle)

end

/-- Evaluate a stretch along given labels; the labels that are left. -/
def Machine.stretch (M : Machine A R S T C Q E) (K : Cond A S T C Q E) [K.Checkable] (t : T) :
    List (Label T C Q E) → Prog A R α → Config A R S T →
      Option (α × Config A R S T × List (Label T C Q E))
  | ls, .ret x, c => some (x, c, ls)
  | [], .act .., _ => none
  | l :: ls, .act a k, c =>
    if K.Meets c l then
      match l with
      | .run u ch =>
        if u = t then
          (M.exec t a ch c.state).bind fun r => (M.step c l).bind fun c₁ =>
          M.stretch K t ls (k r.1) c₁
        else (M.step c l).bind fun c₁ => M.stretch K t ls (.act a k) c₁
      | .start u _ => if u = t then none else (M.step c l).bind fun c₁ => M.stretch K t ls
          (.act a k) c₁
      | .env _ => (M.step c l).bind fun c₁ => M.stretch K t ls (.act a k) c₁
    else none

theorem Machine.Stretch.of_eval [K.Checkable] {ls : List (Label T C Q E)} :
    ∀ {ls' : List (Label T C Q E)} {p : Prog A R α} {κ : α → Prog A R Unit}
      {c c' : Config A R S T} {x : α},
    M.stretch K t ls p c = some (x, c', ls') → c.threads t = p.bind κ → M.Stretch K t p c x c' := by
  induction ls with
  | nil =>
    intro ls' p κ c c' x h hc
    cases p with
    | ret y =>
      cases h
      exact .done ..
    | act a k => cases h
  | cons l ls ih =>
    intro ls' p κ c c' x h hc
    cases p with
    | ret y =>
      cases h
      exact .done ..
    | act a k =>
      have hother : ∀ {c₁}, l.thread? ≠ some t → K.Meets c l → M.step c l = some c₁ →
          M.stretch K t ls (.act a k) c₁ = some (x, c', ls') → M.Stretch K t (.act a k) c x c' :=
        fun hl hK hs h => .other hl hK hs (ih h ((Machine.step_other hl hs).trans hc))
      unfold Machine.stretch at h
      split at h
      · next hK =>
        cases l with
        | run u ch =>
          simp only at h
          split at h
          · next e =>
            subst e
            obtain ⟨⟨r, s⟩, he, h⟩ := Option.bind_eq_some_iff.mp h
            obtain ⟨c₁, hs, h⟩ := Option.bind_eq_some_iff.mp h
            rw [Machine.step_own hc he] at hs
            cases hs
            have hKrun : K.run c.state u a ch := by
              simpa only [Cond.Meets, hc, Prog.act_bind] using hK
            exact .own hc hKrun he (ih h (update_self ..))
          · next hne =>
            obtain ⟨c₁, hs, h⟩ := Option.bind_eq_some_iff.mp h
            exact hother (fun e => hne (Option.some.inj e)) hK hs h
        | start u q =>
          simp only at h
          split at h
          · cases h
          · next hne =>
            obtain ⟨c₁, hs, h⟩ := Option.bind_eq_some_iff.mp h
            exact hother (fun e => hne (Option.some.inj e)) hK hs h
        | env e =>
          obtain ⟨c₁, hs, h⟩ := Option.bind_eq_some_iff.mp h
          exact hother nofun hK hs h
      · cases h

end

end QuicFs.Lib
