import Mathlib.Data.List.OfFn
import Egos.Lib.Transition

/-!
# Executing Runs

Runs from a fixed state, by evaluation. A function that makes single steps is iterated over a
list of commands (`execute`), and what it does is a run (`run_executed`).

A state that holds tables, as functions, is a nest of updates after some steps. Each lookup goes
through all of them, and an update that looks at the table itself doubles the work. `Force` is for
types with values that can be brought into normal form: `force a f` is `f a` (`force_eq`), but `a`
is evaluated first. `execute` does so with the state after each step.
-/

namespace Egos.Lib

/-- Values that can be evaluated before they are used. -/
class Force (α : Type) where
  force {β : Type} : α → (α → β) → β
  force_eq {β : Type} (a : α) (f : α → β) : force a f = f a

open Force

attribute [simp] Force.force_eq

section Force

variable {α β : Type}

instance : Force ℕ where
  force n f := match n with
    | 0 => f 0
    | n + 1 => f (n + 1)
  force_eq n f := by cases n <;> rfl

instance : Force ℤ where
  force n f := match n with
    | .ofNat n => force n fun n => f (.ofNat n)
    | .negSucc n => force n fun n => f (.negSucc n)
  force_eq n f := by cases n <;> simp

instance : Force Bool where
  force b f := match b with
    | true => f true
    | false => f false
  force_eq b f := by cases b <;> rfl

instance (n : ℕ) : Force (Fin n) where
  force i f := force i.val fun m => if h : m < n then f ⟨m, h⟩ else f i
  force_eq i f := by simp

/-- The elements of a list, from the first to the last. -/
def forceList [Force α] : List α → (List α → β) → β
  | [], f => f []
  | a :: l, f => force a fun a => forceList l fun l => f (a :: l)

theorem forceList_eq [Force α] (l : List α) (f : List α → β) : forceList l f = f l := by
  induction l generalizing f with
  | nil => rfl
  | cons a l ih => rw [forceList, force_eq, ih]

/-- A table with finitely many places becomes a list. -/
instance (n : ℕ) [Force α] : Force (Fin n → α) where
  force t f := forceList (List.ofFn t) fun l => f fun i => l.getD i.val (t i)
  force_eq t f := by
    rw [forceList_eq]
    congr 1
    funext i
    simp

/-- A table over the integers, evaluated at the numbers from 0 to `n - 1`. -/
def forceBelow [Force α] (n : ℕ) (t : ℤ → α) (f : (ℤ → α) → β) : β :=
  forceList ((List.range n).map fun i => t (.ofNat i)) fun l => f fun p =>
    match p with
    | .ofNat i => l.getD i (t p)
    | .negSucc _ => t p

theorem forceBelow_eq [Force α] (n : ℕ) (t : ℤ → α) (f : (ℤ → α) → β) :
    forceBelow n t f = f t := by
  rw [forceBelow, forceList_eq]
  congr 1
  funext p
  cases p with
  | negSucc i => rfl
  | ofNat i =>
    by_cases hi : i < n
    · simp [hi]
    · simp [Nat.not_lt.mp hi]

end Force

section Execute

variable {σ γ ε : Type} {act : σ → γ → Option (ε × σ)}

/-- Only steps with a label that passes the check. -/
def checked (check : σ → ε → Bool) (act : σ → γ → Option (ε × σ)) (s : σ) (c : γ) :
    Option (ε × σ) :=
  (act s c).filter fun r => check s r.1

theorem checked_eq_some {check : σ → ε → Bool} {s s' : σ} {c : γ} {e : ε} :
    checked check act s c = some (e, s') ↔ act s c = some (e, s') ∧ check s e = true :=
  Option.filter_eq_some_iff

variable [Force σ]

/-- The steps for a list of commands, one after the other. -/
def execute (act : σ → γ → Option (ε × σ)) : List γ → σ → Option (List ε × σ)
  | [], s => some ([], s)
  | c :: cs, s => (act s c).bind fun r => force r.2 fun s' =>
      (execute act cs s').map fun rest => (r.1 :: rest.1, rest.2)

/-- The labels of these steps, and the state after them. -/
def executed (act : σ → γ → Option (ε × σ)) (cs : List γ) (s : σ) : List ε × σ :=
  (execute act cs s).getD ([], s)

theorem run_of_execute {step : σ → ε → σ → Prop} (hact : ∀ s c e s', act s c = some (e, s') →
    step s e s') {cs : List γ} {s s' : σ} {es : List ε} (h : execute act cs s = some (es, s')) :
    Run step s es s' := by
  induction cs generalizing s es with
  | nil =>
    obtain ⟨rfl, rfl⟩ := Prod.mk.inj (Option.some.inj h)
    exact .nil
  | cons c cs ih =>
    rw [execute, Option.bind_eq_some_iff] at h
    obtain ⟨⟨e, s₁⟩, hfirst, hrest⟩ := h
    rw [force_eq, Option.map_eq_some_iff] at hrest
    obtain ⟨⟨es', s₂⟩, hrest, heq⟩ := hrest
    obtain ⟨rfl, rfl⟩ := Prod.mk.inj heq
    exact .cons (hact s c e s₁ hfirst) (ih hrest)

theorem length_of_execute {cs : List γ} {s s' : σ} {es : List ε}
    (h : execute act cs s = some (es, s')) : es.length = cs.length := by
  induction cs generalizing s es with
  | nil =>
    obtain ⟨rfl, rfl⟩ := Prod.mk.inj (Option.some.inj h)
    rfl
  | cons c cs ih =>
    rw [execute, Option.bind_eq_some_iff] at h
    obtain ⟨⟨e, s₁⟩, _, hrest⟩ := h
    rw [force_eq, Option.map_eq_some_iff] at hrest
    obtain ⟨⟨es', s₂⟩, hrest, heq⟩ := hrest
    obtain ⟨rfl, rfl⟩ := Prod.mk.inj heq
    rw [List.length_cons, List.length_cons, ih hrest]

theorem execute_eq_executed {cs : List γ} {s : σ} (h : (execute act cs s).isSome = true) :
    execute act cs s = some (executed act cs s) :=
  (Option.getD_of_ne_none (Option.isSome_iff_ne_none.mp h) _).symm

theorem length_executed {cs : List γ} {s : σ} (h : (execute act cs s).isSome = true) :
    (executed act cs s).1.length = cs.length :=
  length_of_execute (execute_eq_executed h)

/-- What is executed is a run. -/
theorem run_executed {step : σ → ε → σ → Prop} (hact : ∀ s c e s', act s c = some (e, s') →
    step s e s') {cs : List γ} {s : σ} (h : (execute act cs s).isSome = true) :
    Run step s (executed act cs s).1 (executed act cs s).2 :=
  run_of_execute hact (execute_eq_executed h)

end Execute

end Egos.Lib
