import Mathlib.Logic.Basic

/-!
# How a Computation Ends

A postcondition for computations that may fail: what holds of the result, and what holds of
the error. `ends_bind`, `ends_foldlM` and `Ends.mono` are the rules; `ends_foldlM_range` is the
rule for a loop that counts. `Ends.of_ok` and `Ends.exists_ok` lead back to equations.

`Related` compares two computations. `Related.bind` and `Related.foldlM` follow their
structure, and `Related.ends` carries a postcondition from one to the other.
-/

namespace Egos.Lib

variable {ε α β : Type} {Q Q' : α → Prop} {E E' : ε → Prop}

/-- A result of `x` satisfies `Q`, an error satisfies `E`. -/
def Ends (x : Except ε α) (Q : α → Prop) (E : ε → Prop) : Prop :=
  match x with
  | .ok a => Q a
  | .error e => E e

@[simp] theorem ends_ok (a : α) : Ends (.ok a) Q E ↔ Q a := Iff.rfl

@[simp] theorem ends_error (e : ε) : Ends (.error e) Q E ↔ E e := Iff.rfl

theorem ends_bind {Q : β → Prop} (x : Except ε α) (f : α → Except ε β) :
    Ends (x >>= f) Q E ↔ Ends x (fun a => Ends (f a) Q E) E := by
  cases x <;> rfl

theorem Ends.mono {x : Except ε α} (h : Ends x Q E) (hQ : ∀ a, Q a → Q' a)
    (hE : ∀ e, E e → E' e) : Ends x Q' E' := by
  cases x with
  | ok a => exact hQ a h
  | error e => exact hE e h

theorem Ends.and {x : Except ε α} (h : Ends x Q E) (h' : Ends x Q' E) :
    Ends x (fun a => Q a ∧ Q' a) E := by
  cases x with
  | ok a => exact ⟨h, h'⟩
  | error e => exact h

/-- A loop keeps what each of its turns keeps. -/
theorem ends_foldlM {γ : Type} {f : α → γ → Except ε α} (hf : ∀ a c, Q a → Ends (f a c) Q E)
    (cs : List γ) {a : α} (ha : Q a) : Ends (cs.foldlM f a) Q E := by
  induction cs generalizing a with
  | nil => exact ha
  | cons c cs ih =>
    rw [List.foldlM_cons, ends_bind]
    exact (hf a c ha).mono (fun a' ha' => ih ha') fun _ he => he

/-- A loop that counts: the invariant may speak of the number of turns. -/
theorem ends_foldlM_range {f : α → Nat → Except ε α} {I : Nat → α → Prop} {n : Nat}
    (hf : ∀ j < n, ∀ a, I j a → Ends (f a j) (I (j + 1)) E) {a : α} (ha : I 0 a) :
    Ends ((List.range n).foldlM f a) (I n) E := by
  induction n with
  | zero => exact ha
  | succ n ih =>
    rw [List.range_succ, List.foldlM_append, ends_bind]
    refine (ih fun j hj => hf j (Nat.lt_succ_of_lt hj)).mono (fun a' ha' => ?_) fun _ he => he
    rw [List.foldlM_cons, ends_bind]
    exact (hf n (Nat.lt_succ_self n) a' ha').mono (fun _ h => h) fun _ he => he

theorem Ends.of_ok {x : Except ε α} {a : α} (h : Ends x Q E) (hx : x = .ok a) : Q a := by
  subst hx
  exact h

theorem Ends.of_error {x : Except ε α} {e : ε} (h : Ends x Q E) (hx : x = .error e) : E e := by
  subst hx
  exact h

instance [DecidablePred Q] [DecidablePred E] (x : Except ε α) : Decidable (Ends x Q E) :=
  match x with
  | .ok a => inferInstanceAs (Decidable (Q a))
  | .error e => inferInstanceAs (Decidable (E e))

/-- A computation without a result fails. -/
theorem Ends.eq_error {x : Except ε α} {e : ε} (h : Ends x (fun _ => False) (· = e)) :
    x = .error e := by
  cases x with
  | ok a => exact h.elim
  | error e' => exact congrArg Except.error h

/-- A computation that cannot fail has a result. -/
theorem Ends.exists_ok {x : Except ε α} (h : Ends x Q E) (hE : ∀ e, ¬ E e) :
    ∃ a, x = .ok a ∧ Q a := by
  cases x with
  | ok a => exact ⟨a, rfl, h⟩
  | error e => exact absurd h (hE e)

/-! ## Two computations -/

/-- Both computations have results, and these are related, or both fail in the same way. -/
inductive Related (R : α → β → Prop) : Except ε α → Except ε β → Prop where
  | ok {a : α} {b : β} (h : R a b) : Related R (.ok a) (.ok b)
  | error (e : ε) : Related R (.error e) (.error e)

section Related

variable {R : α → β → Prop} {x : Except ε α} {y : Except ε β}

theorem Related.error_eq (h : Related R x y) {e : ε} (hx : x = .error e) : y = .error e := by
  cases h with
  | ok => cases hx
  | error => exact congrArg _ (Except.error.inj hx)

theorem Related.bind {α' β' : Type} {R' : α' → β' → Prop} {f : α → Except ε α'}
    {g : β → Except ε β'} (h : Related R x y) (hfg : ∀ a b, R a b → Related R' (f a) (g b)) :
    Related R' (x >>= f) (y >>= g) := by
  cases h with
  | ok hab => exact hfg _ _ hab
  | error e => exact .error e

theorem Related.foldlM {γ : Type} {f : α → γ → Except ε α} {g : β → γ → Except ε β}
    (hfg : ∀ a b c, R a b → Related R (f a c) (g b c)) (cs : List γ) {a : α} {b : β}
    (h : R a b) : Related R (cs.foldlM f a) (cs.foldlM g b) := by
  induction cs generalizing a b with
  | nil => exact .ok h
  | cons c cs ih =>
    rw [List.foldlM_cons, List.foldlM_cons]
    exact (hfg a b c h).bind fun _ _ h' => ih h'

/-- What holds of the second computation holds of the first one, up to the relation. -/
theorem Related.ends {Q : β → Prop} (h : Related R x y) (hy : Ends y Q E) :
    Ends x (fun a => ∃ b, R a b ∧ Q b) E := by
  cases h with
  | ok hab => exact ⟨_, hab, hy⟩
  | error e => exact hy

end Related

end Egos.Lib
