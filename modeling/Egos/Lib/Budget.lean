import Egos.Lib.Ends
import Mathlib.Algebra.BigOperators.Group.List.Basic
import Mathlib.Algebra.GroupWithZero.Nat

/-!
# Budgets

Computations that draw on a supply and fail exactly when it runs out. A computation that spends
`n` has a result if the supply is at least `n`, and then the rest of the supply is left; with less
it fails. Spending adds up along `bind` and over loops (`Spends.bind`, `spends_foldlM`).
-/

namespace Egos.Lib

variable {ε α β : Type} {b m n : ℕ} {x : Except ε α} {left : α → ℕ}

/-- Started with the supply `b`, the computation spends `n` of it; `left` is the supply that comes
    with a result. -/
def Spends (b n : ℕ) (x : Except ε α) (left : α → ℕ) : Prop :=
  Ends x (fun a => left a + n = b) fun _ => b < n

theorem ends_true (x : Except ε α) : Ends x (fun _ => True) fun _ => True := by
  cases x <;> trivial

/-- Both parts of a computation spend; the second may rely on what is known of the first result. -/
theorem Spends.bind {P : α → Prop} {f : α → Except ε β} {left' : β → ℕ} (h : Spends b n x left)
    (hP : Ends x P fun _ => True) (hf : ∀ a, P a → Spends (left a) m (f a) left') :
    Spends b (n + m) (x >>= f) left' := by
  cases x with
  | error e => exact Nat.lt_add_right m h
  | ok a =>
    have hleft : left a + n = b := h
    refine (hf a hP).mono (fun c (hc : left' c + m = left a) => ?_) fun e (he : left a < m) => ?_
    · omega
    · omega

/-- The second part spends nothing. -/
theorem Spends.bind_free {f : α → Except ε β} {left' : β → ℕ} (h : Spends b n x left)
    (hf : ∀ a, ∃ c, f a = .ok c ∧ left' c = left a) : Spends b n (x >>= f) left' := by
  refine h.bind (m := 0) (ends_true x) fun a _ => ?_
  obtain ⟨c, hc, hleft⟩ := hf a
  rw [hc]
  exact hleft

/-- A loop spends what its turns spend. -/
theorem spends_foldlM {γ : Type} {f : α → γ → Except ε α} {cost : γ → ℕ}
    (hf : ∀ a c, Spends (left a) (cost c) (f a c) left) (cs : List γ) (a : α) :
    Spends (left a) (cs.map cost).sum (cs.foldlM f a) left := by
  induction cs generalizing a with
  | nil => exact Nat.add_zero _
  | cons c cs ih =>
    rw [List.map_cons, List.sum_cons, List.foldlM_cons]
    exact (hf a c).bind (ends_true _) fun a' _ => ih a'

/-- A loop whose turns spend 1. -/
theorem spends_foldlM_one {γ : Type} {f : α → γ → Except ε α}
    (hf : ∀ a c, Spends (left a) 1 (f a c) left) {cs : List γ} (hn : cs.length = n) (a : α) :
    Spends (left a) n (cs.foldlM f a) left := by
  have hloop := spends_foldlM hf cs a
  rwa [show (cs.map fun _ => 1).sum = n by simpa using hn] at hloop

theorem Spends.of_ok {a : α} (h : Spends b n x left) (hx : x = .ok a) : left a + n = b := by
  subst hx
  exact h

/-- With enough supply there is a result. -/
theorem Spends.exists_ok (h : Spends b n x left) (hle : n ≤ b) :
    ∃ a, x = .ok a ∧ left a + n = b :=
  Ends.exists_ok h fun _ => Nat.not_lt.mpr hle

/-- Otherwise there is none. -/
theorem Spends.exists_error (h : Spends b n x left) (hlt : b < n) : ∃ e, x = .error e := by
  cases x with
  | error e => exact ⟨e, rfl⟩
  | ok a =>
    have hleft : left a + n = b := h
    omega

end Egos.Lib
