import Mathlib.Data.List.Basic

/-!
# Labelled Transition Systems

Runs of a step relation, with the list of labels of their steps, and the two rules every
proof about runs uses: an invariant kept by each step holds after each run, and an
abstract machine that follows each step follows each run (`simulate` for a function,
`map` for a relation).
-/

namespace Egos.Lib

variable {S A T : Type*} {step : S → A → S → Prop}

/-- `Run step s as t`: from `s`, steps with the labels `as`, first to last, lead to `t`. -/
inductive Run (step : S → A → S → Prop) (s : S) : List A → S → Prop where
  | nil : Run step s [] s
  | snoc {as : List A} {a : A} {t u : S} : Run step s as t → step t a u → Run step s (as ++ [a]) u

namespace Run

variable {s t : S} {as : List A}

theorem cons {a : A} {t u : S} {as : List A} (ha : step s a t) (h : Run step t as u) :
    Run step s (a :: as) u := by
  induction h with
  | nil => exact .snoc .nil ha
  | snoc _ hb ih => exact .snoc ih hb

theorem append {bs : List A} {u : S} (h : Run step s as t) (h' : Run step t bs u) :
    Run step s (as ++ bs) u := by
  induction h' with
  | nil => rwa [List.append_nil]
  | snoc _ hb ih =>
    rw [← List.append_assoc]
    exact .snoc ih hb

theorem mono {step' : S → A → S → Prop} (h : Run step s as t)
    (hstep : ∀ t a u, step t a u → step' t a u) : Run step' s as t := by
  induction h with
  | nil => exact .nil
  | snoc _ ha ih => exact .snoc ih (hstep _ _ _ ha)

/-- A run has a last step, unless it is empty. -/
theorem exists_last (h : Run step s as t) (hne : as ≠ []) :
    ∃ bs a u, as = bs ++ [a] ∧ Run step s bs u ∧ step u a t := by
  cases h with
  | nil => exact absurd rfl hne
  | snoc hrun ha => exact ⟨_, _, _, rfl, hrun, ha⟩

/-- An invariant kept by every step holds after every run. -/
theorem invariant {P : S → Prop} (h : Run step s as t) (h₀ : P s)
    (hstep : ∀ t a u, P t → step t a u → P u) : P t := by
  induction h with
  | nil => exact h₀
  | snoc _ ha ih => exact hstep _ _ _ ih ha

/-- The same for an invariant that also speaks about the labels so far. -/
theorem invariant_log {P : List A → S → Prop} (h : Run step s as t) (h₀ : P [] s)
    (hstep : ∀ as t a u, P as t → step t a u → P (as ++ [a]) u) : P as t := by
  induction h with
  | nil => exact h₀
  | snoc _ ha ih => exact hstep _ _ _ _ ih ha

/-- If every run of fewer than `n` steps can be continued, there are runs of every length up
    to `n`. -/
theorem exists_of_progress {n : ℕ} (hprogress : ∀ as t, Run step s as t → as.length < n →
    ∃ a u, step t a u) : ∀ m ≤ n, ∃ as t, Run step s as t ∧ as.length = m := by
  intro m hm
  induction m with
  | zero => exact ⟨[], s, .nil, rfl⟩
  | succ m ih =>
    obtain ⟨as, t, hrun, hlen⟩ := ih (Nat.le_of_succ_le hm)
    obtain ⟨a, u, ha⟩ := hprogress as t hrun (hlen ▸ hm)
    exact ⟨as ++ [a], u, .snoc hrun ha, by simp [hlen]⟩

/-- A deterministic abstract machine that follows every step follows every run. -/
theorem simulate {R : S → T → Prop} {next : T → A → T} {x : T} (h : Run step s as t)
    (h₀ : R s x) (hstep : ∀ t a u y, R t y → step t a u → R u (next y a)) :
    R t (as.foldl next x) := by
  refine h.invariant_log (P := fun as t => R t (as.foldl next x)) h₀ ?_
  intro as t a u hR ha
  rw [List.foldl_append]
  exact hstep t a u _ hR ha

/-- A map of states and labels that takes every step, from states with an invariant, to a
    step takes every run to a run. -/
theorem map {B : Type*} {step' : T → B → T → Prop} {f : S → T} {g : A → B} {P : S → Prop}
    (h : Run step s as t) (h₀ : P s)
    (hstep : ∀ t a u, P t → step t a u → P u ∧ step' (f t) (g a) (f u)) :
    P t ∧ Run step' (f s) (as.map g) (f t) := by
  refine h.invariant_log (P := fun as t => P t ∧ Run step' (f s) (as.map g) (f t))
    ⟨h₀, .nil⟩ ?_
  rintro as t a u ⟨hP, hrun⟩ ha
  obtain ⟨hP', ha'⟩ := hstep t a u hP ha
  rw [List.map_append]
  exact ⟨hP', .snoc hrun ha'⟩

end Run

end Egos.Lib
