import Mathlib.Data.List.Basic
import Mathlib.Order.Lattice
import Mathlib.Logic.Function.Basic

/-!
# Sparse Arrays

A sparse array has a size and a cell for every index below it; cells that were never
written hold a default value. Writing past the end enlarges the array, and nothing makes
it smaller. This is what a file of blocks is for its users.

`writeAll` writes a list of cells one after the other. `lastWrite` and `extent` say, from
the list alone, which cells and which size the result has: `get_writeAll` and
`size_writeAll`.
-/

namespace Egos.Lib

variable {B : Type}

/-- An array whose cells from `size` on all hold `hole`. -/
@[ext] structure SparseArray (hole : B) where
  size : ℕ
  get : ℕ → B
  beyond : ∀ i, size ≤ i → get i = hole

namespace SparseArray

variable {hole : B}

/-- The array of size 0. -/
def empty (hole : B) : SparseArray hole := ⟨0, fun _ => hole, fun _ _ => rfl⟩

/-- Reading fails from `size` on. -/
def read (f : SparseArray hole) (i : ℕ) : Option B := if i < f.size then some (f.get i) else none

/-- Writing cell `i` enlarges the array if needed. -/
def write (f : SparseArray hole) (i : ℕ) (b : B) : SparseArray hole where
  size := max f.size (i + 1)
  get := Function.update f.get i b
  beyond := by
    intro j hj
    rw [Function.update_of_ne (by omega), f.beyond j (by omega)]

theorem read_write_self (f : SparseArray hole) (i : ℕ) (b : B) : (f.write i b).read i = some b := by
  have hlt : i < max f.size (i + 1) := by omega
  simp [read, write, hlt]

/-- A write keeps every other cell that could be read. -/
theorem read_write_of_ne {f : SparseArray hole} {i j : ℕ} {b c : B} (hne : j ≠ i)
    (h : f.read j = some c) : (f.write i b).read j = some c := by
  rw [read] at h
  split_ifs at h with hlt
  have hlt' : j < max f.size (i + 1) := by omega
  simpa [read, write, hlt', Function.update_of_ne hne] using h

/-! ## Lists of writes -/

/-- Write a list of cells, first to last. -/
def writeAll (f : SparseArray hole) (ws : List (ℕ × B)) : SparseArray hole :=
  ws.foldl (fun g w => g.write w.1 w.2) f

/-- The value of the last write to cell `i`, if there is one. -/
def lastWrite (i : ℕ) : List (ℕ × B) → Option B
  | [] => none
  | (j, b) :: ws => (lastWrite i ws).or (if j = i then some b else none)

theorem lastWrite_snoc (ws : List (ℕ × B)) (i j : ℕ) (b : B) :
    lastWrite i (ws ++ [(j, b)]) = if j = i then some b else lastWrite i ws := by
  induction ws with
  | nil => rfl
  | cons w ws ih =>
    rw [List.cons_append, lastWrite, ih, lastWrite]
    by_cases hji : j = i
    · rw [if_pos hji, if_pos hji, Option.some_or]
    · rw [if_neg hji, if_neg hji]

/-- One more than the largest index written, 0 if there is none. -/
def extent : List (ℕ × B) → ℕ
  | [] => 0
  | (j, _) :: ws => max (j + 1) (extent ws)

theorem size_writeAll (f : SparseArray hole) (ws : List (ℕ × B)) :
    (f.writeAll ws).size = max f.size (extent ws) := by
  induction ws generalizing f with
  | nil => simp [writeAll, extent]
  | cons w ws ih =>
    show ((f.write w.1 w.2).writeAll ws).size = _
    rw [ih, extent, write, max_assoc]

theorem get_writeAll (f : SparseArray hole) (ws : List (ℕ × B)) (i : ℕ) :
    (f.writeAll ws).get i = (lastWrite i ws).getD (f.get i) := by
  induction ws generalizing f with
  | nil => rfl
  | cons w ws ih =>
    obtain ⟨j, b⟩ := w
    show ((f.write j b).writeAll ws).get i = _
    rw [ih, lastWrite]
    cases hlast : lastWrite i ws with
    | some b' => rfl
    | none =>
      by_cases hij : i = j
      · subst hij
        simp [write]
      · simp [write, Function.update_of_ne hij, Ne.symm hij]

/-- A cell that was written lies below the extent. -/
theorem lt_extent_of_lastWrite {ws : List (ℕ × B)} {i : ℕ} {b : B}
    (h : lastWrite i ws = some b) : i < extent ws := by
  induction ws generalizing b with
  | nil => cases h
  | cons w ws ih =>
    obtain ⟨j, b'⟩ := w
    rw [lastWrite] at h
    rw [extent]
    cases hlast : lastWrite i ws with
    | some b'' => exact lt_of_lt_of_le (ih hlast) (le_max_right _ _)
    | none =>
      rw [hlast] at h
      by_cases hji : j = i
      · omega
      · simp [hji] at h

theorem writeAll_snoc (f : SparseArray hole) (ws : List (ℕ × B)) (i : ℕ) (b : B) :
    f.writeAll (ws ++ [(i, b)]) = (f.writeAll ws).write i b := by
  rw [writeAll, List.foldl_append]
  rfl

/-- An array that is filled from its start on. -/
theorem read_writeAll_range (f : ℕ → B) (n i : ℕ) :
    ((empty hole).writeAll ((List.range n).map fun j => (j, f j))).read i =
      if i < n then some (f i) else none := by
  have hfilled : ((empty hole).writeAll ((List.range n).map fun j => (j, f j))).size = n ∧
      ∀ j < n, ((empty hole).writeAll ((List.range n).map fun j => (j, f j))).get j = f j := by
    induction n with
    | zero => exact ⟨rfl, fun j hj => absurd hj (Nat.not_lt_zero j)⟩
    | succ n ih =>
      obtain ⟨hsize, hget⟩ := ih
      rw [List.range_succ, List.map_append, List.map_singleton, writeAll_snoc]
      refine ⟨?_, fun j hj => ?_⟩
      · simp only [write, hsize]
        exact Nat.max_eq_right (Nat.le_succ n)
      · simp only [write]
        by_cases hjn : j = n
        · rw [hjn, Function.update_self]
        · rw [Function.update_of_ne hjn, hget j (by omega)]
  rw [read, hfilled.1]
  split_ifs with hi
  · rw [hfilled.2 i hi]
  · rfl

/-- What a freshly filled array reads back. -/
theorem read_writeAll_empty (ws : List (ℕ × B)) (i : ℕ) :
    ((empty hole).writeAll ws).read i =
      if i < extent ws then some ((lastWrite i ws).getD hole) else none := by
  rw [read, size_writeAll, get_writeAll]
  simp [empty]

end SparseArray

end Egos.Lib
