import Mathlib.Data.Nat.ModEq
import Mathlib.Data.List.Nodup

/-!
# Cyclic Scans

A scan over `N` places that starts behind the place `c` and goes once around. The first place
that it accepts is not farther away than any other place that it would accept, and from there
the other place has come nearer.
-/

namespace Egos.Lib

variable {N c x j : ℕ}

/-- The places in the order of the scan; `c` itself is the last, if it is a place. -/
def cyclicScan (N c : ℕ) : List ℕ := (List.range N).map fun i => (c + (i + 1)) % N

/-- How many places the scan visits before it comes to `j`. -/
def turnsTo (N c j : ℕ) : ℕ := (j + (N - (c + 1) % N)) % N

theorem turnsTo_lt (hj : j < N) : turnsTo N c j < N := Nat.mod_lt _ (by omega)

/-- The place after that many turns is `j`. -/
theorem add_turnsTo (hj : j < N) : (c + (turnsTo N c j + 1)) % N = j := by
  have hr : (c + 1) % N < N := Nat.mod_lt _ (by omega)
  unfold turnsTo
  rw [show c + ((j + (N - (c + 1) % N)) % N + 1) = c + 1 + (j + (N - (c + 1) % N)) % N by omega,
    Nat.add_mod_mod, ← Nat.mod_add_mod, show (c + 1) % N + (j + (N - (c + 1) % N)) = j + N by omega,
    Nat.add_mod_right, Nat.mod_eq_of_lt hj]

/-- It is the only number of turns below `N`. -/
theorem eq_turnsTo {d : ℕ} (hd : d < N) (hj : (c + (d + 1)) % N = j) : d = turnsTo N c j := by
  have hlt : j < N := hj ▸ Nat.mod_lt _ (by omega)
  have hmod : c + 1 + d ≡ c + 1 + turnsTo N c j [MOD N] := by
    show (c + 1 + d) % N = (c + 1 + turnsTo N c j) % N
    rw [show c + 1 + d = c + (d + 1) by omega, hj,
      show c + 1 + turnsTo N c j = c + (turnsTo N c j + 1) by omega, add_turnsTo hlt]
  exact (Nat.ModEq.add_left_cancel' _ hmod).eq_of_lt_of_lt hd (turnsTo_lt hlt)

/-- From a place on the way, the other place is nearer. -/
theorem turnsTo_lt_turnsTo (hx : x < N) (hj : j < N) (hne : x ≠ j)
    (hle : turnsTo N c x ≤ turnsTo N c j) : turnsTo N x j < turnsTo N c j := by
  have hlt : turnsTo N c x < turnsTo N c j := by
    refine Nat.lt_of_le_of_ne hle fun heq => hne ?_
    rw [← add_turnsTo (c := c) hx, heq, add_turnsTo hj]
  have hbound := turnsTo_lt (c := c) hj
  have hsteps : turnsTo N c j - turnsTo N c x - 1 = turnsTo N x j := by
    refine eq_turnsTo (by omega) ?_
    calc (x + (turnsTo N c j - turnsTo N c x - 1 + 1)) % N
        = ((c + (turnsTo N c x + 1)) % N + (turnsTo N c j - turnsTo N c x)) % N := by
          rw [add_turnsTo hx, Nat.sub_add_cancel (by omega)]
      _ = (c + (turnsTo N c j + 1)) % N := by
          rw [Nat.mod_add_mod]
          congr 1
          omega
      _ = j := add_turnsTo hj
  omega

theorem getElem?_cyclicScan {i : ℕ} (hi : i < N) : (cyclicScan N c)[i]? = some ((c + (i + 1)) % N) := by
  simp [cyclicScan, hi]

/-- Every place stands in the scan, after the places on the way to it. -/
theorem getElem?_turnsTo (hj : j < N) : (cyclicScan N c)[turnsTo N c j]? = some j := by
  rw [getElem?_cyclicScan (turnsTo_lt hj), add_turnsTo hj]

theorem mem_cyclicScan (hj : j < N) : j ∈ cyclicScan N c :=
  List.mem_of_getElem? (getElem?_turnsTo hj)

/-- A place that does not come before `x` in the scan is not nearer. -/
theorem turnsTo_le {before after : List ℕ} (hscan : cyclicScan N c = before ++ x :: after)
    (hj : j < N) (hbefore : j ∉ before) : x < N ∧ turnsTo N c x ≤ turnsTo N c j := by
  have hlength : before.length < N := by
    have hlen := congrArg List.length hscan
    simp only [cyclicScan, List.length_map, List.length_range, List.length_append,
      List.length_cons] at hlen
    omega
  -- the place `x` stands at the index `before.length`
  have hx : x = (c + (before.length + 1)) % N := by
    have hget := getElem?_cyclicScan (c := c) hlength
    rw [hscan, List.getElem?_append_right (Nat.le_refl _), Nat.sub_self,
      List.getElem?_cons_zero] at hget
    exact Option.some.inj hget
  refine ⟨hx ▸ Nat.mod_lt _ (by omega), ?_⟩
  rw [← eq_turnsTo hlength hx.symm]
  by_contra hlt
  -- and `j` at the index of its turns, which would lie in front of it
  have hget := getElem?_turnsTo (c := c) hj
  rw [hscan, List.getElem?_append_left (Nat.lt_of_not_le hlt)] at hget
  exact hbefore (List.mem_of_getElem? hget)

/-- The scan finds a place, and none that it would accept comes before it. -/
theorem find?_cyclicScan {p : ℕ → Bool} (hj : j < N) (hp : p j = true) :
    ∃ x, (cyclicScan N c).find? p = some x ∧ x < N ∧ p x = true ∧
      turnsTo N c x ≤ turnsTo N c j := by
  cases hfind : (cyclicScan N c).find? p with
  | none =>
    have hnot := List.find?_eq_none.mp hfind j (mem_cyclicScan hj)
    exact absurd hp hnot
  | some x =>
    obtain ⟨hpx, before, after, hscan, hbefore⟩ := List.find?_eq_some_iff_append.mp hfind
    have hmem : j ∉ before := by
      intro hmem
      have hnot := hbefore j hmem
      rw [hp] at hnot
      cases hnot
    obtain ⟨hx, hle⟩ := turnsTo_le hscan hj hmem
    exact ⟨x, rfl, hx, hpx, hle⟩

end Egos.Lib
