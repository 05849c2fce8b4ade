import Mathlib.Data.List.Basic
import Mathlib.Data.List.GetD

/-!
# Strings in a Memory

Strings that end with a zero, as C has them, and `strncpy`: it always writes `n` bytes, and
writes no zero if the string is not shorter than that.
-/

namespace Egos.Lib

variable {α : Type*} [Zero α] {mem : ℕ → α} {base n k : ℕ} {s s' : List α}

/-- The string `s` and the zero behind it start at `base`. -/
structure HoldsString (mem : ℕ → α) (base : ℕ) (s : List α) : Prop where
  zero_notMem : 0 ∉ s
  char : ∀ j (h : j < s.length), mem (base + j) = s[j]
  zero : mem (base + s.length) = 0

/-- The `n` bytes from `base` on hold as much of `s` as there is room for, and then zeros. -/
def Padded (mem : ℕ → α) (base n : ℕ) (s : List α) : Prop := ∀ k < n, mem (base + k) = s.getD k 0

/-- There is a zero in the `n` bytes from `base` on. -/
def EndsWithin (mem : ℕ → α) (base n : ℕ) : Prop := ∃ j < n, mem (base + j) = 0

/-- A string that is shorter than `n` is there with its zero. -/
theorem Padded.holdsString (h : Padded mem base n s) (hzero : 0 ∉ s) (hlt : s.length < n) :
    HoldsString mem base s := by
  refine ⟨hzero, fun j hj => ?_, ?_⟩
  · rw [h j (Nat.lt_trans hj hlt), List.getD_eq_getElem _ _ hj]
  · rw [h s.length hlt, List.getD_eq_default _ _ (Nat.le_refl _)]

theorem Padded.endsWithin_iff (h : Padded mem base n s) (hzero : 0 ∉ s) :
    EndsWithin mem base n ↔ s.length < n := by
  constructor
  · rintro ⟨j, hj, hmem⟩
    rw [h j hj] at hmem
    by_contra hle
    have hlt : j < s.length := by omega
    rw [List.getD_eq_getElem _ _ hlt] at hmem
    exact hzero (hmem ▸ List.getElem_mem hlt)
  · intro hlt
    exact ⟨s.length, hlt, (h.holdsString hzero hlt).zero⟩

/-- A buffer that starts with a string and its zero. -/
theorem exists_eq_append_zero {buf : List α} {m : ℕ} (hlt : s.length < m) (hm : m ≤ buf.length)
    (hget : ∀ i (hi : i < buf.length), i < m → buf[i] = s.getD i 0) :
    ∃ rest, buf = s ++ 0 :: rest := by
  have htake : buf.take s.length = s := by
    apply List.ext_getElem
    · rw [List.length_take]
      omega
    · intro i hi hi'
      rw [List.getElem_take, hget i (by omega) (by omega), List.getD_eq_getElem _ _ hi']
  have hdrop := List.drop_eq_getElem_cons (show s.length < buf.length by omega)
  rw [hget _ _ hlt, List.getD_eq_default _ _ (Nat.le_refl _)] at hdrop
  refine ⟨buf.drop (s.length + 1), ?_⟩
  rw [← hdrop]
  nth_rewrite 1 [← htake]
  exact (List.take_append_drop ..).symm

/-- `strncpy(mem + dst, src, n)` -/
def strncpy (mem : ℕ → α) (dst : ℕ) (src : List α) (n : ℕ) : ℕ → α := fun a =>
  if dst ≤ a ∧ a < dst + n then src.getD (a - dst) 0 else mem a

theorem padded_strncpy (mem : ℕ → α) (base : ℕ) (s : List α) (n : ℕ) :
    Padded (strncpy mem base s n) base n s := by
  intro k hk
  unfold strncpy
  rw [if_pos ⟨Nat.le_add_right .., by omega⟩, Nat.add_sub_cancel_left]

/-- Other places keep what they hold. -/
theorem Padded.strncpy {dst m : ℕ} (h : Padded mem base n s)
    (hdisjoint : base + n ≤ dst ∨ dst + m ≤ base) (src : List α) :
    Padded (strncpy mem dst src m) base n s := by
  intro k hk
  unfold Lib.strncpy
  rw [if_neg (by omega)]
  exact h k hk

end Egos.Lib
