import Mathlib.Data.List.Basic
import Mathlib.Logic.Function.Basic

/-!
# Copy Loops

A loop that copies from one address to another for each index of a list, in one memory. If
no index writes to an address that another one reads or writes, the order does not matter:
every destination gets what its source held before the loop (`copyLoop_dst`), and everything
else is as it was (`copyLoop_of_not_dst`).
-/

namespace Egos.Lib

variable {A V ι : Type*} [DecidableEq A]

/-- For each index of the list that is selected, copy from its source to its destination. -/
def copyLoop (selected : ι → Bool) (dst src : ι → A) (is : List ι) (m : A → V) : A → V :=
  is.foldl (fun m i => if selected i then Function.update m (dst i) (m (src i)) else m) m

section CopyLoop

variable {selected : ι → Bool} {dst src : ι → A}

theorem copyLoop_cons (i : ι) (is : List ι) (m : A → V) :
    copyLoop selected dst src (i :: is) m = copyLoop selected dst src is
      (if selected i then Function.update m (dst i) (m (src i)) else m) := rfl

/-- The loop writes to the destinations alone. -/
theorem copyLoop_of_not_dst {is : List ι} {m : A → V} {a : A}
    (ha : ∀ i ∈ is, selected i = true → a ≠ dst i) : copyLoop selected dst src is m a = m a := by
  induction is generalizing m with
  | nil => rfl
  | cons i is ih =>
    rw [copyLoop_cons, ih fun j hj => ha j (List.mem_cons_of_mem i hj)]
    split_ifs with hi
    · exact Function.update_of_ne (ha i List.mem_cons_self hi) _ _
    · rfl

/-- Every destination gets what its source held before. -/
theorem copyLoop_dst {is : List ι} {m : A → V} {i : ι} (hmem : i ∈ is)
    (hi : selected i = true) (hinj : ∀ j ∈ is, selected j = true → dst j = dst i → j = i)
    (hsrc : ∀ j ∈ is, selected j = true → src i ≠ dst j) :
    copyLoop selected dst src is m (dst i) = m (src i) := by
  induction is generalizing m with
  | nil => cases hmem
  | cons j is ih =>
    rw [copyLoop_cons]
    by_cases hlater : i ∈ is
    · -- a later turn writes this destination, from a source that is still untouched
      rw [ih hlater (fun l hl => hinj l (List.mem_cons_of_mem j hl))
        fun l hl => hsrc l (List.mem_cons_of_mem j hl)]
      split_ifs with hj
      · exact Function.update_of_ne (hsrc j List.mem_cons_self hj) _ _
      · rfl
    · obtain rfl : i = j := (List.mem_cons.mp hmem).resolve_right hlater
      rw [copyLoop_of_not_dst, if_pos hi, Function.update_self]
      intro l hl hsel heq
      exact hlater (hinj l (List.mem_cons_of_mem i hl) hsel heq.symm ▸ hl)

end CopyLoop

end Egos.Lib
