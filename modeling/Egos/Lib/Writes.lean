import Mathlib.Data.List.Nodup
import Mathlib.Logic.Function.Basic

/-!
# Runs of Writes

A list of writes to a map, one after the other: registers to memory, or memory to registers.
What is read afterwards at a key is what was written there (`writes_of_mem`, for keys that are
written once) or what was there before (`writes_of_notMem`).
-/

namespace Egos.Lib

variable {κ ν : Type*} [DecidableEq κ] {l : List (κ × ν)} {m : κ → ν} {key : κ} {value : ν}

/-- The map after the writes, first to last. -/
def writes (l : List (κ × ν)) (m : κ → ν) : κ → ν :=
  l.foldl (fun m w => Function.update m w.1 w.2) m

theorem writes_of_notMem (h : key ∉ l.map Prod.fst) : writes l m key = m key := by
  induction l generalizing m with
  | nil => rfl
  | cons w l ih =>
    rw [List.map_cons, List.mem_cons, not_or] at h
    have htail : writes (w :: l) m key = writes l (Function.update m w.1 w.2) key := rfl
    rw [htail, ih h.2, Function.update_of_ne h.1]

theorem writes_of_mem (hnodup : (l.map Prod.fst).Nodup) (h : (key, value) ∈ l) :
    writes l m key = value := by
  induction l generalizing m with
  | nil => exact absurd h List.not_mem_nil
  | cons w l ih =>
    rw [List.map_cons, List.nodup_cons] at hnodup
    have htail : writes (w :: l) m key = writes l (Function.update m w.1 w.2) key := rfl
    rw [htail]
    rcases List.mem_cons.mp h with rfl | hmem
    · rw [writes_of_notMem hnodup.1, Function.update_self]
    · exact ih hnodup.2 hmem

end Egos.Lib
