import Mathlib.Data.List.Induction

/-!
# Paths in a Tree of Names

A tree whose nodes find their children by name, and the path of a node as the string of the
names that lead to it, each behind a separator. Going down adds a name at the end of both
(`walk_concat_eq_some`, `pathString_push`), going up takes the last one away.
-/

namespace Egos.Lib

/-! ## Walks -/

section Walks

variable {D C : Type*} {child : D → C → Option D} {d e : D} {c : C} {cs : List C}

/-- Where the names lead, one after the other. -/
def walk (child : D → C → Option D) (d : D) (cs : List C) : Option D := cs.foldlM child d

@[simp] theorem walk_nil (d : D) : walk child d [] = some d := rfl

theorem walk_concat_eq_some :
    walk child d (cs ++ [c]) = some e ↔ ∃ m, walk child d cs = some m ∧ child m c = some e := by
  simp [walk, List.foldlM_append, Option.bind_eq_some_iff]

/-- What every step down keeps holds where a walk ends. -/
theorem walk_invariant {P : D → Prop} (h : walk child d cs = some e) (h₀ : P d)
    (hstep : ∀ m c n, c ∈ cs → P m → child m c = some n → P n) : P e := by
  induction cs using List.reverseRecOn generalizing e with
  | nil =>
    obtain rfl : d = e := Option.some.inj h
    exact h₀
  | append_singleton cs c ih =>
    obtain ⟨m, hm, hchild⟩ := walk_concat_eq_some.mp h
    apply hstep m c e (by simp) _ hchild
    exact ih hm fun m' c' n hc' => hstep m' c' n (List.mem_append_left _ hc')

end Walks

/-! ## Strings -/

section Strings

variable {α : Type*} {sep : α} {cs : List (List α)} {c : List α}

/-- The path with the names `cs`; that of the root is one separator. -/
def pathString (sep : α) (cs : List (List α)) : List α :=
  if cs = [] then [sep] else cs.flatMap (sep :: ·)

@[simp] theorem pathString_nil : pathString sep [] = [sep] := rfl

theorem pathString_of_ne_nil (h : cs ≠ []) : pathString sep cs = cs.flatMap (sep :: ·) := by
  simp [pathString, h]

theorem pathString_concat :
    pathString sep (cs ++ [c]) = cs.flatMap (sep :: ·) ++ sep :: c := by
  simp [pathString]

/-- A path of non-empty names is longer than that of the root. -/
theorem one_lt_length_pathString (hne : cs ≠ []) (hcs : ∀ c ∈ cs, c ≠ []) :
    1 < (pathString sep cs).length := by
  obtain ⟨c, cs, rfl⟩ := List.exists_cons_of_ne_nil hne
  have hpos := List.length_pos_iff.mpr (hcs c List.mem_cons_self)
  rw [pathString_of_ne_nil hne, List.flatMap_cons, List.length_append, List.length_cons]
  omega

/-- A name is added behind a separator, unless the path is the root's. -/
theorem pathString_push (hcs : ∀ c ∈ cs, c ≠ []) (c : List α) :
    pathString sep cs ++ (if (pathString sep cs).length > 1 then [sep] else []) ++ c =
      pathString sep (cs ++ [c]) := by
  rw [pathString_concat]
  by_cases hne : cs = []
  · simp [hne]
  · rw [if_pos (one_lt_length_pathString hne hcs), pathString_of_ne_nil hne, List.append_assoc]
    rfl

end Strings

end Egos.Lib
