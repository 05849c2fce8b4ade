import Mathlib.Data.List.TakeWhile

/-!
# Pieces of a List

The non-empty pieces between the separators of a list, as a tokenizer finds them.
-/

namespace Egos.Lib

variable {α : Type*} [DecidableEq α] {sep c : α} {l r t : List α}

/-- The non-empty pieces between separators. -/
def pieces (sep : α) (l : List α) : List (List α) := (l.splitOn sep).filter (· ≠ [])

@[simp]
theorem pieces_nil (sep : α) : pieces sep [] = [] := rfl

theorem pieces_append_cons (sep : α) (l r : List α) :
    pieces sep (l ++ sep :: r) = pieces sep l ++ pieces sep r := by
  unfold pieces
  rw [List.splitOn_append_cons_of_beq l r (beq_self_eq_true sep), List.filter_append]

theorem pieces_of_notMem (h : sep ∉ l) (hne : l ≠ []) : pieces sep l = [l] := by
  unfold pieces
  rw [List.splitOn_eq_singleton h]
  simp [hne]

theorem pieces_cons_self (sep : α) (l : List α) : pieces sep (sep :: l) = pieces sep l := by
  have happend := pieces_append_cons sep [] l
  rwa [pieces_nil, List.nil_append, List.nil_append] at happend

theorem pieces_replicate_append (n : ℕ) (l : List α) :
    pieces sep (List.replicate n sep ++ l) = pieces sep l := by
  induction n with
  | zero => rfl
  | succ n ih => rw [List.replicate_succ, List.cons_append, pieces_cons_self, ih]

/-- Separators in front do not matter. -/
theorem pieces_dropWhile (sep : α) (l : List α) :
    pieces sep (l.dropWhile (· = sep)) = pieces sep l := by
  induction l with
  | nil => rfl
  | cons c l ih =>
    by_cases hc : c = sep
    · subst hc
      rw [List.dropWhile_cons_of_pos (by simp), ih, pieces_cons_self]
    · rw [List.dropWhile_cons_of_neg (by simpa using hc)]

/-- The first piece is what stands in front of the first separator. -/
theorem pieces_eq_cons (h : l.takeWhile (· ≠ sep) ≠ []) :
    pieces sep l = l.takeWhile (· ≠ sep) :: pieces sep ((l.dropWhile (· ≠ sep)).drop 1) := by
  have hnot : sep ∉ l.takeWhile (· ≠ sep) := by
    intro hmem
    simpa using List.mem_takeWhile_imp hmem
  have hsplit := List.takeWhile_append_dropWhile (p := fun a => decide (a ≠ sep)) (l := l)
  cases hdrop : l.dropWhile (· ≠ sep) with
  | nil =>
    rw [hdrop, List.append_nil] at hsplit
    rw [hsplit] at hnot h ⊢
    simpa using pieces_of_notMem hnot h
  | cons d rest =>
    have hd : d = sep := by
      have hhead := List.head?_dropWhile_not (fun a => decide (a ≠ sep)) l
      rw [hdrop] at hhead
      simpa using hhead
    subst hd
    rw [hdrop] at hsplit
    calc pieces d l = pieces d (l.takeWhile (· ≠ d) ++ d :: rest) := by rw [hsplit]
      _ = l.takeWhile (· ≠ d) :: pieces d rest := by
        rw [pieces_append_cons, pieces_of_notMem hnot h, List.singleton_append]

theorem pieces_eq_nil_iff : pieces sep l = [] ↔ ∀ c ∈ l, c = sep := by
  induction l with
  | nil => simp
  | cons c l ih =>
    by_cases hc : c = sep
    · subst hc
      rw [pieces_cons_self, ih]
      simp
    · have hne : (c :: l).takeWhile (· ≠ sep) ≠ [] := by
        rw [List.takeWhile_cons_of_pos (by simpa using hc)]
        exact List.cons_ne_nil _ _
      rw [pieces_eq_cons hne]
      simp [hc]

/-- Pieces have their characters from the list, in the same order. -/
theorem sublist_of_mem_splitOn (h : t ∈ l.splitOn sep) : t.Sublist l := by
  induction l generalizing t with
  | nil =>
    rw [List.splitOn_nil, List.mem_singleton] at h
    exact h ▸ List.nil_sublist _
  | cons x l ih =>
    rw [List.splitOn_cons_eq_if_modifyHead] at h
    split_ifs at h
    · rcases List.mem_cons.mp h with rfl | h
      · exact List.nil_sublist _
      · exact (ih h).cons x
    · cases hsplit : l.splitOn sep with
      | nil => exact absurd hsplit (List.splitOn_ne_nil sep l)
      | cons p ps =>
        rw [hsplit, List.modifyHead_cons] at h
        rcases List.mem_cons.mp h with rfl | h
        · exact (ih (hsplit ▸ List.mem_cons_self)).cons_cons x
        · exact (ih (hsplit ▸ List.mem_cons_of_mem p h)).cons x

theorem sublist_of_mem_pieces (h : t ∈ pieces sep l) : t.Sublist l :=
  sublist_of_mem_splitOn (List.mem_filter.mp h).1

/-- A character that is no separator is at the end of the last piece. -/
theorem splitOn_concat (hc : c ≠ sep) (l : List α) :
    ∃ ps q, (l ++ [c]).splitOn sep = ps ++ [q ++ [c]] := by
  induction l with
  | nil =>
    refine ⟨[], [], ?_⟩
    rw [List.nil_append, List.splitOn_eq_singleton (by simpa using hc.symm)]
    rfl
  | cons x l ih =>
    obtain ⟨ps, q, hsplit⟩ := ih
    rw [List.cons_append, List.splitOn_cons_eq_if_modifyHead, hsplit]
    split_ifs
    · exact ⟨[] :: ps, q, rfl⟩
    · cases ps with
      | nil => exact ⟨[], x :: q, rfl⟩
      | cons p ps => exact ⟨(x :: p) :: ps, q, rfl⟩

/-- How many pieces a separator follows. -/
def finished (sep : α) (l : List α) : ℕ := ((l.splitOn sep).dropLast.filter (· ≠ [])).length

theorem finished_concat_self (sep : α) (l : List α) :
    finished sep (l ++ [sep]) = (pieces sep (l ++ [sep])).length := by
  unfold finished pieces
  rw [List.splitOn_append_cons_of_beq l [] (beq_self_eq_true sep)]
  simp

theorem finished_concat (hc : c ≠ sep) (l : List α) :
    finished sep (l ++ [c]) + 1 = (pieces sep (l ++ [c])).length := by
  obtain ⟨ps, q, hsplit⟩ := splitOn_concat hc l
  unfold finished pieces
  rw [hsplit]
  simp

end Egos.Lib
