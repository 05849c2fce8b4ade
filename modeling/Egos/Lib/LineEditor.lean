import Mathlib.Data.List.Basic

/-!
# Line Editors

A line that is typed key by key: a character is added at its end, one control character erases
the last character, another one ends the line. The line ends by itself when it has as many
characters as there is room for.
-/

namespace Egos.Lib

/-- What has become of a line after some keys. In the last two cases the keys that were not
    needed are left over. -/
inductive Line (α : Type*) where
  | typing (text : List α)
  | entered (text rest : List α)
  | full (text rest : List α)
  deriving DecidableEq

variable {α : Type*} [DecidableEq α]

/-- The line that starts with `text`, after the given keys. -/
def editLine (enter erase : α) (cap : ℕ) (text : List α) : List α → Line α
  | [] => if text.length < cap then .typing text else .full text []
  | key :: rest =>
    if text.length < cap then
      if key = enter then .entered text rest
      else if key = erase then editLine enter erase cap text.dropLast rest
      else editLine enter erase cap (text ++ [key]) rest
    else .full text (key :: rest)

variable {enter erase : α} {cap : ℕ} {text line keys rest : List α} {key : α}

theorem editLine_of_length_eq (h : text.length = cap) :
    editLine enter erase cap text keys = .full text keys := by
  cases keys <;> simp [editLine, h]

theorem editLine_enter (h : text.length < cap) :
    editLine enter erase cap text (enter :: keys) = .entered text keys := by
  simp [editLine, h]

theorem editLine_char (h : text.length < cap) (hne : key ≠ enter) (her : key ≠ erase) :
    editLine enter erase cap text (key :: keys) =
      editLine enter erase cap (text ++ [key]) keys := by
  simp [editLine, h, hne, her]

/-- Plain characters become the line. -/
theorem editLine_append (henter : enter ∉ line) (herase : erase ∉ line)
    (h : (text ++ line).length ≤ cap) :
    editLine enter erase cap text (line ++ keys) =
      editLine enter erase cap (text ++ line) keys := by
  induction line generalizing text with
  | nil => simp
  | cons c line ih =>
    rw [List.mem_cons, not_or] at henter herase
    simp only [List.length_append, List.length_cons] at h
    rw [List.cons_append, editLine_char (by omega) (Ne.symm henter.1) (Ne.symm herase.1),
      ih henter.2 herase.2 (by simp; omega)]
    simp

end Egos.Lib
