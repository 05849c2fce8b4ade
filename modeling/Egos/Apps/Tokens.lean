import Egos.Apps.Request
import Egos.Lib.Pieces
import Mathlib.Data.List.GetD

/-!
# The Shell: Tokens of a Command

`parse_request` writes the tokens of a command line, the maximal runs of characters other
than spaces, into the rows of `argv`. `Holds` says what the variables of its loop mean: the
tokens that are finished, and the part of the current one that has been read.
-/

namespace Egos.Apps

open Egos.Lib

/-- The tokens of a command line. -/
def tokens (buf : List UInt8) : List (List UInt8) := pieces space buf

/-- The characters of a token are characters of the command line. -/
theorem mem_of_mem_tokens {buf t : List UInt8} (ht : t ∈ tokens buf) {c : UInt8} (hc : c ∈ t) :
    c ∈ buf :=
  (sublist_of_mem_pieces ht).mem hc

/-- The rows hold these strings, followed by zeros; further rows are zero. -/
def Argv.Rows (argv : Argv) (ts : List (List UInt8)) : Prop :=
  ∀ k j, argv k j = (ts.getD k.val []).getD j.val 0

/-- The tokens up to where the parser is, if it has read `cur` of the current one. -/
def withCurrent (ts : List (List UInt8)) (cur : List UInt8) : List (List UInt8) :=
  ts ++ if cur = [] then [] else [cur]

/-- The parser has finished the tokens `ts` and has read `cur` of the next one. -/
structure Parser.Holds (p : Parser) (ts : List (List UInt8)) (cur : List UInt8) : Prop where
  nargs : p.nargs = ts.length
  idx : p.idx = cur.length
  few : ts.length < cmdNargs
  short : cur.length < cmdArgLen
  shorts : ∀ t ∈ ts, t.length < cmdArgLen
  rows : p.argv.Rows (ts ++ [cur])

variable {p q : Parser} {ts : List (List UInt8)} {cur : List UInt8} {c : UInt8}

theorem Argv.set_apply {argv : Argv} {n m : Nat} (hn : n < 16) (hm : m < 32) (k : Fin 16)
    (j : Fin 32) :
    argv.set n m c k j = if k.val = n ∧ j.val = m then c else argv k j := by
  have hk : k = Fin.ofNat 16 n ↔ k.val = n := by
    rw [Fin.ext_iff, Fin.val_ofNat, Nat.mod_eq_of_lt hn]
  have hj : j = Fin.ofNat 32 m ↔ j.val = m := by
    rw [Fin.ext_iff, Fin.val_ofNat, Nat.mod_eq_of_lt hm]
  unfold Argv.set
  by_cases hrow : k = Fin.ofNat 16 n
  · rw [hrow, Function.update_self, Function.update_apply, ← hrow]
    simp only [hj, hk.mp hrow, true_and]
  · rw [Function.update_of_ne hrow, if_neg fun h => hrow (hk.mpr h.1)]

theorem getD_concat {α : Type*} (l : List α) (a d : α) (n : Nat) :
    (l ++ [a]).getD n d = if n = l.length then a else l.getD n d := by
  rcases lt_trichotomy n l.length with hlt | rfl | hgt
  · rw [List.getD_append _ _ _ _ hlt, if_neg (by omega)]
  · simp
  · rw [if_neg (by omega), List.getD_eq_default _ _ (by simp; omega),
      List.getD_eq_default _ _ (by omega)]

/-- Rows after an assignment to the end of the current string. -/
theorem Argv.Rows.set {argv : Argv} (h : argv.Rows (ts ++ [cur])) (hts : ts.length < cmdNargs)
    (hcur : cur.length < cmdArgLen) : (argv.set ts.length cur.length c).Rows (ts ++ [cur ++ [c]]) := by
  intro k j
  rw [Argv.set_apply hts hcur, h k j, getD_concat, getD_concat]
  by_cases hk : k.val = ts.length
  · simp only [hk, if_true, true_and, getD_concat]
  · simp only [hk, if_false, false_and]

/-- Zeros at the end of a string, and empty strings at the end, make no difference. -/
theorem Argv.Rows.trim {argv : Argv} (h : argv.Rows (ts ++ [cur ++ [0]])) :
    argv.Rows (ts ++ [cur] ++ [[]]) := by
  intro k j
  have hzero : ∀ n, (cur ++ [0]).getD n 0 = cur.getD n 0 := by
    intro n
    rw [getD_concat]
    split_ifs with hn
    · rw [hn, List.getD_eq_default _ _ le_rfl]
    · rfl
  have hempty : (ts ++ [cur] ++ [[]]).getD k.val [] = (ts ++ [cur]).getD k.val [] := by
    rw [getD_concat]
    split_ifs with hk
    · rw [hk, List.getD_eq_default _ _ le_rfl]
    · rfl
  rw [hempty, h k j, getD_concat, getD_concat]
  split_ifs
  · exact hzero j.val
  · rfl

/-- The next character is part of a token. -/
theorem Parser.Holds.char (h : p.Holds ts cur) (hc : c ≠ space) (hq : p.next c = some q) :
    q.Holds ts (cur ++ [c]) := by
  simp only [Parser.next, if_pos hc] at hq
  split_ifs at hq with hlong
  obtain rfl := Option.some.inj hq
  have hlt : cur.length + 1 < cmdArgLen := by
    rw [← h.idx]
    exact Nat.lt_of_not_le hlong
  refine ⟨h.nargs, by simp [h.idx], h.few, by simpa using hlt, h.shorts, ?_⟩
  show (p.argv.set p.nargs p.idx c).Rows _
  rw [h.nargs, h.idx]
  exact h.rows.set h.few h.short

/-- A space ends a token. -/
theorem Parser.Holds.sep (h : p.Holds ts cur) (hcur : cur ≠ []) (hq : p.next space = some q) :
    q.Holds (ts ++ [cur]) [] := by
  have hidx : p.idx ≠ 0 := by simpa [h.idx] using hcur
  simp only [Parser.next, ne_eq, not_true_eq_false, if_false, hidx, not_false_eq_true, if_true] at hq
  split_ifs at hq with hmany
  obtain rfl := Option.some.inj hq
  refine ⟨by simp [h.nargs], rfl, ?_, by decide, ?_, ?_⟩
  · simpa [h.nargs] using hmany
  · intro t ht
    rcases List.mem_append.mp ht with ht | ht
    · exact h.shorts t ht
    · exact List.mem_singleton.mp ht ▸ h.short
  · show (p.argv.set p.nargs p.idx 0).Rows _
    rw [h.nargs, h.idx]
    exact (h.rows.set h.few h.short).trim

/-- A space before a token changes nothing. -/
theorem Parser.Holds.skip (h : p.Holds ts []) (hq : p.next space = some q) : q = p := by
  have hidx : p.idx = 0 := h.idx
  simp only [Parser.next, ne_eq, not_true_eq_false, if_false, hidx] at hq
  exact (Option.some.inj hq).symm

/-- What the loop has read is what the tokens say. The accumulator of `splitOnPPrepend` holds
    the current token, its last character first. -/
theorem Parser.Holds.run {buf : List UInt8} (h : p.Holds ts cur)
    (hq : buf.foldlM Parser.next p = some q) :
    ∃ ts' cur', q.Holds ts' cur' ∧ withCurrent ts' cur' =
      ts ++ (buf.splitOnPPrepend (· == space) cur.reverse).filter (· ≠ []) := by
  induction buf generalizing p ts cur with
  | nil =>
    obtain rfl := Option.some.inj hq
    refine ⟨ts, cur, h, ?_⟩
    by_cases hcur : cur = [] <;> simp [withCurrent, hcur]
  | cons c buf ih =>
    rw [List.foldlM_cons] at hq
    obtain ⟨p', hp', hrest⟩ := Option.bind_eq_some_iff.mp hq
    by_cases hc : c = space
    · subst hc
      rw [List.splitOnPPrepend_cons_pos (by simp)]
      -- a space ends the current token, unless there is none
      by_cases hcur : cur = []
      · subst hcur
        obtain rfl := h.skip hp'
        simpa using ih h hrest
      · obtain ⟨ts', cur', hholds, heq⟩ := ih (h.sep hcur hp') hrest
        exact ⟨ts', cur', hholds, by rw [heq]; simp [hcur]⟩
    · rw [List.splitOnPPrepend_cons_neg (by simpa using hc)]
      simpa using ih (h.char hc hp') hrest

theorem holds_start : Parser.Holds ⟨0, 0, emptyArgv⟩ [] [] :=
  ⟨rfl, rfl, by decide, by decide, by simp, fun k j => by cases k.val <;> rfl⟩

/-- What `parse_request` accepts, it stores: the number of tokens, and the tokens. -/
theorem parseRequest_tokens {buf : List UInt8} {req : ProcRequest}
    (h : parseRequest buf = some req) :
    req.argc = (tokens buf).length ∧ req.argc ≤ cmdNargs ∧
      (∀ t ∈ tokens buf, t.length < cmdArgLen) ∧ req.argv.Rows (tokens buf) := by
  unfold parseRequest at h
  cases hrun : buf.foldlM Parser.next ⟨0, 0, emptyArgv⟩ with
  | none => simp [hrun] at h
  | some p =>
    rw [hrun] at h
    obtain rfl := Option.some.inj h
    obtain ⟨ts, cur, hholds, heq⟩ := holds_start.run hrun
    have htokens : tokens buf = withCurrent ts cur := heq.symm
    rw [htokens]
    have hfew := hholds.few
    -- the end of the line ends the current token, as a space does
    by_cases hcur : cur = []
    · subst hcur
      have hidx : p.idx = 0 := hholds.idx
      simp only [withCurrent, if_true, List.append_nil, hidx, ne_eq, not_true_eq_false, if_false]
      -- the row that was opened last is empty
      refine ⟨hholds.nargs, by rw [hholds.nargs]; omega, hholds.shorts, fun k j => ?_⟩
      have hrows := hholds.rows k j
      rw [getD_concat] at hrows
      show p.argv k j = _
      rw [hrows]
      split_ifs with hk
      · rw [hk, List.getD_eq_default ts _ le_rfl]
      · rfl
    · have hidx : p.idx ≠ 0 := by simpa [hholds.idx] using hcur
      simp only [withCurrent, hcur, if_false, hidx, ne_eq, not_false_eq_true, if_true]
      refine ⟨by simp [hholds.nargs], by rw [hholds.nargs]; omega, fun t ht => ?_, hholds.rows⟩
      rcases List.mem_append.mp ht with ht | ht
      · exact hholds.shorts t ht
      · exact List.mem_singleton.mp ht ▸ hholds.short

end Egos.Apps
