import Egos.Apps.Tokens
import Egos.Lib.CString
import Egos.Lib.Pieces

/-!
# The Shell: Batches of Commands

`parse_batch_cmds` (`apps/system/sys_shell.c`) gives the shell the commands of a line, one at
each call: the line itself, or the pieces of a line in parentheses. It keeps them in the rows of
a static array.

- For lines of at most 255 characters the commands are those of the line, whatever the rows
  held before: `batch_commands`.
- Longer lines do not fit into a row, and an eleventh piece is copied behind the last row before
  the pieces are counted: `batch_in_rows_iff`.

## Reading guide

- A line is the list of its characters, without a zero at the end.
- `cmds` is the memory from `cmds[0][0]` on. The ten rows of 256 bytes come first; what follows
  them is not known. The result of a call is the number of a row.
- `rows` is a ghost: the rows that `strncpy` was called for. No function reads it.
- `strdup` does not fail, and what `INFO` prints is left out.
-/

namespace Egos.Apps

open Egos.Lib

/-! ## The code -/

/-- `'('` -/
def openParen : UInt8 := 40

/-- `')'` -/
def closeParen : UInt8 := 41

/-- `';'` -/
def semicolon : UInt8 := 59

/-- The static variables of `parse_batch_cmds`. -/
structure Batch where
  cmds : Nat → UInt8
  cmdIdx : Int
  maxIdx : Int
  rows : List Nat

/-- The failed `ASSERT` in `parse_batch_cmds`. -/
inductive BatchFatal where
  | assertion
  deriving DecidableEq, Repr

/-- `strnlen(buf, 256)` -/
def strnlen256 (line : List UInt8) : Nat := min line.length 256

/-- `buf[0] == '(' && buf[strnlen(buf, 256)-1] == ')'` -/
def inParens (buf : List UInt8) : Bool :=
  buf.head? = some openParen && buf[strnlen256 buf - 1]? = some closeParen

/-- The string at `&copy[1]`, with a zero in the place of `')'`. -/
def copyInside (line : List UInt8) : List UInt8 := (line.take (strnlen256 line - 1)).drop 1

/-- `strtok(s, ";")`: the token, and where the next call goes on. -/
def strtok (s : List UInt8) : Option (List UInt8 × List UInt8) :=
  match s.dropWhile (· = semicolon) with
  | [] => none
  | c :: s =>
    some ((c :: s).takeWhile (· ≠ semicolon), ((c :: s).dropWhile (· ≠ semicolon)).drop 1)

namespace Batch

/-- `strncpy(cmds[k], src, 256)` -/
def copyRow (b : Batch) (k : Nat) (src : List UInt8) : Batch :=
  { b with cmds := strncpy b.cmds (256 * k) src 256, rows := b.rows ++ [k] }

/-- The loop over the tokens: `num_cmd` at its end, or `none` for too many. -/
def copyCmds (b : Batch) (s : List UInt8) (numCmd : Nat) : Option Nat × Batch :=
  match strtok s with
  | none => (some numCmd, b)
  | some (cmd, rest) =>
    let b := b.copyRow numCmd cmd
    if numCmd + 1 > 10 then (none, b) else b.copyCmds rest (numCmd + 1)
termination_by 10 - numCmd

/-- From the `ASSERT` on: the next command, or `none` behind the last. -/
def nextCmd (b : Batch) : Except BatchFatal (Option Nat × Batch) :=
  if ¬ (b.cmdIdx ≥ 0 ∧ b.cmdIdx ≤ b.maxIdx + 1) then .error .assertion
  else if b.cmdIdx ≤ b.maxIdx then .ok (some b.cmdIdx.toNat, { b with cmdIdx := b.cmdIdx + 1 })
  else .ok (none, { b with cmdIdx := -1, maxIdx := -1 })

/-- `parse_batch_cmds` -/
def parseBatchCmds (b : Batch) (line : List UInt8) : Except BatchFatal (Option Nat × Batch) :=
  if b.cmdIdx = -1 then
    if ¬ inParens line then { b.copyRow 0 line with cmdIdx := 0, maxIdx := 0 }.nextCmd
    else
      match b.copyCmds (copyInside line) 0 with
      | (none, b) => .ok (none, b)
      | (some numCmd, b) => { b with cmdIdx := 0, maxIdx := numCmd - 1 }.nextCmd
  else b.nextCmd

end Batch

/-- The calls of `parse_batch_cmds` for a line, up to the one that returns `NULL`: the rows that
    the others return, and the variables when the shell uses them. -/
inductive Calls (line : List UInt8) : Batch → List (Nat × Batch) → Batch → Prop where
  | null {b b' : Batch} (hcall : b.parseBatchCmds line = .ok (none, b')) : Calls line b [] b'
  | cmd {b b₁ b' : Batch} {k : Nat} {log : List (Nat × Batch)}
      (hcall : b.parseBatchCmds line = .ok (some k, b₁)) (hrest : Calls line b₁ log b') :
      Calls line b ((k, b₁) :: log) b'

/-- The loop of the shell, for one line after the other. -/
inductive Session : Batch → List (List UInt8) → List (Nat × Batch) → Batch → Prop where
  | nil (b : Batch) : Session b [] [] b
  | cons {b b₁ b' : Batch} {line : List UInt8} {lines : List (List UInt8)}
      {log log' : List (Nat × Batch)} (hline : Calls line b log b₁)
      (hlines : Session b₁ lines log' b') : Session b (line :: lines) (log ++ log') b'

/-- There are no commands left from an earlier line. -/
structure Batch.Idle (b : Batch) : Prop where
  cmdIdx : b.cmdIdx = -1
  maxIdx : b.maxIdx = -1

variable {b b' : Batch} {line s : List UInt8} {ts : List (List UInt8)} {k n : Nat}
  {log : List (Nat × Batch)}

/-! ## Tokens -/

theorem strtok_eq_none (h : strtok s = none) : pieces semicolon s = [] := by
  unfold strtok at h
  cases hdrop : s.dropWhile (· = semicolon) with
  | nil => rw [← pieces_dropWhile, hdrop, pieces_nil]
  | cons c s' =>
    rw [hdrop] at h
    cases h

theorem strtok_eq_some {cmd rest : List UInt8} (h : strtok s = some (cmd, rest)) :
    pieces semicolon s = cmd :: pieces semicolon rest := by
  unfold strtok at h
  cases hdrop : s.dropWhile (· = semicolon) with
  | nil =>
    rw [hdrop] at h
    cases h
  | cons c s' =>
    rw [hdrop] at h
    obtain ⟨rfl, rfl⟩ := Prod.mk.inj (Option.some.inj h)
    -- `strtok` stops at the first character that is no separator, so the token is not empty
    have hc : c ≠ semicolon := by
      have hhead := List.head?_dropWhile_not (fun a => decide (a = semicolon)) s
      rw [hdrop] at hhead
      simpa using hhead
    rw [← pieces_dropWhile, hdrop, pieces_eq_cons]
    rw [List.takeWhile_cons_of_pos (by simpa using hc)]
    exact List.cons_ne_nil _ _

/-- Strings copied to the rows from `k` on. -/
def Batch.copyRows (b : Batch) (k : Nat) : List (List UInt8) → Batch
  | [] => b
  | t :: ts => (b.copyRow k t).copyRows (k + 1) ts

/-- The loop copies the pieces to the rows. The eleventh is copied too, before it is refused. -/
theorem copyCmds_eq (b : Batch) (s : List UInt8) (hn : n ≤ 10) :
    b.copyCmds s n =
      if n + (pieces semicolon s).length ≤ 10 then
        (some (n + (pieces semicolon s).length), b.copyRows n (pieces semicolon s))
      else (none, b.copyRows n ((pieces semicolon s).take (11 - n))) := by
  -- on the number of rows that are still free
  induction hm : 10 - n generalizing b s n with
  | zero =>
    -- one more piece is copied behind the rows, and then refused
    obtain rfl : n = 10 := by omega
    rw [Batch.copyCmds]
    cases htok : strtok s with
    | none => simp [strtok_eq_none htok, Batch.copyRows]
    | some r => simp [strtok_eq_some htok, Batch.copyRows]
  | succ m ih =>
    rw [Batch.copyCmds]
    cases htok : strtok s with
    | none => simp [strtok_eq_none htok, Batch.copyRows, hn]
    | some r =>
      have hpieces : pieces semicolon s = r.1 :: pieces semicolon r.2 := strtok_eq_some htok
      have hlt : ¬ n + 1 > 10 := by omega
      have htake : 11 - n = (11 - (n + 1)) + 1 := by omega
      simp only [hlt, if_false]
      rw [ih (b.copyRow n r.1) r.2 (by omega) (by omega), hpieces, htake, List.take_succ_cons,
        List.length_cons]
      simp only [Batch.copyRows, Nat.add_assoc, Nat.add_comm 1]

@[simp]
theorem copyRows_cmdIdx (b : Batch) (k : Nat) (ts : List (List UInt8)) :
    (b.copyRows k ts).cmdIdx = b.cmdIdx := by
  induction ts generalizing b k with
  | nil => rfl
  | cons t ts ih => exact ih (b.copyRow k t) (k + 1)

@[simp]
theorem copyRows_maxIdx (b : Batch) (k : Nat) (ts : List (List UInt8)) :
    (b.copyRows k ts).maxIdx = b.maxIdx := by
  induction ts generalizing b k with
  | nil => rfl
  | cons t ts ih => exact ih (b.copyRow k t) (k + 1)

theorem copyRows_rows (b : Batch) (k : Nat) (ts : List (List UInt8)) :
    (b.copyRows k ts).rows = b.rows ++ List.range' k ts.length := by
  induction ts generalizing b k with
  | nil => simp [Batch.copyRows]
  | cons t ts ih =>
    rw [Batch.copyRows, ih]
    simp [Batch.copyRow, List.range'_succ]

/-- Later rows leave the earlier ones alone. -/
theorem padded_copyRows {t : List UInt8} {m : Nat} (h : Padded b.cmds (256 * m) 256 t) (hm : m < k)
    (ts : List (List UInt8)) : Padded (b.copyRows k ts).cmds (256 * m) 256 t := by
  induction ts generalizing b k with
  | nil => exact h
  | cons t' ts ih => exact ih (h.strncpy (by omega) t') (by omega)

/-- Each row holds its string. -/
theorem copyRows_padded (b : Batch) (k : Nat) {ts : List (List UInt8)} {j : Nat}
    (hj : j < ts.length) :
    Padded (b.copyRows k ts).cmds (256 * (k + j)) 256 ts[j] := by
  induction ts generalizing b k j with
  | nil => exact absurd hj (Nat.not_lt_zero _)
  | cons t ts ih =>
    cases j with
    | zero =>
      exact padded_copyRows (b := b.copyRow k t) (padded_strncpy _ _ t 256) (Nat.lt_succ_self _) ts
    | succ j =>
      have hrow := ih (b.copyRow k t) (k + 1) (Nat.lt_of_succ_lt_succ hj)
      rw [Nat.add_assoc, Nat.add_comm 1 j] at hrow
      exact hrow

/-! ## The calls for a line -/

/-- There are commands in the first `n` rows, and none is handed out yet. -/
def Batch.start (b : Batch) (n : Nat) : Batch := { b with cmdIdx := 0, maxIdx := n - 1 }

/-- The row `i` of `n` is handed out. -/
def Batch.served (b : Batch) (n i : Nat) : Nat × Batch :=
  (i, { b with cmdIdx := i + 1, maxIdx := n - 1 })

/-- The variables behind the last command. -/
def Batch.reset (b : Batch) : Batch := { b with cmdIdx := -1, maxIdx := -1 }

theorem parseBatchCmds_of_ne (h : b.cmdIdx ≠ -1) : b.parseBatchCmds line = b.nextCmd := by
  unfold Batch.parseBatchCmds
  rw [if_neg h]

/-- A call that returns `NULL` is the last one for its line. -/
theorem calls_of_null {b₁ : Batch} (h : b.parseBatchCmds line = .ok (none, b₁)) :
    Calls line b log b' ↔ log = [] ∧ b' = b₁ := by
  constructor
  · intro hcalls
    cases hcalls with
    | null hcall =>
      rw [h] at hcall
      obtain ⟨-, rfl⟩ := Prod.mk.inj (Except.ok.inj hcall)
      exact ⟨rfl, rfl⟩
    | cmd hcall _ =>
      rw [h] at hcall
      cases hcall
  · rintro ⟨rfl, rfl⟩
    exact .null h

/-- A call that returns a row is followed by others. -/
theorem calls_of_cmd {b₁ : Batch} (h : b.parseBatchCmds line = .ok (some k, b₁)) :
    Calls line b log b' ↔ ∃ log', log = (k, b₁) :: log' ∧ Calls line b₁ log' b' := by
  constructor
  · intro hcalls
    cases hcalls with
    | null hcall =>
      rw [h] at hcall
      cases hcall
    | cmd hcall hrest =>
      rw [h] at hcall
      obtain ⟨hk, rfl⟩ := Prod.mk.inj (Except.ok.inj hcall)
      obtain rfl := Option.some.inj hk
      exact ⟨_, rfl, hrest⟩
  · rintro ⟨log', rfl, hrest⟩
    exact .cmd h hrest

/-- From the row `k` on, the rows are handed out one by one. -/
theorem calls_serving (hidx : b.cmdIdx = k) (hmax : b.maxIdx = n - 1) (hk : k ≤ n) :
    Calls line b log b' ↔ log = (List.range' k (n - k)).map (b.served n) ∧ b' = b.reset := by
  -- on the number of rows that are still to be handed out
  induction hm : n - k generalizing b k log with
  | zero =>
    have hnext : b.parseBatchCmds line = .ok (none, b.reset) := by
      rw [parseBatchCmds_of_ne (by omega), Batch.nextCmd, if_neg (by omega), if_neg (by omega)]
      rfl
    exact calls_of_null hnext
  | succ m ih =>
    have hserved : (b.served n k).2 = { b with cmdIdx := b.cmdIdx + 1 } := by
      rw [Batch.served, ← hidx, ← hmax]
    have hnext : b.parseBatchCmds line = .ok (some k, (b.served n k).2) := by
      rw [parseBatchCmds_of_ne (by omega), Batch.nextCmd, if_neg (by omega), if_pos (by omega),
        hserved, hidx, Int.toNat_natCast]
    -- the other calls start from the state that this one leaves
    have hrest : ∀ log', Calls line (b.served n k).2 log' b' ↔
        log' = (List.range' (k + 1) m).map (b.served n) ∧ b' = b.reset :=
      fun log' => ih rfl rfl (by omega) (by omega)
    rw [List.range'_succ, List.map_cons, calls_of_cmd hnext]
    constructor
    · rintro ⟨log', rfl, hcalls⟩
      obtain ⟨rfl, rfl⟩ := (hrest log').mp hcalls
      exact ⟨rfl, rfl⟩
    · rintro ⟨rfl, rfl⟩
      exact ⟨_, rfl, (hrest _).mpr ⟨rfl, rfl⟩⟩

/-- The strings that the first call for a line copies to rows. -/
def copied (line : List UInt8) : List (List UInt8) :=
  if inParens line then pieces semicolon (copyInside line) else [line]

/-- A call with the same result is followed by the same calls. -/
theorem calls_congr {b₀ : Batch} (h : b.parseBatchCmds line = b₀.parseBatchCmds line) :
    Calls line b log b' ↔ Calls line b₀ log b' := by
  constructor
  · intro hcalls
    cases hcalls with
    | null hcall => exact .null (h ▸ hcall)
    | cmd hcall hrest => exact .cmd (h ▸ hcall) hrest
  · intro hcalls
    cases hcalls with
    | null hcall => exact .null (h.trans hcall)
    | cmd hcall hrest => exact .cmd (h.trans hcall) hrest

/-- The calls for a line whose strings fit into the rows. -/
theorem calls_few (hidle : b.Idle) (hfew : (copied line).length ≤ 10) :
    Calls line b log b' ↔
      log = (List.range (copied line).length).map
          ((b.copyRows 0 (copied line)).served (copied line).length) ∧
        b' = (b.copyRows 0 (copied line)).reset := by
  have hne : ((b.copyRows 0 (copied line)).start (copied line).length).cmdIdx ≠ -1 := by
    simp [Batch.start]
  -- the first call copies all strings, and then does what a later call would do
  have hfirst : b.parseBatchCmds line =
      ((b.copyRows 0 (copied line)).start (copied line).length).parseBatchCmds line := by
    rw [parseBatchCmds_of_ne hne, Batch.parseBatchCmds, if_pos hidle.cmdIdx]
    unfold copied at hfew ⊢
    cases hparens : inParens line with
    | false => rfl
    | true =>
      simp only [hparens, if_true] at hfew
      simp [copyCmds_eq, hfew, Batch.start]
  rw [calls_congr hfirst, calls_serving (k := 0) rfl rfl (Nat.zero_le _), Nat.sub_zero,
    ← List.range_eq_range']
  rfl

/-- For a line with too many strings there is one call, which returns `NULL`. -/
theorem calls_many (hidle : b.Idle) (hmany : ¬ (copied line).length ≤ 10) :
    Calls line b log b' ↔ log = [] ∧ b' = b.copyRows 0 ((copied line).take 11) := by
  -- a line that is no batch is one string
  have hparens : inParens line = true := by
    by_contra hparens
    simp [copied, hparens] at hmany
  have hcopied : copied line = pieces semicolon (copyInside line) := by
    rw [copied, if_pos hparens]
  have hcall : b.parseBatchCmds line = .ok (none, b.copyRows 0 ((copied line).take 11)) := by
    rw [hcopied] at hmany ⊢
    rw [Batch.parseBatchCmds, if_pos hidle.cmdIdx]
    simp [hparens, copyCmds_eq, hmany]
  exact calls_of_null hcall

/-- The strings that are handed out for a line. -/
def handedOut (line : List UInt8) : List (List UInt8) :=
  if (copied line).length ≤ 10 then copied line else []

/-- The rows of a log hold these strings. -/
def HoldsRows (log : List (Nat × Batch)) (ts : List (List UInt8)) : Prop :=
  List.Forall₂ (fun r t => Padded r.2.cmds (256 * r.1) 256 t) log ts

/-- What the calls for a line do: nothing is left over, and the rows that they hand out hold
    what was copied. -/
theorem Calls.spec (hidle : b.Idle) (h : Calls line b log b') :
    b'.Idle ∧ b'.rows = b.rows ++ List.range (min (copied line).length 11) ∧
      HoldsRows log (handedOut line) := by
  by_cases hfew : (copied line).length ≤ 10
  · obtain ⟨rfl, rfl⟩ := (calls_few hidle hfew).mp h
    refine ⟨⟨rfl, rfl⟩, ?_, ?_⟩
    · rw [Nat.min_eq_left (by omega), List.range_eq_range']
      exact copyRows_rows b 0 (copied line)
    · rw [handedOut, if_pos hfew, HoldsRows, List.forall₂_iff_get]
      refine ⟨by simp, fun j hj hj' => ?_⟩
      have hrow := copyRows_padded b 0 hj'
      rw [Nat.zero_add] at hrow
      simpa [Batch.served] using hrow
  · obtain ⟨rfl, rfl⟩ := (calls_many hidle hfew).mp h
    refine ⟨⟨?_, ?_⟩, ?_, ?_⟩
    · rw [copyRows_cmdIdx, hidle.cmdIdx]
    · rw [copyRows_maxIdx, hidle.maxIdx]
    · rw [copyRows_rows, List.length_take, Nat.min_comm, List.range_eq_range']
    · rw [handedOut, if_neg hfew]
      exact .nil

theorem exists_calls (hidle : b.Idle) (line : List UInt8) : ∃ log b', Calls line b log b' := by
  by_cases hfew : (copied line).length ≤ 10
  · exact ⟨_, _, (calls_few hidle hfew).mpr ⟨rfl, rfl⟩⟩
  · exact ⟨_, _, (calls_many hidle hfew).mpr ⟨rfl, rfl⟩⟩

/-! ## Lines one after the other -/

theorem exists_session (hidle : b.Idle) (lines : List (List UInt8)) :
    ∃ log b', Session b lines log b' := by
  induction lines generalizing b with
  | nil => exact ⟨[], b, .nil b⟩
  | cons line lines ih =>
    obtain ⟨log, b₁, hcalls⟩ := exists_calls hidle line
    obtain ⟨log', b', hsession⟩ := ih (hcalls.spec hidle).1
    exact ⟨log ++ log', b', .cons hcalls hsession⟩

theorem Session.spec {lines : List (List UInt8)} (hidle : b.Idle) (h : Session b lines log b') :
    b'.Idle ∧
      b'.rows = b.rows ++ lines.flatMap (fun line => List.range (min (copied line).length 11)) ∧
        HoldsRows log (lines.flatMap handedOut) := by
  induction h with
  | nil b => exact ⟨hidle, by simp, .nil⟩
  | cons hline _ ih =>
    obtain ⟨hidle₁, hrows₁, hlog₁⟩ := hline.spec hidle
    obtain ⟨hidle', hrows, hlog⟩ := ih hidle₁
    refine ⟨hidle', ?_, ?_⟩
    · rw [hrows, hrows₁, List.flatMap_cons, List.append_assoc]
    · rw [List.flatMap_cons]
      exact List.rel_append hlog₁ hlog

/-! ## The commands of a line -/

/-- The line starts with `'('` and ends with `')'`. -/
def Parenthesised (line : List UInt8) : Prop :=
  line.head? = some openParen ∧ line.getLast? = some closeParen

instance (line : List UInt8) : Decidable (Parenthesised line) :=
  inferInstanceAs (Decidable (_ ∧ _))

/-- The commands of a line: the line itself, or the pieces between parentheses. -/
def lineCommands (line : List UInt8) : List (List UInt8) :=
  if Parenthesised line then pieces semicolon line.tail.dropLast else [line]

theorem inParens_iff (buf : List UInt8) :
    inParens buf = true ↔ Parenthesised (buf.take 256) := by
  have hlast : buf[strnlen256 buf - 1]? = (buf.take 256).getLast? := by
    rw [List.getLast?_eq_getElem?, List.length_take, Nat.min_comm, List.getElem?_take]
    unfold strnlen256
    split_ifs with hlt
    · rfl
    · omega
  unfold inParens Parenthesised
  rw [hlast, Bool.and_eq_true, decide_eq_true_iff, decide_eq_true_iff, List.head?_take]
  simp

theorem copyInside_eq (line : List UInt8) : copyInside line = (line.take 256).tail.dropLast := by
  unfold copyInside strnlen256
  rw [← List.drop_one, List.drop_take, List.drop_take, List.dropLast_eq_take, List.length_take,
    List.length_drop, List.take_take]
  congr 1
  omega

/-- Only the first 256 characters decide whether a line is a batch. -/
theorem copied_eq (line : List UInt8) :
    copied line =
      if Parenthesised (line.take 256) then lineCommands (line.take 256) else [line] := by
  unfold copied lineCommands
  by_cases h : Parenthesised (line.take 256)
  · rw [if_pos ((inParens_iff line).mpr h), if_pos h, if_pos h, copyInside_eq]
  · rw [if_neg fun h' => h ((inParens_iff line).mp h'), if_neg h]

theorem copied_of_length_le (h : line.length ≤ 255) : copied line = lineCommands line := by
  rw [copied_eq, List.take_of_length_le (by omega)]
  unfold lineCommands
  split_ifs <;> rfl

theorem sublist_of_mem_lineCommands {t : List UInt8} (h : t ∈ lineCommands line) :
    t.Sublist line := by
  unfold lineCommands at h
  split_ifs at h
  · exact ((sublist_of_mem_pieces h).trans (List.dropLast_sublist _)).trans (List.tail_sublist _)
  · rw [List.mem_singleton.mp h]

/-- What is copied are characters of the line. -/
theorem zero_notMem_copied {t : List UInt8} (hzero : 0 ∉ line) (h : t ∈ copied line) : 0 ∉ t := by
  rw [copied_eq] at h
  split_ifs at h
  · have hsub := (sublist_of_mem_lineCommands h).trans (List.take_sublist 256 line)
    exact fun hmem => hzero (hsub.mem hmem)
  · rw [List.mem_singleton.mp h]
    exact hzero

/-- The rows of a log hold these commands, each with its zero. -/
def Commands (log : List (Nat × Batch)) (cmds : List (List UInt8)) : Prop :=
  List.Forall₂ (fun r cmd => HoldsString r.2.cmds (256 * r.1) cmd) log cmds

theorem HoldsRows.commands (h : HoldsRows log ts) (hts : ∀ t ∈ ts, 0 ∉ t ∧ t.length < 256) :
    Commands log ts := by
  induction h with
  | nil => exact .nil
  | cons hrow _ ih =>
    rw [List.forall_mem_cons] at hts
    exact .cons (hrow.holdsString hts.1.1 hts.1.2) (ih hts.2)

theorem HoldsRows.endsWithin_iff (h : HoldsRows log ts) (hts : ∀ t ∈ ts, 0 ∉ t) :
    (∀ r ∈ log, EndsWithin r.2.cmds (256 * r.1) 256) ↔ ∀ t ∈ ts, t.length < 256 := by
  induction h with
  | nil => simp
  | cons hrow _ ih =>
    rw [List.forall_mem_cons] at hts
    rw [List.forall_mem_cons, List.forall_mem_cons, ih hts.2, hrow.endsWithin_iff hts.1]

/-- `parse_batch_cmds` gives the commands of the lines. For every sequence of lines of at most 255
    characters with at most ten commands each, and whatever earlier lines left in the rows:

    - for each line there comes a call that returns `NULL`;
    - the strings that the calls before it return are the commands of the lines, in order;
    - at the end no command is left over. -/
theorem batch_commands {lines : List (List UInt8)} (hidle : b.Idle)
    (hlines : ∀ line ∈ lines, 0 ∉ line ∧ line.length ≤ 255 ∧ (lineCommands line).length ≤ 10) :
    (∃ log b', Session b lines log b') ∧
      ∀ log b', Session b lines log b' → b'.Idle ∧ Commands log (lines.flatMap lineCommands) := by
  refine ⟨exists_session hidle lines, fun log b' hsession => ?_⟩
  obtain ⟨hidle', _, hlog⟩ := hsession.spec hidle
  have hout : lines.flatMap handedOut = lines.flatMap lineCommands := by
    refine List.flatMap_congr fun line hline => ?_
    obtain ⟨_, hshort, hfew⟩ := hlines line hline
    rw [handedOut, copied_of_length_le hshort, if_pos hfew]
  rw [hout] at hlog
  refine ⟨hidle', ?_⟩
  -- each command is shorter than a row
  have hshort : ∀ cmd ∈ lines.flatMap lineCommands, 0 ∉ cmd ∧ cmd.length < 256 := by
    intro cmd hcmd
    obtain ⟨line, hline, hcmd⟩ := List.mem_flatMap.mp hcmd
    obtain ⟨hzero, hlength, _⟩ := hlines line hline
    have hsub := sublist_of_mem_lineCommands hcmd
    exact ⟨fun hmem => hzero (hsub.mem hmem), Nat.lt_succ_of_le (hsub.length_le.trans hlength)⟩
  exact hlog.commands hshort

/-- A line with a stale batch behind it: "(ls;;pwd)" and then "cd". -/
theorem batch_commands_two : ∃ b b' : Batch, ∃ log,
    Session b [[40, 108, 115, 59, 59, 112, 119, 100, 41], [99, 100]] log b' ∧ b'.Idle ∧
      Commands log [[108, 115], [112, 119, 100], [99, 100]] := by
  have hlines : ∀ line ∈ [[40, 108, 115, 59, 59, 112, 119, 100, 41], [99, 100]],
      0 ∉ line ∧ line.length ≤ 255 ∧ (lineCommands line).length ≤ 10 := by
    decide
  have hcommands := batch_commands (b := ⟨fun _ => 0, -1, -1, []⟩) ⟨rfl, rfl⟩ hlines
  obtain ⟨⟨log, b', hsession⟩, hall⟩ := hcommands
  exact ⟨_, b', log, hsession, hall log b' hsession⟩

/-! ## Lines that are too long -/

/-- The first 256 characters of the line are a batch of at most ten commands, or they are no
    batch and the line is shorter than a row. -/
def FitsRows (line : List UInt8) : Prop :=
  if Parenthesised (line.take 256) then (lineCommands (line.take 256)).length ≤ 10
  else line.length ≤ 255

instance (line : List UInt8) : Decidable (FitsRows line) :=
  inferInstanceAs (Decidable (ite _ _ _))

theorem fitsRows_iff (line : List UInt8) :
    FitsRows line ↔ (copied line).length ≤ 10 ∧ ∀ t ∈ copied line, t.length < 256 := by
  unfold FitsRows
  rw [copied_eq]
  split_ifs with hparens
  · refine ⟨fun hfew => ⟨hfew, fun t ht => ?_⟩, fun h => h.1⟩
    -- at most 254 characters are between the parentheses
    rw [lineCommands, if_pos hparens] at ht
    have hle := (sublist_of_mem_pieces ht).length_le
    rw [List.length_dropLast, List.length_tail, List.length_take] at hle
    omega
  · simp only [List.length_singleton, List.forall_mem_singleton]
    omega

/-- `parse_batch_cmds` and its rows. For every sequence of lines, `strncpy` copies to the ten rows
    only and each string that is returned ends in its own row, exactly if each line, as far as
    it is looked at, is a batch of at most ten commands, or else is shorter than a row. -/
theorem batch_in_rows_iff (lines : List (List UInt8)) (hidle : b.Idle) (hrows : b.rows = [])
    (hlines : ∀ line ∈ lines, 0 ∉ line) :
    (∃ log b', Session b lines log b') ∧
      ∀ log b', Session b lines log b' →
        (((∀ k ∈ b'.rows, k < 10) ∧ ∀ r ∈ log, EndsWithin r.2.cmds (256 * r.1) 256) ↔
          ∀ line ∈ lines, FitsRows line) := by
  refine ⟨exists_session hidle lines, fun log b' hsession => ?_⟩
  obtain ⟨_, hrows', hlog⟩ := hsession.spec hidle
  have hzero : ∀ t ∈ lines.flatMap handedOut, 0 ∉ t := by
    intro t ht
    obtain ⟨line, hline, ht⟩ := List.mem_flatMap.mp ht
    unfold handedOut at ht
    split_ifs at ht
    · exact zero_notMem_copied (hlines line hline) ht
    · exact absurd ht List.not_mem_nil
  rw [hlog.endsWithin_iff hzero, hrows', hrows, List.nil_append]
  simp only [fitsRows_iff]
  constructor
  · rintro ⟨hlt, hends⟩ line hline
    have hfew : (copied line).length ≤ 10 := by
      by_contra hmany
      -- the eleventh string went to the row 10
      have hten := hlt 10 (List.mem_flatMap.mpr ⟨line, hline, List.mem_range.mpr (by omega)⟩)
      omega
    refine ⟨hfew, fun t ht => hends t (List.mem_flatMap.mpr ⟨line, hline, ?_⟩)⟩
    rw [handedOut, if_pos hfew]
    exact ht
  · intro hfits
    refine ⟨fun k hk => ?_, fun t ht => ?_⟩
    · obtain ⟨line, hline, hk⟩ := List.mem_flatMap.mp hk
      have hfew := (hfits line hline).1
      have hlt := List.mem_range.mp hk
      omega
    · obtain ⟨line, hline, ht⟩ := List.mem_flatMap.mp ht
      rw [handedOut, if_pos (hfits line hline).1] at ht
      exact (hfits line hline).2 t ht

/-- The variables before the first line. -/
def noCommands : Batch := ⟨fun _ => 0, -1, -1, []⟩

theorem idle_noCommands : noCommands.Idle := ⟨rfl, rfl⟩

/-- "(ls;cat a)" -/
def twoCommands : List UInt8 := [40, 108, 115, 59, 99, 97, 116, 32, 97, 41]

/-- "(a;a;a;a;a;a;a;a;a;a;a)" -/
def elevenCommands : List UInt8 := 40 :: (List.replicate 10 [97, 59]).flatten ++ [97, 41]

/-- A batch of two commands and the line "cd" stay in the rows, a batch of eleven commands after
    them does not. -/
theorem batch_in_rows_lines :
    (∃ log b', Session noCommands [twoCommands, [99, 100]] log b' ∧
      (∀ k ∈ b'.rows, k < 10) ∧ ∀ r ∈ log, EndsWithin r.2.cmds (256 * r.1) 256) ∧
    ∃ log b', Session noCommands [twoCommands, [99, 100], elevenCommands] log b' ∧
      ¬ ((∀ k ∈ b'.rows, k < 10) ∧ ∀ r ∈ log, EndsWithin r.2.cmds (256 * r.1) 256) := by
  constructor
  · obtain ⟨⟨log, b', hsession⟩, hiff⟩ :=
      batch_in_rows_iff [twoCommands, [99, 100]] idle_noCommands rfl (by decide)
    have hfits : ∀ line ∈ [twoCommands, [99, 100]], FitsRows line := by decide
    exact ⟨log, b', hsession, (hiff log b' hsession).mpr hfits⟩
  · obtain ⟨⟨log, b', hsession⟩, hiff⟩ :=
      batch_in_rows_iff [twoCommands, [99, 100], elevenCommands] idle_noCommands rfl (by decide)
    have hnot : ¬ ∀ line ∈ [twoCommands, [99, 100], elevenCommands], FitsRows line := by decide
    exact ⟨log, b', hsession, mt (hiff log b' hsession).mp hnot⟩

/-- A command of 256 characters. -/
def longCommand : List UInt8 := List.replicate 256 97

/-- The eleventh command of a batch is copied behind the rows, and a command of 256 characters has
    no zero in its row. -/
theorem batch_leaves_rows :
    (∃ log b', Session noCommands [elevenCommands] log b' ∧ 10 ∈ b'.rows) ∧
      ∃ log b', Session noCommands [longCommand] log b' ∧
        ∃ r ∈ log, ¬ EndsWithin r.2.cmds (256 * r.1) 256 := by
  constructor
  · obtain ⟨log, b', hsession⟩ := exists_session idle_noCommands [elevenCommands]
    obtain ⟨_, hrows, _⟩ := hsession.spec idle_noCommands
    have hcount : (copied elevenCommands).length = 11 := by decide
    refine ⟨log, b', hsession, ?_⟩
    rw [hrows, List.flatMap_singleton, hcount]
    decide
  · obtain ⟨log, b', hsession⟩ := exists_session idle_noCommands [longCommand]
    obtain ⟨_, _, hlog⟩ := hsession.spec idle_noCommands
    have hcopied : copied longCommand = [longCommand] := by
      rw [copied_eq, if_neg fun h => absurd h.1 (by decide)]
    have hzero : 0 ∉ longCommand := fun h => absurd (List.mem_replicate.mp h).2 (by decide)
    rw [List.flatMap_singleton, handedOut, hcopied, List.length_singleton,
      if_pos (by decide)] at hlog
    refine ⟨log, b', hsession, ?_⟩
    by_contra hall
    push Not at hall
    have hlt := (hlog.endsWithin_iff (by simpa using hzero)).mp hall longCommand List.mem_cons_self
    rw [longCommand, List.length_replicate] at hlt
    omega

end Egos.Apps
