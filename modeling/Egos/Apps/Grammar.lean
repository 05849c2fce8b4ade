import Egos.Apps.Tokens
import Egos.Lib.Pieces

/-!
# The Shell: Which Commands Are Accepted

`parse_request` bounds the length of a token when it reads a character, and the number of tokens
when it reads the space behind a token. The token at the end of a command has no space behind
it, so that sixteen tokens are accepted there but not in front of a space:
`parseRequest_grammar_iff`.
-/

namespace Egos.Apps

open Egos.Lib

variable {p : Parser} {ts : List (List UInt8)} {cur buf : List UInt8} {c : UInt8}

/-! ## The loop -/

/-- A character is too much exactly if the token has 31 already. -/
theorem Parser.Holds.next_char (h : p.Holds ts cur) (hc : c ≠ space) :
    (p.next c).isSome ↔ cur.length + 1 < cmdArgLen := by
  simp only [Parser.next, if_pos hc, h.idx]
  split_ifs <;> simp <;> omega

/-- A space behind a token is too much exactly if there are 15 tokens already. -/
theorem Parser.Holds.next_sep (h : p.Holds ts cur) (hcur : cur ≠ []) :
    (p.next space).isSome ↔ ts.length + 1 < cmdNargs := by
  have hidx : p.idx ≠ 0 := by simpa [h.idx] using hcur
  simp only [Parser.next, ne_eq, not_true_eq_false, if_false, hidx, not_false_eq_true, if_true,
    h.nargs]
  split_ifs <;> simp <;> omega

/-- The accumulator is part of the first piece. -/
theorem exists_le_splitOnPPrepend (buf acc : List UInt8) :
    ∃ t ∈ buf.splitOnPPrepend (· == space) acc, acc.length ≤ t.length := by
  induction buf generalizing acc with
  | nil => exact ⟨acc.reverse, by simp, by simp⟩
  | cons d buf ih =>
    rw [List.splitOnPPrepend_cons_eq_if]
    split_ifs
    · exact ⟨acc.reverse, List.mem_cons_self, by simp⟩
    · obtain ⟨t, ht, hle⟩ := ih (d :: acc)
      exact ⟨t, ht, by simp at hle; omega⟩

/-- The loop accepts the rest of a command if no token is too long and not too many have a
    space behind them. -/
theorem Parser.Holds.isSome_run (h : p.Holds ts cur) (buf : List UInt8) :
    (buf.foldlM Parser.next p).isSome ↔
      (∀ t ∈ buf.splitOnPPrepend (· == space) cur.reverse, t.length < cmdArgLen) ∧
        ts.length +
          ((buf.splitOnPPrepend (· == space) cur.reverse).dropLast.filter (· ≠ [])).length <
            cmdNargs := by
  -- what is read of the current token is the accumulator of the split, in reverse
  induction buf generalizing p ts cur with
  | nil => simpa using ⟨h.short, h.few⟩
  | cons c buf ih =>
    rw [List.foldlM_cons]
    by_cases hc : c = space
    · subst hc
      rw [List.splitOnPPrepend_cons_pos (by simp), List.reverse_reverse,
        List.dropLast_cons_of_ne_nil (List.splitOnP_ne_nil _ _)]
      by_cases hcur : cur = []
      · -- no token ends here
        subst hcur
        have hq : p.next space = some p := by
          have hidx : p.idx = 0 := h.idx
          simp [Parser.next, hidx]
        have hzero : 0 < cmdArgLen := by decide
        rw [hq]
        simpa [hzero] using ih h
      · -- a token ends here: this is where the number is checked
        rw [List.filter_cons_of_pos (by simpa using hcur), List.length_cons]
        cases hq : p.next space with
        | none =>
          have hmany : ¬ ts.length + 1 < cmdNargs := by
            rw [← h.next_sep hcur, hq]
            simp
          refine iff_of_false (by simp) fun hboth => ?_
          have hfew := hboth.2
          omega
        | some q =>
          have hrest := ih (h.sep hcur hq)
          rw [List.reverse_nil, List.splitOnPPrepend_nil_right, List.length_append,
            List.length_singleton] at hrest
          have hshort := h.short
          simp only [Option.bind_eq_bind, Option.bind_some, hrest, List.forall_mem_cons, hshort,
            true_and, Nat.add_assoc, Nat.add_comm 1]
    · rw [List.splitOnPPrepend_cons_neg (by simpa using hc)]
      cases hq : p.next c with
      | none =>
        have hlong : ¬ cur.length + 1 < cmdArgLen := by
          rw [← h.next_char hc, hq]
          simp
        refine iff_of_false (by simp) fun hboth => ?_
        -- the token is too long already, and only grows
        obtain ⟨t, ht, hle⟩ := exists_le_splitOnPPrepend buf (c :: cur.reverse)
        have hlt := hboth.1 t ht
        simp at hle
        omega
      | some q =>
        simpa using ih (h.char hc hq)

/-! ## Commands -/

theorem parseRequest_isSome (buf : List UInt8) :
    (parseRequest buf).isSome ↔
      (∀ t ∈ tokens buf, t.length < cmdArgLen) ∧ finished space buf < cmdNargs := by
  have hrun := holds_start.isSome_run buf
  have hfold : (parseRequest buf).isSome = (buf.foldlM Parser.next ⟨0, 0, emptyArgv⟩).isSome := by
    unfold parseRequest
    cases buf.foldlM Parser.next ⟨0, 0, emptyArgv⟩ <;> rfl
  rw [hfold, hrun]
  refine and_congr ⟨fun h t ht => h t (List.mem_filter.mp ht).1, fun h t ht => ?_⟩ ?_
  · by_cases hne : t = []
    · rw [hne]
      decide
    · exact h t (List.mem_filter.mpr ⟨ht, by simpa using hne⟩)
  · simp [finished, List.splitOn_eq_splitOnP]

/-- A command with as many tokens as there is room for, and a space behind the last. -/
def FullWithSpace (buf : List UInt8) : Prop :=
  (tokens buf).length = cmdNargs ∧ (∀ t ∈ tokens buf, t.length < cmdArgLen) ∧
    buf.getLast? = some space

theorem finished_lt_iff (buf : List UInt8) :
    finished space buf < cmdNargs ↔ (tokens buf).length < cmdNargs ∨
      (tokens buf).length = cmdNargs ∧ buf.getLast? ≠ some space := by
  -- the last character decides whether the last token has a space behind it
  rcases List.eq_nil_or_concat buf with rfl | ⟨l, c, rfl⟩
  · decide
  · by_cases hc : c = space
    · subst hc
      rw [List.concat_eq_append, finished_concat_self]
      simp [tokens, pieces]
    · have hfinished := finished_concat hc l
      rw [List.concat_eq_append]
      have htokens : tokens (l ++ [c]) = pieces space (l ++ [c]) := rfl
      simp [htokens, ← hfinished, hc]
      omega

/-- The grammar: a command is accepted if it has not too many tokens and none is too long, and
    then they are stored. -/
def MeetsGrammar (buf : List UInt8) : Prop :=
  ((parseRequest buf).isSome ↔
      (tokens buf).length ≤ cmdNargs ∧ ∀ t ∈ tokens buf, t.length ≤ cmdArgLen - 1) ∧
    ∀ req, parseRequest buf = some req →
      req.argc = (tokens buf).length ∧ req.argv.Rows (tokens buf)

theorem Argv.Rows.unique {argv argv' : Argv} (h : argv.Rows ts) (h' : argv'.Rows ts) :
    argv = argv' := by
  funext k j
  rw [h k j, h' k j]

theorem parseRequest_type {req : ProcRequest} (h : parseRequest buf = some req) :
    req.type = procSpawn := by
  unfold parseRequest at h
  split at h
  · cases h
  · rw [← Option.some.inj h]

theorem isSome_iff_of_not_full (h : ¬ FullWithSpace buf) :
    (parseRequest buf).isSome ↔
      (tokens buf).length ≤ cmdNargs ∧ ∀ t ∈ tokens buf, t.length < cmdArgLen := by
  rw [parseRequest_isSome, finished_lt_iff]
  constructor
  · rintro ⟨hshort, hlt | ⟨heq, _⟩⟩
    · exact ⟨hlt.le, hshort⟩
    · exact ⟨heq.le, hshort⟩
  · rintro ⟨hle, hshort⟩
    refine ⟨hshort, ?_⟩
    rcases Nat.lt_or_eq_of_le hle with hlt | heq
    · exact .inl hlt
    · exact .inr ⟨heq, fun hlast => h ⟨heq, hshort, hlast⟩⟩

/-- Which commands `parse_request` accepts. It follows the grammar exactly if the command is not
    one of sixteen tokens with a space behind the last; apart from these, spaces at the start,
    between tokens or at the end make no difference. -/
theorem parseRequest_grammar_iff (buf : List UInt8) :
    (MeetsGrammar buf ↔ ¬ FullWithSpace buf) ∧
      (¬ FullWithSpace buf → ∀ buf', tokens buf' = tokens buf → ¬ FullWithSpace buf' →
        parseRequest buf' = parseRequest buf) := by
  refine ⟨⟨?_, ?_⟩, ?_⟩
  · rintro ⟨haccepts, _⟩ ⟨hcount, hshort, hlast⟩
    have hsome : (parseRequest buf).isSome :=
      haccepts.mpr ⟨hcount.le, fun t ht => Nat.le_sub_one_of_lt (hshort t ht)⟩
    rw [parseRequest_isSome, finished_lt_iff] at hsome
    rcases hsome.2 with hlt | ⟨_, hne⟩
    · omega
    · exact hne hlast
  · intro hfull
    refine ⟨?_, fun req hreq => ?_⟩
    · rw [isSome_iff_of_not_full hfull]
      exact and_congr_right fun _ => forall₂_congr fun t _ =>
        (Nat.le_sub_one_iff_lt (by decide)).symm
    · obtain ⟨hargc, _, _, hrows⟩ := parseRequest_tokens hreq
      exact ⟨hargc, hrows⟩
  · intro hfull buf' htokens hfull'
    have hiff : (parseRequest buf').isSome ↔ (parseRequest buf).isSome := by
      rw [isSome_iff_of_not_full hfull, isSome_iff_of_not_full hfull', htokens]
    cases h : parseRequest buf with
    | none =>
      rw [h] at hiff
      simpa using hiff
    | some req =>
      cases h' : parseRequest buf' with
      | none => simp [h, h'] at hiff
      | some req' =>
        -- both requests hold the same tokens
        obtain ⟨hargc, _, _, hrows⟩ := parseRequest_tokens h
        obtain ⟨hargc', _, _, hrows'⟩ := parseRequest_tokens h'
        have htype := (parseRequest_type h').trans (parseRequest_type h).symm
        rw [htokens] at hargc' hrows'
        cases req
        cases req'
        simp only at htype hargc hargc' hrows hrows'
        rw [htype, hargc', hargc, hrows.unique hrows']

/-- Sixteen arguments, each followed by a space. -/
def sixteenArguments : List UInt8 := (List.replicate 16 [97, space]).flatten

/-- Sixteen tokens of one character each are refused because of the space behind the last. -/
theorem sixteen_arguments_refused :
    (∃ c ∈ sixteenArguments, c ≠ space) ∧ (tokens sixteenArguments).length ≤ cmdNargs ∧
      (∀ t ∈ tokens sixteenArguments, t.length ≤ cmdArgLen - 1) ∧
        (parseRequest sixteenArguments).isSome = false ∧
          (parseRequest sixteenArguments.dropLast).isSome = true := by
  decide +kernel

end Egos.Apps
