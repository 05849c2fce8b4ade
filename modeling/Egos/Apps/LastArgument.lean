import Egos.Apps.Batch
import Egos.Apps.Terminal

/-!
# The Shell: From Keys to a Request

What is typed becomes a line (`term_read`), a line becomes commands (`parse_batch_cmds`), and a
command becomes a request (`parse_request`). The shell, `sys_proc` and `app_spawn` then look at
`argv[argc - 1]`, and `app_spawn` looks up `argv[0]`.

A command of spaces passes all checks on this way and has no argument:
`request_has_argument_iff`.
-/

namespace Egos.Apps

open Egos.Lib

/-! ## The loop of the shell -/

/-- `"cd"`, the first line of the shell. -/
def firstLine : List UInt8 := [99, 100]

/-- The commands that the shell does not parse: `coresinfo`, `killall` and `pwd`. -/
def builtins : List (List UInt8) :=
  [[99, 111, 114, 101, 115, 105, 110, 102, 111], [107, 105, 108, 108, 97, 108, 108],
    [112, 119, 100]]

/-- A line that `term_read(buf, TERM_BUF_SIZE)` leaves in the buffer, with a result other
    than 0. -/
def Delivered (line : List UInt8) : Prop :=
  ∃ buf input result s rest, termRead buf 512 input = .returned result s rest ∧ result ≠ 0 ∧
    HoldsString (fun k : Nat => s.buf k) 0 line

/-- The shell has got the command from one of its lines, and `parse_request` has accepted it. -/
structure Requested (cmd : List UInt8) (req : ProcRequest) : Prop where
  session : ∃ lines log b', (∀ line ∈ lines, Delivered line) ∧
    Session noCommands (firstLine :: lines) log b' ∧
      ∃ r ∈ log, HoldsString r.2.cmds (256 * r.1) cmd
  parsed : cmd ∉ builtins
  accepted : parseRequest cmd = some req

/-- `argv[argc - 1]` is a row of `argv`, and the name in `argv[0]` is not empty. -/
def HasArgument (req : ProcRequest) : Prop :=
  (∃ k : Fin 16, (k.val : Int) = (req.argc : Int) - 1) ∧ 1 ≤ req.argc ∧ req.argc ≤ cmdNargs ∧
    req.argv 0 0 ≠ 0

/-! ## Arguments -/

variable {cmd : List UInt8} {req : ProcRequest}

theorem tokens_eq_nil_iff : tokens cmd = [] ↔ ∀ c ∈ cmd, c = space :=
  pieces_eq_nil_iff

/-- The first character of the first token. -/
theorem argv_zero_ne (hzero : 0 ∉ cmd) (hreq : parseRequest cmd = some req)
    (hne : tokens cmd ≠ []) : req.argv 0 0 ≠ 0 := by
  obtain ⟨_, _, _, hrows⟩ := parseRequest_tokens hreq
  rw [hrows 0 0]
  obtain ⟨t, ts, htokens⟩ := List.exists_cons_of_ne_nil hne
  have ht : t ∈ tokens cmd := htokens ▸ List.mem_cons_self
  cases t with
  | nil => simp [tokens, pieces] at ht
  | cons c t =>
    rw [htokens]
    show c ≠ 0
    rintro rfl
    exact hzero (mem_of_mem_tokens ht List.mem_cons_self)

/-- A command that the shell accepts has a last argument and a name to look up exactly if it has
    a character other than a space. -/
theorem request_has_argument_iff (h : Requested cmd req) :
    HasArgument req ↔ ∃ c ∈ cmd, c ≠ space := by
  obtain ⟨_, _, _, _, _, _, _, hstring⟩ := h.session
  obtain ⟨hargc, hle, _, _⟩ := parseRequest_tokens h.accepted
  constructor
  · rintro ⟨_, hpos, _, _⟩
    by_contra hspaces
    push Not at hspaces
    rw [hargc, tokens_eq_nil_iff.mpr hspaces] at hpos
    exact absurd hpos (by decide)
  · rintro ⟨c, hc, hspace⟩
    have hne : tokens cmd ≠ [] := fun hnil => hspace (tokens_eq_nil_iff.mp hnil c hc)
    have hpos : 1 ≤ req.argc := by
      rw [hargc]
      exact List.length_pos_of_ne_nil hne
    have hlt : req.argc - 1 < 16 := by
      unfold cmdNargs at hle
      omega
    exact ⟨⟨⟨req.argc - 1, hlt⟩, by simp; omega⟩, hpos, hle,
      argv_zero_ne hstring.zero_notMem h.accepted hne⟩

/-- Every command of the lines is in the log. -/
theorem exists_row_of_mem {log : List (Nat × Batch)} {cmds : List (List UInt8)}
    (h : Commands log cmds) (hcmd : cmd ∈ cmds) :
    ∃ r ∈ log, HoldsString r.2.cmds (256 * r.1) cmd := by
  induction h with
  | nil => exact absurd hcmd List.not_mem_nil
  | @cons r t _ _ hrow _ ih =>
    rcases List.mem_cons.mp hcmd with rfl | hcmd
    · exact ⟨r, List.mem_cons_self, hrow⟩
    · obtain ⟨r', hr', hrow'⟩ := ih hcmd
      exact ⟨r', List.mem_cons_of_mem _ hr', hrow'⟩

/-- A command of a few short lines reaches the shell. -/
theorem requested_of_mem (lines : List (List UInt8)) (hlines : ∀ line ∈ lines, Delivered line)
    (hcopied : ∀ cmd ∈ (firstLine :: lines).flatMap handedOut, 0 ∉ cmd ∧ cmd.length < 256)
    (hcmd : cmd ∈ (firstLine :: lines).flatMap handedOut) (hparsed : cmd ∉ builtins)
    (hreq : parseRequest cmd = some req) : Requested cmd req := by
  obtain ⟨log, b', hsession⟩ := exists_session idle_noCommands (firstLine :: lines)
  obtain ⟨_, _, hlog⟩ := hsession.spec idle_noCommands
  exact ⟨⟨lines, log, b', hlines, hsession, exists_row_of_mem (hlog.commands hcopied) hcmd⟩,
    hparsed, hreq⟩

/-- "cd" is looked up. -/
theorem request_has_argument_cd : ∃ req, Requested firstLine req ∧ HasArgument req := by
  cases hreq : parseRequest firstLine with
  | none => exact absurd (congrArg Option.isSome hreq) (by decide)
  | some req =>
    have h : Requested firstLine req :=
      requested_of_mem [] (by simp) (by decide) (by decide) (by decide) hreq
    exact ⟨req, h, (request_has_argument_iff h).mpr ⟨99, by decide, by decide⟩⟩

/-- A space and Enter are a line. -/
theorem delivered_space : Delivered [space] := by
  refine ⟨fun _ => 0, [space, enterKey], 2, _, [], rfl, by decide, by decide, fun j hj => ?_, rfl⟩
  obtain rfl : j = 0 := by simpa using hj
  rfl

/-- A space and Enter: the request has no argument, and its last one would be `argv[-1]`. -/
theorem space_has_no_argument :
    ∃ req, Requested [space] req ∧ req.argc = 0 ∧ ¬ HasArgument req := by
  cases hreq : parseRequest [space] with
  | none => exact absurd (congrArg Option.isSome hreq) (by decide)
  | some req =>
    obtain ⟨hargc, _⟩ := parseRequest_tokens hreq
    have hzero : req.argc = 0 := hargc.trans (by decide)
    have h : Requested [space] req :=
      requested_of_mem [[space]] (by simpa using delivered_space) (by decide) (by decide)
        (by decide) hreq
    refine ⟨req, h, hzero, fun hargument => ?_⟩
    have hpos := hargument.2.1
    omega

end Egos.Apps
