import Mathlib.Data.UInt
import Egos.Grass.Code

/-!
# The Shell: Requests

The messages to `GPID_PROCESS` (`library/syscall/servers.h`) and the function of the shell
that fills them from a command line (`parse_request` in `apps/system/sys_shell.c`).

The enumerations of a request and of a reply share the first word of a message: a server
answers in the buffer in which it got the request.
-/

namespace Egos.Apps

/-! ## Messages -/

/-- `CMD_NARGS` -/
def cmdNargs : Nat := 16

/-- `CMD_ARG_LEN` -/
def cmdArgLen : Nat := 32

instance neZeroArgs : NeZero 16 := ⟨by decide⟩

/-- The array `argv` of a request. -/
abbrev Argv := Fin 16 → Fin 32 → UInt8

/-- `struct proc_request`, and `struct proc_reply` on its first word. -/
structure ProcRequest where
  type : Nat
  argc : Nat
  argv : Argv
  deriving DecidableEq

/-- `PROC_SPAWN` -/
def procSpawn : Nat := 0

/-- `PROC_EXIT` -/
def procExit : Nat := 1

/-- `PROC_KILLALL` -/
def procKillall : Nat := 2

/-- `CMD_OK` -/
def cmdOk : Nat := 0

/-- `CMD_ERROR` -/
def cmdError : Nat := 1

/-- `' '` -/
def space : UInt8 := 32

/-- `'&'` -/
def ampersand : UInt8 := 38

/-- `req->argv[req->argc - 1][0]` -/
def ProcRequest.lastArg (req : ProcRequest) : UInt8 := req.argv (Fin.ofNat 16 (req.argc - 1)) 0

/-! ## Parsing -/

/-- `memset(req->argv, 0, CMD_NARGS * CMD_ARG_LEN)` -/
def emptyArgv : Argv := fun _ _ => 0

/-- `argv[nargs][idx] = c` -/
def Argv.set (argv : Argv) (nargs idx : Nat) (c : UInt8) : Argv :=
  Function.update argv (Fin.ofNat 16 nargs)
    (Function.update (argv (Fin.ofNat 16 nargs)) (Fin.ofNat 32 idx) c)

/-- The variables of the loop of `parse_request`. -/
structure Parser where
  idx : Nat
  nargs : Nat
  argv : Argv

/-- The body of the loop of `parse_request`; `none` is `return -1`. -/
def Parser.next (p : Parser) (c : UInt8) : Option Parser :=
  if c ≠ space then
    let p := { p with argv := p.argv.set p.nargs p.idx c, idx := p.idx + 1 }
    if p.idx ≥ cmdArgLen then none else some p
  else if p.idx ≠ 0 then
    let p := { p with argv := p.argv.set p.nargs p.idx 0, idx := 0, nargs := p.nargs + 1 }
    if p.nargs ≥ cmdNargs then none else some p
  else some p

/-- `parse_request` on the bytes of a string without its terminator; `none` is the result
    -1. The caller has set `req->type`. -/
def parseRequest (buf : List UInt8) : Option ProcRequest :=
  match buf.foldlM Parser.next ⟨0, 0, emptyArgv⟩ with
  | none => none
  | some p => some ⟨procSpawn, if p.idx ≠ 0 then p.nargs + 1 else p.nargs, p.argv⟩

end Egos.Apps
