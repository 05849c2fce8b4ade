import Egos.Apps.Request
import Egos.Grass.Servers

/-!
# The Shell, `sys_proc` and the Applications

The command loop of the shell (`apps/system/sys_shell.c`), the loop of the server for
processes (`apps/system/sys_proc.c`) and applications that end with `exit`
(`library/syscall/servers.c`), as three kinds of programs that run at any interleaving.

## Reading guide

- A program counter says in which system call a program is, and holds the variables that are
  still needed. `System.waiting` collects the unfinished calls; a send and a receive that fit
  are completed together, as in `Egos.Lib.Rendezvous`, which the kernel refines.
- Of the kernel only the process table matters here. `sys_proc` changes it by `proc_alloc`,
  `proc_set_ready` and `proc_free`. What else happens in the kernel keeps the slots in use
  (`SameUse`), and is a step of its own.
- `FATAL` is `none`: there is no further step.
- Servers, scheduling and the entries of the kernel are in `Egos.Whole.Programs`, where requests
  are handled in several steps. `Egos.Whole.Abstraction` shows that its runs are runs here.
- Commands that need no message (`pwd`, `coresinfo`, those that `parse_request` refuses) leave
  the shell at its prompt and are left out, as are the texts the programs print.
-/

namespace Egos.Apps

open Egos.Lib Egos.Lib.Rendezvous Egos.Grass

/-! ## State -/

/-- Where the shell is. -/
inductive ShellPc where
  /-- between two commands -/
  | prompt
  /-- in `sys_send(GPID_PROCESS, &req)` of a command to start -/
  | requesting (req : ProcRequest)
  /-- in the `sys_recv` of the reply -/
  | awaitingReply (req : ProcRequest)
  /-- in the `sys_recv` for the end of a foreground command -/
  | awaitingExit
  /-- in `sys_send(GPID_PROCESS, &req)` of `killall` -/
  | killing (req : ProcRequest)
  deriving DecidableEq

/-- Where `sys_proc` is. -/
inductive ServerPc where
  /-- in `sys_recv(GPID_ALL, &sender, buf)` -/
  | receiving
  /-- before `switch (req->type)` -/
  | handling (sender : Int)
  /-- in `sys_send(GPID_SHELL, reply)` -/
  | sending
  deriving DecidableEq

/-- Where an application is. -/
inductive AppPc where
  /-- in its own code -/
  | running
  /-- in the `sys_send` of `exit` -/
  | exiting (req : ProcRequest)
  /-- in the endless loop of `exit`, or there is no such process -/
  | stopped
  deriving DecidableEq

/-- The programs and the process table. -/
structure System where
  shell : ShellPc
  server : ServerPc
  /-- `buf`, where requests and replies are -/
  buf : ProcRequest
  appPid : Int
  shellWaiting : Bool
  app : Int → AppPc
  kernel : Kernel ProcRequest
  /-- the results of `dir_lookup(bin_ino, name)` -/
  bin : (Fin 32 → UInt8) → Int

/-- The slot of the process is in use. -/
def Live (k : Kernel ProcRequest) (pid : Int) : Prop :=
  ∃ i : Slot, pid = i.val ∧ (k.procSet i).status ≠ .unused

instance (k : Kernel ProcRequest) (pid : Int) : Decidable (Live k pid) :=
  inferInstanceAs (Decidable (∃ _ : Slot, _))

/-! ## Calls -/

/-- The call the shell is in. -/
def ShellPc.call : ShellPc → Option (Request Int Int ProcRequest)
  | .prompt => none
  | .requesting req | .killing req => some (.send gpidProcess req)
  | .awaitingReply _ | .awaitingExit => some (.recv gpidProcess)

/-- The call `sys_proc` is in. -/
def ServerPc.call (buf : ProcRequest) : ServerPc → Option (Request Int Int ProcRequest)
  | .receiving => some (.recv gpidAll)
  | .handling _ => none
  | .sending => some (.send gpidShell buf)

/-- The call an application is in. -/
def AppPc.call : AppPc → Option (Request Int Int ProcRequest)
  | .exiting req => some (.send gpidProcess req)
  | .running | .stopped => none

/-- The unfinished calls. -/
def System.waiting (s : System) : Waiting Int Int ProcRequest := fun pid =>
  if pid = gpidShell then s.shell.call
  else if pid = gpidProcess then s.server.call s.buf
  else (s.app pid).call

/-- The shell after a `sys_send`. -/
def ShellPc.sent : ShellPc → ShellPc
  | .requesting req => .awaitingReply req
  | .killing _ => .prompt
  | pc => pc

/-- The shell after a `sys_recv` into `reply`. -/
def ShellPc.received (reply : ProcRequest) : ShellPc → ShellPc
  | .awaitingReply req =>
      if reply.type ≠ cmdOk then .prompt
      -- Wait for the foreground command to terminate.
      else if req.lastArg ≠ ampersand then .awaitingExit
      else .prompt
  | .awaitingExit => .prompt
  | pc => pc

/-- The sender goes on. -/
def System.sent (s : System) (pid : Int) : System :=
  if pid = gpidShell then { s with shell := s.shell.sent }
  else if pid = gpidProcess then { s with server := .receiving }
  else { s with app := Function.update s.app pid .stopped }

/-- The receiver goes on. -/
def System.received (s : System) (d : Delivery Int ProcRequest) : System :=
  if d.receiver = gpidShell then { s with shell := s.shell.received d.content }
  else if d.receiver = gpidProcess then { s with server := .handling d.sender, buf := d.content }
  else s

/-- A message is handed over. -/
def System.deliver (s : System) (d : Delivery Int ProcRequest) : System :=
  (s.sent d.sender).received d

/-! ## The server -/

/-- What happens in the system. -/
inductive Label where
  /-- the shell starts with a command -/
  | command (req : ProcRequest)
  /-- the shell starts with `killall` -/
  | killall
  /-- an application calls `exit` -/
  | exit (pid : Int)
  | deliver (d : Delivery Int ProcRequest)
  /-- `app_spawn` finds no such program -/
  | notFound
  /-- `app_spawn` has started a process -/
  | spawned (pid : Int)
  /-- `proc_free(pid)` -/
  | freed (pid : Int)
  /-- the directory is changed -/
  | files
  /-- something happens in the kernel -/
  | turn
  deriving DecidableEq

/-- `proc_free`; a process that is released does not go on. -/
def System.procFree (s : System) (pid : Int) : System :=
  let kernel := s.kernel.procFree pid
  { s with kernel, app := fun q => if Live kernel q then s.app q else .stopped }

/-- `app_spawn`, with `elf_load` left out: the result and what happened. -/
def System.appSpawn (s : System) (req : ProcRequest) : Option (Nat × Label × System) :=
  if s.bin (req.argv 0) < 0 then some (cmdError, .notFound, s)
  else
    match s.kernel.procAlloc with
    | .error _ => none
    | .ok (pid, kernel) =>
      some (cmdOk, .spawned pid, { s with
        appPid := pid
        kernel := kernel.procSetReady pid
        app := Function.update s.app pid .running })

/-- `case PROC_SPAWN`; `req` and `reply` are both `buf`. -/
def System.handleSpawn (s : System) : Option (Label × System) :=
  match s.appSpawn s.buf with
  | none => none
  | some (type, label, s) =>
    let buf := { s.buf with type }
    some (label, { s with
      buf
      shellWaiting := decide (buf.lastArg ≠ ampersand ∧ buf.type = cmdOk)
      server := .sending })

/-- `case PROC_EXIT` -/
def System.handleExit (s : System) (sender : Int) : Label × System :=
  let s := s.procFree sender
  (.freed sender, { s with
    server := if s.shellWaiting ∧ s.appPid = sender then .sending else .receiving })

/-- `case PROC_KILLALL` -/
def System.handleKillall (s : System) : Label × System :=
  (.freed gpidAll, { s.procFree gpidAll with server := .receiving })

/-- `switch (req->type)` -/
def System.handle (s : System) (sender : Int) : Option (Label × System) :=
  if s.buf.type = procSpawn then s.handleSpawn
  else if s.buf.type = procExit then some (s.handleExit sender)
  else if s.buf.type = procKillall then some s.handleKillall
  else none

/-! ## Steps -/

/-- What may happen next. The other fields of a request for `killall` or of `exit` are not
    set by the source, and may be anything. -/
inductive Step (s : System) : Label → System → Prop where
  /-- The next command has a token, and `parse_request` accepted it. -/
  | command (req : ProcRequest) (hshell : s.shell = .prompt) (htype : req.type = procSpawn)
      (hpos : 1 ≤ req.argc) (hle : req.argc ≤ cmdNargs) :
      Step s (.command req) { s with shell := .requesting req }
  /-- The next command is `killall`. -/
  | killall (req : ProcRequest) (hshell : s.shell = .prompt) (htype : req.type = procKillall) :
      Step s .killall { s with shell := .killing req }
  /-- An application calls `exit`, or its `main` returns. -/
  | exit (pid : Int) (req : ProcRequest) (happ : s.app pid = .running)
      (htype : req.type = procExit) :
      Step s (.exit pid) { s with app := Function.update s.app pid (.exiting req) }
  | deliver (d : Delivery Int ProcRequest) (hfits : Fits accepts s.waiting d) :
      Step s (.deliver d) (s.deliver d)
  | handle (sender : Int) (label : Label) (s' : System) (hserver : s.server = .handling sender)
      (hhandle : s.handle sender = some (label, s')) : Step s label s'
  | files (bin : (Fin 32 → UInt8) → Int) : Step s .files { s with bin }
  | turn (kernel : Kernel ProcRequest) (huse : SameUse s.kernel.procSet kernel.procSet) :
      Step s .turn { s with kernel }

/-- The system when the shell comes to its loop: `shell_waiting` has no value yet, and no
    application has been started. -/
structure Start (s : System) : Prop where
  shell : s.shell = .prompt
  server : s.server = .receiving
  app : ∀ pid, s.app pid = .stopped
  table : Table s.kernel.procSet
  system : ∀ pid, IsSystem pid → Live s.kernel pid

/-- An entry of the kernel is a step. -/
theorem step_of_enters {s : System} {e : Entry ProcRequest} {k : Kernel ProcRequest}
    (hordered : Ordered s.kernel) (henters : Enters s.kernel e k) :
    Step s .turn { s with kernel := k } := by
  obtain ⟨_, _, _, hmoved⟩ := hordered.enters henters
  exact .turn k hmoved.use

end Egos.Apps
