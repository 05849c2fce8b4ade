import Egos.Lib.Agents
import Egos.Apps.Request
import Egos.Grass.Exits
import Egos.Grass.Servers

/-!
# The Whole System: The Programs

The kernel together with every program that runs on it: `sys_proc` from its first instruction
on, `sys_terminal`, `sys_file`, the shell and any number of applications. The kernel is the
model of `Egos.Grass`, and a step is an entry of it or a call of process management.

## Reading guide

- A location (`Loc`) says which system call, or which call of process management, a program
  comes to next. If the process waits in the kernel, it is in that system call, otherwise in
  its own code before it. The own code between two calls is not modelled further: it may take
  any number of timer interrupts.
- `program` says which calls are made at a location and where a program goes on. `FATAL` in a
  server is a location too.
- Applications call the kernel through `library/syscall/servers.c` only, and ask the terminal for
  at most `TERM_BUF_SIZE` bytes at a time (`FitsBuffer`).
- A call of process management (`proc_alloc`, `proc_set_ready`, `proc_free`) is one step. That is
  an assumption: `sys_proc` runs them with interrupts enabled. `Egos.Machine.Teardown` has
  `proc_free` with interrupts inside.
- Of a message the programs look at no more than what is in a `View`.
- `elf_load` reads the program file block by block; how many blocks it reads is left open.
- `Egos.Apps.System` is the same shell and `sys_proc` on a coarser level. `Egos.Whole.Abstraction`
  relates the two.
-/

namespace Egos.Whole

open Egos.Lib Egos.Lib.Rendezvous Egos.Grass Egos.Apps

variable {μ : Type}

/-! ## Messages -/

/-- `TERM_OUTPUT` -/
def termOutput : Nat := 1

/-- `TERM_BUF_SIZE` -/
def termBufSize : Nat := 512

/-- What the programs read in a message. -/
structure View (μ : Type) where
  /-- the first word: `type` of a request and of a `proc_reply` -/
  type : μ → Nat
  /-- `len` of a `term_request` -/
  len : μ → Nat
  /-- The last argument of a `proc_request` starts with `&`. -/
  background : μ → Bool
  /-- `dir_lookup(bin_ino, req->argv[0])` of a `proc_request` is not negative, if this is the
      `file_reply` with the directory. -/
  found : μ → μ → Bool

/-! ## Locations -/

/-- The programs that `sys_proc` starts with `sys_spawn`, in this order. -/
inductive Stage where
  | terminal
  | file
  | shell
  deriving DecidableEq

/-- The pid that the program has by convention. -/
def Stage.gpid : Stage → Int
  | .terminal => gpidTerminal
  | .file => gpidFile
  | .shell => gpidShell

/-- The stage after the notification of the program. -/
def Stage.next : Stage → Stage
  | .terminal => .file
  | .file | .shell => .shell

/-- How many programs were started before. -/
def Stage.index : Stage → Int
  | .terminal => 0
  | .file => 1
  | .shell => 2

/-- Why `sys_proc` reads a file. -/
inductive Job where
  /-- `dir_lookup(0, "bin/")` -/
  | lookupBin
  /-- `dir_lookup(bin_ino, req->argv[0])` -/
  | lookupApp
  /-- `elf_load` of the process -/
  | load (pid : Int)
  deriving DecidableEq

/-- Where `sys_proc` is. -/
inductive ProcLoc (μ : Type) where
  /-- `proc_alloc` of `sys_spawn` -/
  | boot (stage : Stage)
  /-- `elf_load` and `proc_set_ready` of `sys_spawn` -/
  | bootLoad (stage : Stage) (pid : Int)
  /-- `sys_recv` of the notification -/
  | hear (stage : Stage)
  /-- `sys_recv(GPID_ALL, &sender, buf)` -/
  | serve
  /-- `sys_send` of `file_read`, in `app_spawn`; with `Job.load` it may also be at
      `proc_set_ready` -/
  | read (req : μ) (job : Job)
  /-- `sys_recv` of `file_read` -/
  | block (req : μ) (job : Job)
  /-- after the second `dir_lookup`: `return CMD_ERROR` or `proc_alloc` -/
  | looked (req : μ) (found : Bool)
  /-- `sys_send(GPID_SHELL, reply)` of `case PROC_SPAWN` -/
  | answer (req : μ) (type : Nat)
  /-- `proc_free(sender)` -/
  | release (sender : Int)
  /-- `proc_free(GPID_ALL)` -/
  | releaseAll
  /-- `sys_send(GPID_SHELL, reply)` of `case PROC_EXIT` -/
  | notify
  deriving DecidableEq

/-- The servers that reply to their clients. -/
inductive Kind where
  | terminal
  | file
  deriving DecidableEq

def Kind.gpid : Kind → Int
  | .terminal => gpidTerminal
  | .file => gpidFile

/-- Where `sys_terminal` or `sys_file` is. -/
inductive ServerLoc where
  /-- `sys_send(GPID_PROCESS, buf)` of the notification -/
  | start
  /-- `sys_recv(GPID_ALL, &sender, req)` -/
  | serve
  /-- `sys_send(sender, reply)` -/
  | reply (client : Int)
  deriving DecidableEq

/-- Where the shell is. -/
inductive ShellLoc (μ : Type) where
  /-- `term_read`, or the `sys_send` of the next command -/
  | prompt
  /-- `sys_recv` of the reply -/
  | reply (req : μ)
  /-- `sys_recv` for the end of a foreground command -/
  | exit
  deriving DecidableEq

/-- Where an application is. -/
inductive AppLoc where
  /-- `term_read`, `term_write`, `file_read` or `exit`, whichever comes next -/
  | run
  /-- `sys_recv` of `term_read` or `file_read` -/
  | reply (server : Int)
  /-- `exit`, after ctrl+c -/
  | exit
  /-- `while (1);` of `exit` -/
  | ended
  deriving DecidableEq

/-- Where a process is. -/
inductive Loc (μ : Type) where
  /-- There is no such process, or it has not been started. -/
  | absent
  | proc (loc : ProcLoc μ)
  | server (kind : Kind) (loc : ServerLoc)
  | shell (loc : ShellLoc μ)
  | app (loc : AppLoc)
  /-- after a `FATAL` of a server -/
  | fatal
  deriving DecidableEq

/-- Where the program that `sys_spawn` loads at this stage starts. -/
def Stage.entry : Stage → Loc μ
  | .terminal => .server .terminal .start
  | .file => .server .file .start
  | .shell => .shell .prompt

/-- Where `sys_proc` goes on after `sys_spawn`. -/
def Stage.spawned : Stage → ProcLoc μ
  | .terminal => .hear .terminal
  | .file => .hear .file
  | .shell => .serve

/-! ## Calls -/

section Programs

variable (v : View μ)

/-- The request is one of those that the functions of `servers.c` make of the server. -/
def Asks : Kind → μ → Prop
  | .terminal, m => v.type m = Grass.termInput ∨ v.type m = termOutput
  | .file, m => v.type m = fileRead

instance (m : μ) : (kind : Kind) → Decidable (Asks v kind m)
  | .terminal => inferInstanceAs (Decidable (_ ∨ _))
  | .file => inferInstanceAs (Decidable (_ = _))

/-- The request is not for more bytes than `sys_terminal` has room for. `term_read` and
    `term_write` pass on any length, so this is up to the application. -/
def FitsBuffer : Kind → μ → Prop
  | .terminal, m => v.len m ≤ termBufSize
  | .file, _ => True

instance (m : μ) : (kind : Kind) → Decidable (FitsBuffer v kind m)
  | .terminal => inferInstanceAs (Decidable (_ ≤ _))
  | .file => inferInstanceAs (Decidable True)

/-- The calls of each location. The rest of a message may be anything. Of the applications it is
    assumed that they ask the terminal for no more bytes than fit. -/
inductive Makes : Loc μ → Request Int Int μ → Prop where
  | hear (stage : Stage) : Makes (.proc (.hear stage)) (.recv stage.gpid)
  | serve : Makes (.proc .serve) (.recv gpidAll)
  | read (req : μ) (job : Job) {m : μ} (hm : Asks v .file m) :
      Makes (.proc (.read req job)) (.send gpidFile m)
  | block (req : μ) (job : Job) : Makes (.proc (.block req job)) (.recv gpidFile)
  | answer (req : μ) {type : Nat} {m : μ} (hm : v.type m = type) :
      Makes (.proc (.answer req type)) (.send gpidShell m)
  | notify (m : μ) : Makes (.proc .notify) (.send gpidShell m)
  | greet (kind : Kind) (m : μ) : Makes (.server kind .start) (.send gpidProcess m)
  | listen (kind : Kind) : Makes (.server kind .serve) (.recv gpidAll)
  | reply (kind : Kind) (client : Int) (m : μ) :
      Makes (.server kind (.reply client)) (.send client m)
  | command {m : μ} (hm : v.type m = procSpawn ∨ v.type m = procKillall) :
      Makes (.shell .prompt) (.send gpidProcess m)
  | awaitReply (req : μ) : Makes (.shell (.reply req)) (.recv gpidProcess)
  | awaitExit : Makes (.shell .exit) (.recv gpidProcess)
  | request {kind : Kind} {m : μ} (hm : Asks v kind m) (hlen : FitsBuffer v kind m) :
      Makes (.app .run) (.send kind.gpid m)
  | exit {m : μ} (hm : v.type m = procExit) : Makes (.app .run) (.send gpidProcess m)
  | killed {m : μ} (hm : v.type m = procExit) : Makes (.app .exit) (.send gpidProcess m)
  | awaitServer (server : Int) : Makes (.app (.reply server)) (.recv server)

/-- The location after a `sys_send`. -/
def sent : Loc μ → Int → μ → Loc μ
  | .proc (.read req job), _, _ => .proc (.block req job)
  | .proc (.answer _ _), _, _ | .proc .notify, _, _ => .proc .serve
  | .server kind .start, _, _ | .server kind (.reply _), _, _ => .server kind .serve
  | .shell .prompt, _, m => if v.type m = procSpawn then .shell (.reply m) else .shell .prompt
  | .app .run, receiver, m =>
      if receiver = gpidProcess then .app .ended
      else if WantsReply v.type receiver m then .app (.reply receiver) else .app .run
  | .app .exit, _, _ => .app .ended
  | loc, _, _ => loc

/-- `switch (req->type)` of `sys_proc` -/
def handleProc (sender : Int) (m : μ) : Loc μ :=
  if v.type m = procSpawn then .proc (.read m .lookupBin)
  else if v.type m = procExit then .proc (.release sender)
  else if v.type m = procKillall then .proc .releaseAll
  -- sys_process: invalid request
  else .fatal

/-- The loops of `sys_terminal` and `sys_file`, after the `sys_recv`. -/
def handleServer (kind : Kind) (sender : Int) (m : μ) : Loc μ :=
  match kind with
  | .terminal =>
      if v.len m > termBufSize then .fatal
      else if v.type m = Grass.termInput then .server .terminal (.reply sender)
      else if v.type m = termOutput then .server .terminal .serve
      else .fatal
  | .file => if v.type m = fileRead then .server .file (.reply sender) else .fatal

/-- `app_spawn` after a block has been read. -/
def afterBlock (req m : μ) : Job → ProcLoc μ
  | .lookupBin => .read req .lookupApp
  | .lookupApp => .looked req (v.found req m)
  | .load pid => .read req (.load pid)

/-- The location after a `sys_recv`. -/
def received : Loc μ → Int → μ → Loc μ
  | .proc (.hear stage), _, _ => .proc (.boot stage.next)
  | .proc .serve, sender, m => handleProc v sender m
  | .proc (.block req job), _, m => .proc (afterBlock v req m job)
  | .server kind .serve, sender, m => handleServer v kind sender m
  | .shell (.reply req), _, m =>
      if v.type m ≠ cmdOk then .shell .prompt
      -- Wait for the foreground command to terminate.
      else if v.background req = false then .shell .exit
      else .shell .prompt
  | .shell .exit, _, _ => .shell .prompt
  | .app (.reply _), _, _ => .app .run
  | loc, _, _ => loc

/-- All programs. -/
def program : Program (Loc μ) Int Int μ := ⟨Makes v, sent v, received v⟩

end Programs

/-! ## The system -/

/-- The kernel, the location of each process, and the variables of `sys_proc`. -/
structure World (μ : Type) where
  kernel : Kernel μ
  loc : Int → Loc μ
  appPid : Int
  shellWaiting : Bool

/-- The world after an entry of the kernel with this call. A process whose call is done goes
    on; one that received finds the sender and the message in its user-space record. -/
def World.resume (v : View μ) (w : World μ) (call : Option (Request Int Int μ))
    (k : Kernel μ) : World μ :=
  { w with
    kernel := k
    loc := Rendezvous.resume (program v) w.loc
      (issue (waitingOf w.kernel.procSet) w.kernel.curr.pid call) (waitingOf k.procSet)
      fun pid => ((k.area pid).sender, (k.area pid).content) }

/-- Assignment of a location. -/
def World.goto (w : World μ) (pid : Int) (loc : Loc μ) : World μ :=
  { w with loc := Function.update w.loc pid loc }

theorem World.goto_self (w : World μ) (pid : Int) (l : Loc μ) : (w.goto pid l).loc pid = l :=
  Function.update_self _ _ _

theorem World.goto_of_ne (w : World μ) {pid q : Int} (hne : q ≠ pid) (l : Loc μ) :
    (w.goto pid l).loc q = w.loc q := Function.update_of_ne hne _ _

/-- A timer interrupt takes this key as ctrl+c. -/
def World.Interrupts (w : World μ) (key : Option UInt8) : Prop :=
  w.kernel.curr.pid ≥ gpidUserStart ∧ key = some 0x03

instance (w : World μ) (key : Option UInt8) : Decidable (w.Interrupts key) :=
  inferInstanceAs (Decidable (_ ∧ _))

/-- The locations after a timer interrupt: ctrl+c sends an application to `exit`. -/
def World.ticked (w : World μ) (key : Option UInt8) : World μ :=
  if w.Interrupts key then w.goto w.kernel.curr.pid (.app .exit) else w

/-- The processes that `proc_free(pid)` ends. -/
def Released (pid q : Int) : Prop := if pid ≠ gpidAll then q = pid else q ≥ gpidUserStart

instance (pid q : Int) : Decidable (Released pid q) := by
  unfold Released
  infer_instance

/-- `proc_free`, after which there are no such processes. -/
def World.procFree (w : World μ) (pid : Int) : World μ :=
  { w with
    kernel := w.kernel.procFree pid
    loc := fun q => if Released pid q then .absent else w.loc q }

/-- What happens in the system. -/
inductive Label (μ : Type) where
  | call (c : Request Int Int μ)
  | tick (key : Option UInt8)
  | alloc (pid : Int)
  | load (pid : Int)
  | ready (pid : Int)
  /-- `app_spawn` returns `CMD_ERROR`. -/
  | fail
  | free (pid : Int)

/-- What may happen next. Everything is done by the process that runs; process management is
    done by `sys_proc`, and no interrupt comes in the middle of one of its calls. -/
inductive Step (v : View μ) (w : World μ) : Label μ → World μ → Prop where
  | call {c : Request Int Int μ} {key : Option UInt8} {ctx ctx' : Context} {k : Kernel μ}
      (hmakes : Makes v (w.loc w.kernel.curr.pid) c)
      (hentry : Kernel.kernelEntry 2 0x80000003 key ctx (w.kernel.request c) = .ok (k, ctx')) :
      Step v w (.call c) (w.resume v (some c) k)
  | tick {key : Option UInt8} {ctx ctx' : Context} {k : Kernel μ}
      (hentry : Kernel.kernelEntry 2 0x80000007 key ctx w.kernel = .ok (k, ctx')) :
      Step v w (.tick key) ((w.ticked key).resume v none k)
  /-- `sys_spawn` -/
  | bootAlloc {stage : Stage} {pid : Int} {k : Kernel μ} (hcurr : w.kernel.curr.pid = gpidProcess)
      (hloc : w.loc gpidProcess = .proc (.boot stage))
      (halloc : w.kernel.procAlloc = .ok (pid, k)) :
      Step v w (.alloc pid) ({ w with kernel := k }.goto gpidProcess (.proc (.bootLoad stage pid)))
  | bootLoad {stage : Stage} {pid : Int} (cleared : Syscall μ)
      (hcurr : w.kernel.curr.pid = gpidProcess)
      (hloc : w.loc gpidProcess = .proc (.bootLoad stage pid)) :
      Step v w (.load pid) { w with kernel := w.kernel.elfLoad pid cleared }
  | bootReady {stage : Stage} {pid : Int} (hcurr : w.kernel.curr.pid = gpidProcess)
      (hloc : w.loc gpidProcess = .proc (.bootLoad stage pid)) :
      Step v w (.ready pid) (({ w with kernel := w.kernel.procSetReady pid }.goto pid
        stage.entry).goto gpidProcess (.proc stage.spawned))
  /-- `app_spawn` returns `CMD_ERROR`, and then `shell_waiting` is set. -/
  | fail {req : μ} (hcurr : w.kernel.curr.pid = gpidProcess)
      (hloc : w.loc gpidProcess = .proc (.looked req false)) :
      Step v w .fail ({ w with shellWaiting := false }.goto gpidProcess
        (.proc (.answer req cmdError)))
  | alloc {req : μ} {pid : Int} {k : Kernel μ} (hcurr : w.kernel.curr.pid = gpidProcess)
      (hloc : w.loc gpidProcess = .proc (.looked req true))
      (halloc : w.kernel.procAlloc = .ok (pid, k)) :
      Step v w (.alloc pid) ({ w with kernel := k, appPid := pid }.goto gpidProcess
        (.proc (.read req (.load pid))))
  | load {req : μ} {pid : Int} (cleared : Syscall μ) (hcurr : w.kernel.curr.pid = gpidProcess)
      (hloc : w.loc gpidProcess = .proc (.read req (.load pid))) :
      Step v w (.load pid) { w with kernel := w.kernel.elfLoad pid cleared }
  /-- `app_spawn` returns `CMD_OK`, and then `shell_waiting` is set. -/
  | ready {req : μ} {pid : Int} (hcurr : w.kernel.curr.pid = gpidProcess)
      (hloc : w.loc gpidProcess = .proc (.read req (.load pid))) :
      Step v w (.ready pid) (({ w with
        kernel := w.kernel.procSetReady pid
        shellWaiting := !v.background req }.goto pid (.app .run)).goto gpidProcess
          (.proc (.answer req cmdOk)))
  /-- `case PROC_EXIT` -/
  | release {sender : Int} (hcurr : w.kernel.curr.pid = gpidProcess)
      (hloc : w.loc gpidProcess = .proc (.release sender)) :
      Step v w (.free sender) ((w.procFree sender).goto gpidProcess (.proc
        (if w.shellWaiting = true ∧ w.appPid = sender then .notify else .serve)))
  /-- `case PROC_KILLALL` -/
  | releaseAll (hcurr : w.kernel.curr.pid = gpidProcess)
      (hloc : w.loc gpidProcess = .proc .releaseAll) :
      Step v w (.free gpidAll) ((w.procFree gpidAll).goto gpidProcess (.proc .serve))

/-- The first process is about to start the others. The variable `shell_waiting` has no value
    yet. -/
structure Booting (w : World μ) : Prop where
  kernel : FirstProcess w.kernel
  proc : w.loc gpidProcess = .proc (.boot .terminal)
  others : ∀ pid, pid ≠ gpidProcess → w.loc pid = .absent
  appPid : w.appPid = 0

/-! ## Accidents -/

/-- The client to whom a server at this location owes a reply. -/
def Loc.owes : Loc μ → Option Int
  | .server _ (.reply client) => some client
  | _ => none

/-- Three events that the programs do not survive: the last slot, which the kernel never
    schedules, is given to a process; ctrl+c hits an application between a request and its
    reply; `killall` hits an application that a server owes a reply. -/
def Accident (w : World μ) : Label μ → Prop
  | .alloc pid => pid = 16
  | .tick key => w.Interrupts key ∧ ∃ server, w.loc w.kernel.curr.pid = .app (.reply server)
  | .free pid => pid = gpidAll ∧ ∃ server client, client ≥ gpidUserStart ∧
      (w.loc server).owes = some client
  | _ => False

/-- A step without an accident. -/
def SafeStep (v : View μ) (w : World μ) (l : Label μ) (w' : World μ) : Prop :=
  Step v w l w' ∧ ¬ Accident w l

/-! ## Execution -/

section Execution

variable {v : View μ} {w w' : World μ}

/-- `Makes` as a function. -/
def Loc.allows (v : View μ) : Loc μ → Request Int Int μ → Bool
  | .proc (.hear stage), .recv source => source = stage.gpid
  | .proc .serve, .recv source => source = gpidAll
  | .proc (.read _ _), .send receiver m => receiver = gpidFile ∧ Asks v .file m
  | .proc (.block _ _), .recv source => source = gpidFile
  | .proc (.answer _ type), .send receiver m => receiver = gpidShell ∧ v.type m = type
  | .proc .notify, .send receiver _ => receiver = gpidShell
  | .server _ .start, .send receiver _ => receiver = gpidProcess
  | .server _ .serve, .recv source => source = gpidAll
  | .server _ (.reply client), .send receiver _ => receiver = client
  | .shell .prompt, .send receiver m =>
      receiver = gpidProcess ∧ (v.type m = procSpawn ∨ v.type m = procKillall)
  | .shell (.reply _), .recv source => source = gpidProcess
  | .shell .exit, .recv source => source = gpidProcess
  | .app .run, .send receiver m =>
      (∃ kind ∈ [Kind.terminal, Kind.file],
        receiver = kind.gpid ∧ Asks v kind m ∧ FitsBuffer v kind m) ∨
      (receiver = gpidProcess ∧ v.type m = procExit)
  | .app .exit, .send receiver m => receiver = gpidProcess ∧ v.type m = procExit
  | .app (.reply pid), .recv source => source = pid
  | _, _ => false

theorem makes_of_allows {l : Loc μ} {c : Request Int Int μ} (h : l.allows v c = true) :
    Makes v l c := by
  unfold Loc.allows at h
  split at h <;> simp only [decide_eq_true_eq, reduceCtorEq] at h
  · exact h ▸ .hear _
  · exact h ▸ .serve
  · exact h.1 ▸ .read _ _ h.2
  · exact h ▸ .block _ _
  · exact h.1 ▸ .answer _ h.2
  · exact h ▸ .notify _
  · exact h ▸ .greet _ _
  · exact h ▸ .listen _
  · exact h ▸ .reply _ _ _
  · exact h.1 ▸ .command h.2
  · exact h ▸ .awaitReply _
  · exact h ▸ .awaitExit
  · rcases h with ⟨kind, _, rfl, hasks, hlen⟩ | ⟨rfl, htype⟩
    · exact .request hasks hlen
    · exact .exit htype
  · exact h.1 ▸ .killed h.2
  · exact h ▸ .awaitServer _

/-- What the process that runs is to do next. -/
inductive Move (μ : Type) where
  | call (c : Request Int Int μ)
  | tick
  /-- the next call of process management -/
  | manage

/-- The next call of process management, but for `proc_free(GPID_ALL)`. -/
def World.manage (v : View μ) (w : World μ) : Option (Label μ × World μ) :=
  match w.loc gpidProcess with
  | .proc (.boot stage) => w.kernel.procAlloc.toOption.map fun r =>
      (.alloc r.1, { w with kernel := r.2 }.goto gpidProcess (.proc (.bootLoad stage r.1)))
  | .proc (.bootLoad stage pid) => some (.ready pid,
      ({ w with kernel := w.kernel.procSetReady pid }.goto pid stage.entry).goto gpidProcess
        (.proc stage.spawned))
  | .proc (.looked req false) => some (.fail,
      { w with shellWaiting := false }.goto gpidProcess (.proc (.answer req cmdError)))
  | .proc (.looked req true) => w.kernel.procAlloc.toOption.map fun r =>
      (.alloc r.1, { w with kernel := r.2, appPid := r.1 }.goto gpidProcess
        (.proc (.read req (.load r.1))))
  | .proc (.read req (.load pid)) => some (.ready pid, ({ w with
      kernel := w.kernel.procSetReady pid
      shellWaiting := !v.background req }.goto pid (.app .run)).goto gpidProcess
        (.proc (.answer req cmdOk)))
  | .proc (.release sender) => some (.free sender, (w.procFree sender).goto gpidProcess (.proc
      (if w.shellWaiting = true ∧ w.appPid = sender then .notify else .serve)))
  | _ => none

/-- The next step. -/
def World.act (v : View μ) (w : World μ) : Move μ → Option (Label μ × World μ)
  | .call c =>
      if (w.loc w.kernel.curr.pid).allows v c then
        ((w.kernel.request c).enter 0x80000003).map fun k => (.call c, w.resume v (some c) k)
      else none
  | .tick => (w.kernel.enter 0x80000007).map fun k => (.tick none, w.resume v none k)
  | .manage => if w.kernel.curr.pid = gpidProcess then w.manage v else none

theorem alloc_of_toOption {f : Int × Kernel μ → Label μ × World μ} {r : Label μ × World μ}
    (h : w.kernel.procAlloc.toOption.map f = some r) :
    ∃ pid k, w.kernel.procAlloc = .ok (pid, k) ∧ r = f (pid, k) := by
  cases halloc : w.kernel.procAlloc with
  | error e =>
    rw [halloc] at h
    cases h
  | ok r' =>
    rw [halloc] at h
    exact ⟨r'.1, r'.2, rfl, (Option.some.inj h).symm⟩

theorem step_of_manage {r : Label μ × World μ} (hcurr : w.kernel.curr.pid = gpidProcess)
    (h : w.manage v = some r) : Step v w r.1 r.2 := by
  unfold World.manage at h
  split at h
  case h_1 stage hloc =>
    obtain ⟨pid, k, halloc, rfl⟩ := alloc_of_toOption h
    exact .bootAlloc hcurr hloc halloc
  case h_2 stage pid hloc =>
    obtain rfl := Option.some.inj h
    exact .bootReady hcurr hloc
  case h_3 req hloc =>
    obtain rfl := Option.some.inj h
    exact .fail hcurr hloc
  case h_4 req hloc =>
    obtain ⟨pid, k, halloc, rfl⟩ := alloc_of_toOption h
    exact .alloc hcurr hloc halloc
  case h_5 req pid hloc =>
    obtain rfl := Option.some.inj h
    exact .ready hcurr hloc
  case h_6 sender hloc =>
    obtain rfl := Option.some.inj h
    exact .release hcurr hloc
  case h_7 => cases h

theorem step_of_act {m : Move μ} {r : Label μ × World μ} (h : w.act v m = some r) :
    Step v w r.1 r.2 := by
  cases m with
  | call c =>
    obtain ⟨hallows, h⟩ := Option.ite_none_right_eq_some.mp h
    obtain ⟨k, henter, rfl⟩ := Option.map_eq_some_iff.mp h
    obtain ⟨ctx', hentry⟩ := enter_ok henter
    exact .call (makes_of_allows hallows) hentry
  | tick =>
    obtain ⟨k, henter, rfl⟩ := Option.map_eq_some_iff.mp h
    obtain ⟨ctx', hentry⟩ := enter_ok henter
    have hstep := @Step.tick _ v w none _ _ _ hentry
    rwa [World.ticked, if_neg fun hint => nomatch hint.2] at hstep
  | manage =>
    obtain ⟨hcurr, h⟩ := Option.ite_none_right_eq_some.mp h
    exact step_of_manage hcurr h

/-- An event that is no accident, wherever the programs are. -/
def Label.harmless : Label μ → Bool
  | .alloc pid => pid ≠ 16
  | .tick key => key = none
  | .free pid => pid ≠ gpidAll
  | _ => true

theorem Label.harmless.not_accident {l : Label μ} (h : l.harmless = true) : ¬ Accident w l := by
  intro haccident
  cases l with
  | alloc pid => exact of_decide_eq_true h haccident
  | tick key => exact nomatch (of_decide_eq_true h).symm.trans haccident.1.2
  | free pid => exact of_decide_eq_true h haccident.1
  | _ => exact haccident

/-- What is executed is a run. -/
theorem run_act [Force (World μ)] {moves : List (Move μ)}
    (h : (execute (checked (fun _ l => l.harmless) (World.act v)) moves w).isSome = true) :
    Run (SafeStep v) w (executed (checked (fun _ l => l.harmless) (World.act v)) moves w).1
      (executed (checked (fun _ l => l.harmless) (World.act v)) moves w).2 := by
  refine run_executed (fun w m l w' hact => ?_) h
  obtain ⟨hact, hharmless⟩ := checked_eq_some.mp hact
  exact ⟨step_of_act hact, Label.harmless.not_accident hharmless⟩

/-! Between two steps the state is evaluated, as that of the kernel is. -/

instance : Force (Loc μ) where
  force l f := match l with
    | .absent => f .absent
    | .proc loc => f (.proc loc)
    | .server kind loc => f (.server kind loc)
    | .shell loc => f (.shell loc)
    | .app loc => f (.app loc)
    | .fatal => f .fatal
  force_eq l f := by cases l <;> rfl

instance [Force μ] : Force (World μ) where
  force w f :=
    Force.force w.kernel fun kernel => forceBelow 17 w.loc fun loc =>
    Force.force w.appPid fun appPid => Force.force w.shellWaiting fun shellWaiting =>
      f ⟨kernel, loc, appPid, shellWaiting⟩
  force_eq w f := by simp [forceBelow_eq]

end Execution

end Egos.Whole
