import Egos.Whole.Programs

/-!
# The Whole System: Conversations

What the programs know of each other at any moment. `Talk` is about the locations alone, and
every delivery of the machine keeps it (`Talk.deliver`).

- A server owes a reply to exactly those who wait for one from it.
- `Joint` is the conversation of `sys_proc` and the shell, one case for each pair of locations
  they can be at together. It has the stale values of `app_pid` and `shell_waiting` in it.
- `Exchange` lists the deliveries that can occur.
-/

namespace Egos.Whole

open Egos.Lib Egos.Lib.Rendezvous Egos.Grass Egos.Apps

variable {μ : Type}

/-! ## What a location says -/

/-- The server from which a program at this location waits for a reply. -/
def Loc.awaits : Loc μ → Option Int
  | .proc (.block _ _) => some gpidFile
  | .app (.reply pid) => some pid
  | _ => none

/-- The server whose notification `sys_proc` waits for. -/
def Loc.hears : Loc μ → Option Int
  | .proc (.hear stage) => some stage.gpid
  | _ => none

/-- A server that has not sent its notification. -/
def Loc.Greets : Loc μ → Prop
  | .server _ .start => True
  | _ => False

/-- How many system processes `sys_proc` has started at this location. -/
def Loc.up : Loc μ → Int
  | .proc (.boot stage) => stage.index
  | .proc (.bootLoad stage _) => stage.index
  | .proc (.hear stage) => stage.index + 1
  | _ => 3

/-- The process that `sys_proc` is loading. -/
def Loc.loads : Loc μ → Option Int
  | .proc (.bootLoad _ pid) => some pid
  | .proc (.read _ (.load pid)) => some pid
  | .proc (.block _ (.load pid)) => some pid
  | _ => none

/-- Each program runs under its own pids. -/
def Placed (pid : Int) : Loc μ → Prop
  | .absent => pid ≠ gpidProcess
  | .proc _ => pid = gpidProcess
  | .server kind _ => pid = kind.gpid
  | .shell _ => pid = gpidShell
  | .app _ => gpidUserStart ≤ pid ∧ pid < 16
  | .fatal => False

section Talk

variable (v : View μ) (loc : Int → Loc μ) (appPid : Int) (shellWaiting : Bool)

/-- The application `app_pid` is there, and `sys_proc` takes it for a foreground command. -/
def Foreground : Prop := shellWaiting = true ∧ gpidUserStart ≤ appPid ∧ loc appPid ≠ .absent

/-- A process whose `PROC_EXIT` has been received. -/
def Leaving (pid : Int) : Prop := loc pid = .app .ended ∨ loc pid = .app .exit

/-- The job of a file read; `elf_load` is for the process `app_pid`, which has not started. -/
def JobOk : Job → Prop
  | .load pid => pid = appPid ∧ gpidUserStart ≤ pid ∧ pid < 16 ∧ loc pid = .absent
  | _ => True

/-- Where `sys_proc` and the shell are together. -/
inductive Joint : Loc μ → Loc μ → Prop where
  | boot (stage : Stage) : Joint (.proc (.boot stage)) .absent
  | bootLoad (stage : Stage) : Joint (.proc (.bootLoad stage stage.gpid)) .absent
  | hear {stage : Stage} (hstage : stage ≠ .shell) : Joint (.proc (.hear stage)) .absent
  | prompt (hfree : ¬ Foreground loc appPid shellWaiting) : Joint (.proc .serve) (.shell .prompt)
  | foreground (hrun : Foreground loc appPid shellWaiting) : Joint (.proc .serve) (.shell .exit)
  | releasePrompt {pid : Int} (hpid : Leaving loc pid)
      (hfree : ¬ Foreground loc appPid shellWaiting) :
      Joint (.proc (.release pid)) (.shell .prompt)
  | release {pid : Int} (hpid : Leaving loc pid) (hrun : Foreground loc appPid shellWaiting) :
      Joint (.proc (.release pid)) (.shell .exit)
  | releaseAll (hfree : ¬ Foreground loc appPid shellWaiting) :
      Joint (.proc .releaseAll) (.shell .prompt)
  | notify (hgone : loc appPid = .absent) : Joint (.proc .notify) (.shell .exit)
  | read {req : μ} {job : Job} (hjob : JobOk loc appPid job) :
      Joint (.proc (.read req job)) (.shell (.reply req))
  | block {req : μ} {job : Job} (hjob : JobOk loc appPid job) :
      Joint (.proc (.block req job)) (.shell (.reply req))
  | looked (req : μ) (found : Bool) : Joint (.proc (.looked req found)) (.shell (.reply req))
  | answer {req : μ} {type : Nat} (hrun : (type = cmdOk ∧ v.background req = false) ↔
      Foreground loc appPid shellWaiting) : Joint (.proc (.answer req type)) (.shell (.reply req))

/-- Which processes there are. -/
structure Base : Prop where
  placed : ∀ pid, Placed pid (loc pid)
  /-- The system processes are started one after the other. -/
  up : ∀ pid, gpidProcess < pid → pid < gpidUserStart →
    (loc pid ≠ .absent ↔ pid < 2 + (loc gpidProcess).up)
  apps : ∀ pid, gpidUserStart ≤ pid → loc pid ≠ .absent → (loc gpidProcess).up = 3

/-- What the programs know of each other. -/
structure Talk : Prop where
  base : Base loc
  greets : ∀ pid, (loc pid).Greets ↔ (loc gpidProcess).hears = some pid
  owed : Matched (fun pid => (loc pid).owes) fun pid => (loc pid).awaits
  joint : Joint v loc appPid shellWaiting (loc gpidProcess) (loc gpidShell)

/-- The deliveries that occur, with the locations of the sender and of the receiver after
    them. -/
inductive Exchange : Delivery Int μ → Loc μ → Loc μ → Prop where
  /-- an application makes a request and waits for the reply -/
  | request {kind : Kind} {pid : Int} (m : μ) (hpid : loc pid = .app .run)
      (hserver : loc kind.gpid = .server kind .serve) :
      Exchange ⟨pid, kind.gpid, m⟩ (.app (.reply kind.gpid)) (.server kind (.reply pid))
  /-- an application writes to the terminal -/
  | output {pid : Int} (m : μ) (hpid : loc pid = .app .run)
      (hserver : loc gpidTerminal = .server .terminal .serve) :
      Exchange ⟨pid, gpidTerminal, m⟩ (.app .run) (.server .terminal .serve)
  /-- an application gets its reply -/
  | reply {kind : Kind} {pid : Int} (m : μ) (hserver : loc kind.gpid = .server kind (.reply pid))
      (hpid : loc pid = .app (.reply kind.gpid)) :
      Exchange ⟨kind.gpid, pid, m⟩ (.server kind .serve) (.app .run)
  /-- `sys_proc` asks for a block -/
  | read {req : μ} {job : Job} (m : μ) (hproc : loc gpidProcess = .proc (.read req job))
      (hserver : loc gpidFile = .server .file .serve) :
      Exchange ⟨gpidProcess, gpidFile, m⟩ (.proc (.block req job))
        (.server .file (.reply gpidProcess))
  /-- `sys_proc` gets the block -/
  | block {req : μ} {job : Job} (m : μ) (hproc : loc gpidProcess = .proc (.block req job))
      (hserver : loc gpidFile = .server .file (.reply gpidProcess)) :
      Exchange ⟨gpidFile, gpidProcess, m⟩ (.server .file .serve) (.proc (afterBlock v req m job))
  /-- a server has started -/
  | greet {kind : Kind} {stage : Stage} (m : μ) (hserver : loc kind.gpid = .server kind .start)
      (hproc : loc gpidProcess = .proc (.hear stage)) (hstage : stage ≠ .shell) :
      Exchange ⟨kind.gpid, gpidProcess, m⟩ (.server kind .serve) (.proc (.boot stage.next))
  /-- the shell asks for a new process -/
  | spawn (m : μ) (hshell : loc gpidShell = .shell .prompt)
      (hproc : loc gpidProcess = .proc .serve) (htype : v.type m = procSpawn) :
      Exchange ⟨gpidShell, gpidProcess, m⟩ (.shell (.reply m)) (.proc (.read m .lookupBin))
  /-- the shell asks for the end of all applications -/
  | killall (m : μ) (hshell : loc gpidShell = .shell .prompt)
      (hproc : loc gpidProcess = .proc .serve) (htype : v.type m = procKillall) :
      Exchange ⟨gpidShell, gpidProcess, m⟩ (.shell .prompt) (.proc .releaseAll)
  /-- an application ends -/
  | exit {pid : Int} (m : μ) (hpid : loc pid = .app .run ∨ loc pid = .app .exit)
      (hproc : loc gpidProcess = .proc .serve) (htype : v.type m = procExit) :
      Exchange ⟨pid, gpidProcess, m⟩ (.app .ended) (.proc (.release pid))
  /-- the shell gets the reply to a command, and waits for its end -/
  | started {req : μ} (m : μ) (hproc : loc gpidProcess = .proc (.answer req cmdOk))
      (hshell : loc gpidShell = .shell (.reply req)) (hwait : v.background req = false) :
      Exchange ⟨gpidProcess, gpidShell, m⟩ (.proc .serve) (.shell .exit)
  /-- the shell gets the reply to a command, and does not wait -/
  | answer {req : μ} {type : Nat} (m : μ) (hproc : loc gpidProcess = .proc (.answer req type))
      (hshell : loc gpidShell = .shell (.reply req))
      (hfree : ¬ (type = cmdOk ∧ v.background req = false)) :
      Exchange ⟨gpidProcess, gpidShell, m⟩ (.proc .serve) (.shell .prompt)
  /-- the shell hears that a foreground command has ended -/
  | notify (m : μ) (hproc : loc gpidProcess = .proc .notify)
      (hshell : loc gpidShell = .shell .exit) :
      Exchange ⟨gpidProcess, gpidShell, m⟩ (.proc .serve) (.shell .prompt)

end Talk

variable {v : View μ} {loc : Int → Loc μ} {appPid : Int} {shellWaiting : Bool}

/-! ## Who is where -/

section Places

variable {pid : Int}

theorem Base.pid_proc (h : Base loc) {l : ProcLoc μ} (hloc : loc pid = .proc l) :
    pid = gpidProcess := by
  have hplaced := h.placed pid
  rwa [hloc] at hplaced

theorem Base.pid_server (h : Base loc) {kind : Kind} {l : ServerLoc}
    (hloc : loc pid = .server kind l) : pid = kind.gpid := by
  have hplaced := h.placed pid
  rwa [hloc] at hplaced

theorem Base.pid_app (h : Base loc) {l : AppLoc} (hloc : loc pid = .app l) :
    gpidUserStart ≤ pid ∧ pid < 16 := by
  have hplaced := h.placed pid
  rwa [hloc] at hplaced

/-- Under `GPID_PROCESS` runs `sys_proc`. -/
theorem Base.at_process (h : Base loc) : ∃ l, loc gpidProcess = .proc l := by
  have hplaced := h.placed gpidProcess
  cases hloc : loc gpidProcess <;> rw [hloc] at hplaced
  case proc l => exact ⟨l, rfl⟩
  case absent => exact absurd rfl hplaced
  case server kind _ => cases kind <;> cases hplaced
  case shell => cases hplaced
  case app => exact absurd hplaced.1 (by decide)
  case fatal => exact hplaced.elim

/-- Under the pid of a server runs the server. -/
theorem Base.at_server (h : Base loc) (kind : Kind) :
    loc kind.gpid = .absent ∨ ∃ l, loc kind.gpid = .server kind l := by
  have hplaced := h.placed kind.gpid
  cases hloc : loc kind.gpid <;> rw [hloc] at hplaced
  case absent => exact Or.inl rfl
  case server kind' l =>
    cases kind <;> cases kind' <;> first | exact Or.inr ⟨l, rfl⟩ | cases hplaced
  case proc => cases kind <;> cases hplaced
  case shell => cases kind <;> cases hplaced
  case app => cases kind <;> exact absurd hplaced.1 (by decide)
  case fatal => exact hplaced.elim

/-- Under `GPID_SHELL` runs the shell. -/
theorem Base.at_shell (h : Base loc) :
    loc gpidShell = .absent ∨ ∃ l, loc gpidShell = .shell l := by
  have hplaced := h.placed gpidShell
  cases hloc : loc gpidShell <;> rw [hloc] at hplaced
  case absent => exact Or.inl rfl
  case shell l => exact Or.inr ⟨l, rfl⟩
  case proc => cases hplaced
  case server kind _ => cases kind <;> cases hplaced
  case app => exact absurd hplaced.1 (by decide)
  case fatal => exact hplaced.elim

/-- What `sys_proc` receives, and from whom. -/
theorem Base.recv_process (h : Base loc) {source sender : Int}
    (hmakes : Makes v (loc gpidProcess) (.recv source)) (haccepts : accepts source sender) :
    loc gpidProcess = .proc .serve ∨
      (∃ stage, loc gpidProcess = .proc (.hear stage) ∧ sender = stage.gpid) ∨
      ∃ req job, loc gpidProcess = .proc (.block req job) ∧ sender = gpidFile := by
  obtain ⟨l, hloc⟩ := h.at_process
  rw [hloc] at hmakes ⊢
  cases hmakes with
  | serve => exact Or.inl rfl
  | hear stage =>
    have hne : stage.gpid ≠ gpidAll := by cases stage <;> decide
    exact Or.inr (Or.inl ⟨stage, rfl, (haccepts.resolve_left hne).symm⟩)
  | block req job =>
    exact Or.inr (Or.inr ⟨req, job, rfl, (haccepts.resolve_left (by decide)).symm⟩)

/-- A server receives requests only. -/
theorem Base.recv_server (h : Base loc) (kind : Kind) {source : Int}
    (hmakes : Makes v (loc kind.gpid) (.recv source)) : loc kind.gpid = .server kind .serve := by
  rcases h.at_server kind with hloc | ⟨l, hloc⟩
  · rw [hloc] at hmakes
    cases hmakes
  · rw [hloc] at hmakes ⊢
    cases hmakes
    rfl

end Places

theorem Talk.owed_iff (h : Talk v loc appPid shellWaiting) (server client : Int) :
    (loc server).owes = some client ↔ (loc client).awaits = some server := h.owed server client

/-! ## Deliveries -/

/-- A request wants a reply or not, and both sides agree about it. -/
theorem Asks.cases {kind : Kind} {m : μ} (h : Asks v kind m) (hlen : FitsBuffer v kind m)
    (pid : Int) :
    (sent v (.app .run) kind.gpid m = .app (.reply kind.gpid) ∧
      received v (.server kind .serve) pid m = .server kind (.reply pid)) ∨
    (kind = .terminal ∧ sent v (.app .run) kind.gpid m = .app .run ∧
      received v (.server kind .serve) pid m = .server kind .serve) := by
  cases kind with
  | terminal =>
    have hlen : v.len m ≤ termBufSize := hlen
    rcases h with hinput | houtput
    · left
      simp [sent, received, handleServer, WantsReply, hinput, Nat.not_lt.mpr hlen, Kind.gpid,
        gpidTerminal, gpidProcess]
    · right
      simp [sent, received, handleServer, WantsReply, houtput, Nat.not_lt.mpr hlen, Kind.gpid,
        gpidTerminal, gpidProcess, gpidFile, termOutput, Grass.termInput]
  | file =>
    have htype : v.type m = fileRead := h
    left
    simp [sent, received, handleServer, WantsReply, htype, Kind.gpid, gpidFile, gpidProcess]

/-- Two calls that fit are one of the exchanges. -/
theorem Talk.exchange (h : Talk v loc appPid shellWaiting) {w : Waiting Int Int μ}
    (hcoherent : Coherent (program v) loc w) {d : Delivery Int μ} (hfits : Fits accepts w d) :
    Exchange v loc d (sent v (loc d.sender) d.receiver d.content)
      (received v (loc d.receiver) d.sender d.content) := by
  obtain ⟨hsend, source, hrecv, haccepts⟩ := hcoherent.fits hfits
  obtain ⟨sender, receiver, m⟩ := d
  dsimp only at hsend hrecv haccepts ⊢
  change Makes v (loc sender) (.send receiver m) at hsend
  change Makes v (loc receiver) (.recv source) at hrecv
  have hplaced := h.base.placed sender
  have hjoint := h.joint
  generalize hloc : loc sender = l at hsend hplaced ⊢
  cases hsend with
  | read req job hm =>
    obtain rfl : sender = gpidProcess := hplaced
    have hserver := h.base.recv_server .file hrecv
    have htype : v.type m = fileRead := hm
    have hreply : received v (loc gpidFile) gpidProcess m =
        .server .file (.reply gpidProcess) := by
      rw [show loc gpidFile = _ from hserver, received, handleServer, if_pos htype]
    rw [hreply]
    exact .read m hloc hserver
  | @answer req type _ hm =>
    obtain rfl : sender = gpidProcess := hplaced
    rw [hloc] at hjoint
    generalize hshell : loc gpidShell = l at hjoint ⊢
    cases hjoint with
    | answer =>
      simp only [received, hm]
      split_ifs with herror hwait
      · exact .answer m hloc hshell fun hok => herror hok.1
      · obtain rfl := not_not.mp herror
        exact .started m hloc hshell hwait
      · exact .answer m hloc hshell fun hok => hwait hok.2
  | notify =>
    obtain rfl : sender = gpidProcess := hplaced
    rw [hloc] at hjoint
    generalize hshell : loc gpidShell = l at hjoint ⊢
    cases hjoint with
    | notify => exact .notify m hloc hshell
  | greet kind =>
    obtain rfl : sender = kind.gpid := hplaced
    have hhears : (loc gpidProcess).hears = some kind.gpid := by
      rw [← h.greets, hloc]
      trivial
    generalize hproc : loc gpidProcess = l at hhears hjoint ⊢
    unfold Loc.hears at hhears
    split at hhears
    · generalize loc gpidShell = l at hjoint
      cases hjoint with
      | hear hstage => exact .greet m hloc hproc hstage
    · cases hhears
  | reply kind client =>
    obtain rfl : sender = kind.gpid := hplaced
    have hawaits : (loc receiver).awaits = some kind.gpid := by
      rw [← h.owed_iff, hloc]
      rfl
    generalize hclient : loc receiver = l at hawaits ⊢
    unfold Loc.awaits at hawaits
    split at hawaits
    · -- the client is `sys_proc`
      obtain rfl := h.base.pid_proc hclient
      cases kind with
      | terminal => exact absurd hawaits (by decide)
      | file => exact .block m hclient hloc
    · obtain rfl := Option.some.inj hawaits
      exact .reply m hloc hclient
    · cases hawaits
  | command hm =>
    obtain rfl : sender = gpidShell := hplaced
    rcases h.base.recv_process hrecv haccepts with hproc | ⟨stage, hproc, _⟩ | ⟨_, _, _, heq⟩
    · rw [hproc]
      rcases hm with hspawn | hkill
      · simp only [sent, received, handleProc, if_pos hspawn]
        exact .spawn m hloc hproc hspawn
      · simp only [sent, received, handleProc, hkill, procSpawn, procExit, procKillall]
        exact .killall m hloc hproc hkill
    · -- `sys_proc` does not wait for a notification of the shell
      rw [hproc, hloc] at hjoint
      cases hjoint
    · exact absurd heq (by decide)
  | @request kind m hm hlen =>
    have hserver := h.base.recv_server kind hrecv
    rw [hserver]
    rcases hm.cases hlen sender with ⟨hs, hr⟩ | ⟨rfl, hs, hr⟩
    · rw [hs, hr]
      exact .request m hloc hserver
    · rw [hs, hr]
      exact .output m hloc hserver
  | exit hm =>
    rcases h.base.recv_process hrecv haccepts with hproc | ⟨stage, _, rfl⟩ | ⟨_, _, _, rfl⟩
    · simp only [hproc, sent, received, handleProc, hm, procSpawn, procExit, if_true]
      exact .exit m (Or.inl hloc) hproc hm
    · cases stage <;> exact absurd hplaced.1 (by decide)
    · exact absurd hplaced.1 (by decide)
  | killed hm =>
    rcases h.base.recv_process hrecv haccepts with hproc | ⟨stage, _, rfl⟩ | ⟨_, _, _, rfl⟩
    · simp only [hproc, sent, received, handleProc, hm, procSpawn, procExit]
      exact .exit m (Or.inr hloc) hproc hm
    · cases stage <;> exact absurd hplaced.1 (by decide)
    · exact absurd hplaced.1 (by decide)

/-! ## What a delivery keeps -/

section Deliver

variable {pid : Int} {l : Loc μ}

/-- A change of location within one program. -/
structure Stays (l l' : Loc μ) : Prop where
  placed : ∀ pid, Placed pid l → Placed pid l'
  before : l ≠ .absent
  after : l' ≠ .absent
  up : l'.up = l.up

theorem absent_update_iff (h : Stays (loc pid) l) (q : Int) :
    Function.update loc pid l q = .absent ↔ loc q = .absent := by
  rw [Function.update_apply]
  split_ifs with hq
  · rw [hq]
    exact iff_of_false h.after h.before
  · exact Iff.rfl

theorem up_update (h : Stays (loc pid) l) (q : Int) :
    (Function.update loc pid l q).up = (loc q).up := by
  rw [Function.update_apply]
  split_ifs with hq
  · rw [hq, h.up]
  · rfl

theorem Base.update (h : Base loc) (hstays : Stays (loc pid) l) :
    Base (Function.update loc pid l) where
  placed q := by
    rw [Function.update_apply]
    split_ifs with hq
    · rw [hq]
      exact hstays.placed _ (h.placed pid)
    · exact h.placed q
  up q hlow hhigh := by
    rw [Ne, absent_update_iff hstays, up_update hstays]
    exact h.up q hlow hhigh
  apps q hq hpresent := by
    rw [Ne, absent_update_iff hstays] at hpresent
    rw [up_update hstays]
    exact h.apps q hq hpresent

theorem stays_proc {l l' : ProcLoc μ} (hup : (Loc.proc l').up = (Loc.proc l).up) :
    Stays (.proc l) (.proc l') := ⟨fun _ h => h, nofun, nofun, hup⟩

theorem stays_server {kind : Kind} {l l' : ServerLoc} :
    Stays (.server kind l : Loc μ) (.server kind l') := ⟨fun _ h => h, nofun, nofun, rfl⟩

theorem stays_shell {l l' : ShellLoc μ} : Stays (.shell l) (.shell l') :=
  ⟨fun _ h => h, nofun, nofun, rfl⟩

theorem stays_app {l l' : AppLoc} : Stays (.app l : Loc μ) (.app l') :=
  ⟨fun _ h => h, nofun, nofun, rfl⟩

variable {d : Delivery Int μ} {ls lr : Loc μ}

theorem Exchange.stays (h : Exchange v loc d ls lr) :
    Stays (loc d.sender) ls ∧ Stays (loc d.receiver) lr := by
  cases h with
  | request _ hpid hserver => rw [hpid, hserver]; exact ⟨stays_app, stays_server⟩
  | output _ hpid hserver => rw [hpid, hserver]; exact ⟨stays_app, stays_server⟩
  | reply _ hserver hpid => rw [hserver, hpid]; exact ⟨stays_server, stays_app⟩
  | read _ hproc hserver => rw [hproc, hserver]; exact ⟨stays_proc rfl, stays_server⟩
  | @block _ job _ hproc hserver =>
    rw [hserver, hproc]
    exact ⟨stays_server, stays_proc (by cases job <;> rfl)⟩
  | @greet _ stage _ hserver hproc hstage =>
    rw [hserver, hproc]
    refine ⟨stays_server, stays_proc ?_⟩
    cases stage
    · rfl
    · rfl
    · exact absurd rfl hstage
  | spawn _ hshell hproc => rw [hshell, hproc]; exact ⟨stays_shell, stays_proc rfl⟩
  | killall _ hshell hproc => rw [hshell, hproc]; exact ⟨stays_shell, stays_proc rfl⟩
  | exit _ hpid hproc =>
    rw [hproc]
    rcases hpid with hpid | hpid <;> rw [hpid] <;> exact ⟨stays_app, stays_proc rfl⟩
  | started _ hproc hshell => rw [hproc, hshell]; exact ⟨stays_proc rfl, stays_shell⟩
  | answer _ hproc hshell => rw [hproc, hshell]; exact ⟨stays_proc rfl, stays_shell⟩
  | notify _ hproc hshell => rw [hproc, hshell]; exact ⟨stays_proc rfl, stays_shell⟩

/-- The locations after a delivery. -/
abbrev delivered (loc : Int → Loc μ) (d : Delivery Int μ) (ls lr : Loc μ) : Int → Loc μ :=
  Function.update (Function.update loc d.sender ls) d.receiver lr

theorem absent_delivered_iff (h : Exchange v loc d ls lr) (hne : d.sender ≠ d.receiver) (q : Int) :
    delivered loc d ls lr q = .absent ↔ loc q = .absent := by
  have hreceiver : Stays (Function.update loc d.sender ls d.receiver) lr := by
    rw [Function.update_of_ne hne.symm]
    exact h.stays.2
  rw [absent_update_iff hreceiver, absent_update_iff h.stays.1]

theorem Base.deliver (h : Base loc) (hx : Exchange v loc d ls lr) (hne : d.sender ≠ d.receiver) :
    Base (delivered loc d ls lr) := by
  have hreceiver : Stays (Function.update loc d.sender ls d.receiver) lr := by
    rw [Function.update_of_ne hne.symm]
    exact hx.stays.2
  exact (h.update hx.stays.1).update hreceiver

/-! ### Debts -/

/-- One value of each location, after a delivery that changes it for the sender only. -/
theorem comp_delivered_sender {α : Type} (f : Loc μ → α) (hne : d.sender ≠ d.receiver)
    (hr : f lr = f (loc d.receiver)) :
    (fun q => f (delivered loc d ls lr q)) =
      Function.update (fun q => f (loc q)) d.sender (f ls) := by
  funext q
  by_cases hq : q = d.receiver
  · rw [hq, delivered, Function.update_self, Function.update_of_ne hne.symm, hr]
  · rw [delivered, Function.update_of_ne hq, Function.update_apply, Function.update_apply]
    split_ifs <;> rfl

/-- The same for the receiver. -/
theorem comp_delivered_receiver {α : Type} (f : Loc μ → α) (hs : f ls = f (loc d.sender)) :
    (fun q => f (delivered loc d ls lr q)) =
      Function.update (fun q => f (loc q)) d.receiver (f lr) := by
  funext q
  by_cases hq : q = d.receiver
  · rw [hq, delivered, Function.update_self, Function.update_self]
  · rw [delivered, Function.update_of_ne hq, Function.update_of_ne hq, Function.update_apply]
    split_ifs with hq'
    · rw [hs, hq']
    · rfl

/-- The same for neither. -/
theorem comp_delivered {α : Type} (f : Loc μ → α) (hs : f ls = f (loc d.sender))
    (hr : f lr = f (loc d.receiver)) :
    (fun q => f (delivered loc d ls lr q)) = fun q => f (loc q) := by
  rw [comp_delivered_receiver f hs, hr]
  exact Function.update_eq_self _ _

theorem awaits_afterBlock (req m : μ) (job : Job) :
    (Loc.proc (afterBlock v req m job)).awaits = none := by cases job <;> rfl

theorem Talk.owed_deliver (h : Talk v loc appPid shellWaiting) (hx : Exchange v loc d ls lr)
    (hne : d.sender ≠ d.receiver) :
    Matched (fun q => (delivered loc d ls lr q).owes) fun q => (delivered loc d ls lr q).awaits := by
  have howed := h.owed
  -- the exchanges without a request or a reply of a server
  have hsilent : ls.owes = (loc d.sender).owes → lr.owes = (loc d.receiver).owes →
      ls.awaits = (loc d.sender).awaits → lr.awaits = (loc d.receiver).awaits →
      Matched (fun q => (delivered loc d ls lr q).owes)
        fun q => (delivered loc d ls lr q).awaits := by
    intro hso hro hsa hra
    rw [comp_delivered Loc.owes hso hro, comp_delivered Loc.awaits hsa hra]
    exact howed
  cases hx with
  | request _ hpid hserver =>
    rw [comp_delivered_receiver Loc.owes (by rw [hpid]; rfl),
      comp_delivered_sender Loc.awaits hne (by rw [hserver]; rfl)]
    exact howed.borrow (by rw [hserver]; rfl) (by rw [hpid]; rfl)
  | read _ hproc hserver =>
    rw [comp_delivered_receiver Loc.owes (by rw [hproc]; rfl),
      comp_delivered_sender Loc.awaits hne (by rw [hserver]; rfl)]
    exact howed.borrow (by rw [hserver]; rfl) (by rw [hproc]; rfl)
  | reply _ hserver hpid =>
    rw [comp_delivered_sender Loc.owes hne (by rw [hpid]; rfl),
      comp_delivered_receiver Loc.awaits (by rw [hserver]; rfl)]
    exact howed.repay (by rw [hserver]; rfl)
  | @block _ job _ hproc hserver =>
    rw [comp_delivered_sender Loc.owes hne (by rw [hproc]; cases job <;> rfl),
      comp_delivered_receiver Loc.awaits (by rw [hserver]; rfl)]
    rw [awaits_afterBlock]
    exact howed.repay (by rw [hserver]; rfl)
  | output _ hpid hserver => apply hsilent <;> simp only [hpid, hserver]
  | greet _ hserver hproc => apply hsilent <;> simp only [hserver, hproc] <;> rfl
  | spawn _ hshell hproc => apply hsilent <;> simp only [hshell, hproc] <;> rfl
  | killall _ hshell hproc => apply hsilent <;> simp only [hshell, hproc] <;> rfl
  | exit _ hpid hproc =>
    rcases hpid with hpid | hpid <;> apply hsilent <;> simp only [hpid, hproc] <;> rfl
  | started _ hproc hshell => apply hsilent <;> simp only [hproc, hshell] <;> rfl
  | answer _ hproc hshell => apply hsilent <;> simp only [hproc, hshell] <;> rfl
  | notify _ hproc hshell => apply hsilent <;> simp only [hproc, hshell] <;> rfl

/-! ### Notifications -/

theorem Talk.greets_deliver (h : Talk v loc appPid shellWaiting) (hx : Exchange v loc d ls lr)
    (q : Int) : (delivered loc d ls lr q).Greets ↔
      (delivered loc d ls lr gpidProcess).hears = some q := by
  have hgreets := h.greets q
  -- all but one exchange have nothing to do with notifications
  have hsilent : (ls.Greets = (loc d.sender).Greets) → (lr.Greets = (loc d.receiver).Greets) →
      ls.hears = (loc d.sender).hears → lr.hears = (loc d.receiver).hears →
      ((delivered loc d ls lr q).Greets ↔
        (delivered loc d ls lr gpidProcess).hears = some q) := by
    intro hsg hrg hsh hrh
    have hg := congrFun (comp_delivered Loc.Greets hsg hrg) q
    have hh := congrFun (comp_delivered Loc.hears hsh hrh) gpidProcess
    rw [hg, hh]
    exact hgreets
  cases hx with
  | @greet kind stage m hserver hproc hstage =>
    rw [hproc] at hgreets
    have hheard : stage.gpid = kind.gpid := by
      have hkind := (h.greets kind.gpid).mp (by rw [hserver]; trivial)
      rw [hproc] at hkind
      exact Option.some.inj hkind
    -- the one that was heard was the only one
    rw [delivered, Function.update_self]
    refine iff_of_false (fun hq => ?_) nofun
    rw [Function.update_apply, Function.update_apply] at hq
    split_ifs at hq with hq₁ hq₂
    · exact hq
    · exact hq
    · exact hq₂ ((Option.some.inj (hgreets.mp hq)).symm.trans hheard)
  | request _ hpid hserver => apply hsilent <;> simp only [hpid, hserver] <;> rfl
  | output _ hpid hserver => apply hsilent <;> simp only [hpid, hserver]
  | reply _ hserver hpid => apply hsilent <;> simp only [hserver, hpid] <;> rfl
  | read _ hproc hserver => apply hsilent <;> simp only [hproc, hserver] <;> rfl
  | @block _ job _ hproc hserver =>
    apply hsilent <;> simp only [hproc, hserver] <;> cases job <;> rfl
  | spawn _ hshell hproc => apply hsilent <;> simp only [hshell, hproc] <;> rfl
  | killall _ hshell hproc => apply hsilent <;> simp only [hshell, hproc] <;> rfl
  | exit _ hpid hproc =>
    rcases hpid with hpid | hpid <;> apply hsilent <;> simp only [hpid, hproc] <;> rfl
  | started _ hproc hshell => apply hsilent <;> simp only [hproc, hshell] <;> rfl
  | answer _ hproc hshell => apply hsilent <;> simp only [hproc, hshell] <;> rfl
  | notify _ hproc hshell => apply hsilent <;> simp only [hproc, hshell] <;> rfl

/-! ### The shell and `sys_proc` -/

theorem foreground_congr {loc' : Int → Loc μ} (appPid : Int) (shellWaiting : Bool)
    (h : ∀ q, loc' q = .absent ↔ loc q = .absent) :
    Foreground loc' appPid shellWaiting ↔ Foreground loc appPid shellWaiting :=
  and_congr_right fun _ => and_congr_right fun _ => not_congr (h appPid)

theorem JobOk.congr {loc' : Int → Loc μ} (h : ∀ q, loc' q = .absent ↔ loc q = .absent) {job : Job}
    (hjob : JobOk loc appPid job) : JobOk loc' appPid job := by
  cases job with
  | lookupBin => trivial
  | lookupApp => trivial
  | load pid => exact ⟨hjob.1, hjob.2.1, hjob.2.2.1, (h pid).mpr hjob.2.2.2⟩

/-- The conversation goes on while others do something else. -/
theorem Joint.congr {loc' : Int → Loc μ} (h : ∀ q, loc' q = .absent ↔ loc q = .absent)
    (hleaving : ∀ q, Leaving loc q → Leaving loc' q) {l l' : Loc μ}
    (hjoint : Joint v loc appPid shellWaiting l l') : Joint v loc' appPid shellWaiting l l' := by
  have hfg := foreground_congr appPid shellWaiting h
  cases hjoint with
  | boot stage => exact .boot stage
  | bootLoad stage => exact .bootLoad stage
  | hear hstage => exact .hear hstage
  | prompt hfree => exact .prompt (mt hfg.mp hfree)
  | foreground hrun => exact .foreground (hfg.mpr hrun)
  | releasePrompt hpid hfree => exact .releasePrompt (hleaving _ hpid) (mt hfg.mp hfree)
  | release hpid hrun => exact .release (hleaving _ hpid) (hfg.mpr hrun)
  | releaseAll hfree => exact .releaseAll (mt hfg.mp hfree)
  | notify hgone => exact .notify ((h _).mpr hgone)
  | read hjob => exact .read (hjob.congr h)
  | block hjob => exact .block (hjob.congr h)
  | looked req found => exact .looked req found
  | answer hrun => exact .answer (hrun.trans hfg.symm)

/-- An exchange between an application and a server. -/
theorem Talk.joint_of_app (h : Talk v loc appPid shellWaiting) (hx : Exchange v loc d ls lr)
    (hne : d.sender ≠ d.receiver) (hs : d.sender ≠ gpidProcess ∧ d.sender ≠ gpidShell)
    (hr : d.receiver ≠ gpidProcess ∧ d.receiver ≠ gpidShell)
    (hleaving : ¬ Leaving loc d.sender ∧ ¬ Leaving loc d.receiver) :
    Joint v (delivered loc d ls lr) appPid shellWaiting (delivered loc d ls lr gpidProcess)
      (delivered loc d ls lr gpidShell) := by
  have hproc : delivered loc d ls lr gpidProcess = loc gpidProcess := by
    rw [delivered, Function.update_of_ne hr.1.symm, Function.update_of_ne hs.1.symm]
  have hshell : delivered loc d ls lr gpidShell = loc gpidShell := by
    rw [delivered, Function.update_of_ne hr.2.symm, Function.update_of_ne hs.2.symm]
  rw [hproc, hshell]
  refine h.joint.congr (absent_delivered_iff hx hne) fun q hq => ?_
  have hqs : q ≠ d.sender := fun heq => hleaving.1 (heq ▸ hq)
  have hqr : q ≠ d.receiver := fun heq => hleaving.2 (heq ▸ hq)
  rwa [Leaving, delivered, Function.update_of_ne hqr, Function.update_of_ne hqs]

theorem shell_ne_process : gpidShell ≠ gpidProcess := by decide

theorem Kind.gpid_ne (kind : Kind) : kind.gpid ≠ gpidProcess ∧ kind.gpid ≠ gpidShell := by
  cases kind <;> decide

theorem Base.app_ne (h : Base loc) {l : AppLoc} (hloc : loc pid = .app l) :
    pid ≠ gpidProcess ∧ pid ≠ gpidShell := by
  have huser := (h.pid_app hloc).1
  constructor <;> rintro rfl <;> exact absurd huser (by decide)

theorem Talk.joint_at (h : Talk v loc appPid shellWaiting) {l : Loc μ}
    (hproc : loc gpidProcess = l) : Joint v loc appPid shellWaiting l (loc gpidShell) :=
  hproc ▸ h.joint

theorem Talk.joint_deliver (h : Talk v loc appPid shellWaiting) (hx : Exchange v loc d ls lr)
    (hne : d.sender ≠ d.receiver) :
    Joint v (delivered loc d ls lr) appPid shellWaiting (delivered loc d ls lr gpidProcess)
      (delivered loc d ls lr gpidShell) := by
  have habsent := absent_delivered_iff hx hne
  have hfg := foreground_congr appPid shellWaiting habsent
  -- where the two are afterwards if they talk to each other or to somebody else
  have htalk : ∀ {l l'}, delivered loc d ls lr gpidProcess = l →
      delivered loc d ls lr gpidShell = l' →
      Joint v (delivered loc d ls lr) appPid shellWaiting l l' →
      Joint v (delivered loc d ls lr) appPid shellWaiting (delivered loc d ls lr gpidProcess)
        (delivered loc d ls lr gpidShell) := by
    rintro _ _ rfl rfl hjoint
    exact hjoint
  cases hx with
  | @request kind pid m hpid hserver =>
    exact h.joint_of_app (.request m hpid hserver) hne (h.base.app_ne hpid) kind.gpid_ne
      ⟨by simp [Leaving, hpid], by simp [Leaving, hserver]⟩
  | @output pid m hpid hserver =>
    exact h.joint_of_app (.output m hpid hserver) hne (h.base.app_ne hpid) (Kind.gpid_ne .terminal)
      ⟨by simp [Leaving, hpid], by simp [Leaving, hserver]⟩
  | @reply kind pid m hserver hpid =>
    exact h.joint_of_app (.reply m hserver hpid) hne kind.gpid_ne (h.base.app_ne hpid)
      ⟨by simp [Leaving, hserver], by simp [Leaving, hpid]⟩
  | @read req job m hproc hserver =>
    have hjoint := h.joint_at hproc
    generalize hshell : loc gpidShell = l at hjoint
    cases hjoint with
    | read hjob => exact htalk rfl hshell (.block (hjob.congr habsent))
  | @block req job m hproc hserver =>
    have hjoint := h.joint_at hproc
    generalize hshell : loc gpidShell = l at hjoint
    cases hjoint with
    | block hjob =>
      refine htalk rfl hshell ?_
      cases job with
      | lookupBin => exact .read trivial
      | lookupApp => exact .looked req _
      | load pid => exact .read (hjob.congr habsent)
  | @greet kind stage m hserver hproc hstage =>
    have hjoint := h.joint_at hproc
    generalize hshell : loc gpidShell = l at hjoint
    cases hjoint with
    | hear =>
      refine htalk rfl ?_ (.boot stage.next)
      rw [delivered, Function.update_of_ne shell_ne_process,
        Function.update_of_ne kind.gpid_ne.2.symm, hshell]
  | spawn m hshell hproc => exact htalk rfl rfl (.read trivial)
  | killall m hshell hproc =>
    have hjoint := h.joint_at hproc
    rw [hshell] at hjoint
    cases hjoint with
    | prompt hfree => exact htalk rfl rfl (.releaseAll (mt hfg.mp hfree))
  | @exit pid m hpid hproc =>
    have huser : pid ≠ gpidProcess ∧ pid ≠ gpidShell :=
      hpid.elim h.base.app_ne h.base.app_ne
    have hended : Leaving (delivered loc ⟨pid, gpidProcess, m⟩ (.app .ended)
        (.proc (.release pid))) pid := by
      left
      rw [delivered, Function.update_of_ne huser.1, Function.update_self]
    have hshell : delivered loc ⟨pid, gpidProcess, m⟩ (.app .ended) (.proc (.release pid))
        gpidShell = loc gpidShell := by
      rw [delivered, Function.update_of_ne shell_ne_process, Function.update_of_ne huser.2.symm]
    have hjoint := h.joint_at hproc
    generalize hloc : loc gpidShell = l at hjoint
    cases hjoint with
    | prompt hfree =>
      exact htalk rfl (hshell.trans hloc) (.releasePrompt hended (mt hfg.mp hfree))
    | foreground hrun => exact htalk rfl (hshell.trans hloc) (.release hended (hfg.mpr hrun))
  | started m hproc hshell hwait =>
    have hjoint := h.joint_at hproc
    rw [hshell] at hjoint
    cases hjoint with
    | answer hrun => exact htalk rfl rfl (.foreground (hfg.mpr (hrun.mp ⟨rfl, hwait⟩)))
  | answer m hproc hshell hfree =>
    have hjoint := h.joint_at hproc
    rw [hshell] at hjoint
    cases hjoint with
    | answer hrun => exact htalk rfl rfl (.prompt fun hfore => hfree (hrun.mpr (hfg.mp hfore)))
  | notify m hproc hshell =>
    have hjoint := h.joint_at hproc
    rw [hshell] at hjoint
    cases hjoint with
    | notify hgone => exact htalk rfl rfl (.prompt fun hfore => (hfg.mp hfore).2.2 hgone)

/-- Every delivery keeps what the programs know of each other. -/
theorem Talk.deliver (h : Talk v loc appPid shellWaiting) (hx : Exchange v loc d ls lr)
    (hne : d.sender ≠ d.receiver) : Talk v (delivered loc d ls lr) appPid shellWaiting :=
  ⟨h.base.deliver hx hne, h.greets_deliver hx, h.owed_deliver hx hne, h.joint_deliver hx hne⟩

/-- So does every turn of the machine. -/
theorem Talk.turn (h : Talk v loc appPid shellWaiting) {w w' : Waiting Int Int μ}
    {t : Turn Int Int μ} (hcoherent : Coherent (program v) loc w)
    (hcall : ∀ c, t.call = some c → Makes v (loc t.caller) c) (hstep : Rendezvous.Step accepts w t w') :
    Talk v (advance (program v) loc t.delivery) appPid shellWaiting := by
  cases hdelivery : t.delivery with
  | none => exact h
  | some d =>
    have hfits := hstep.fits hdelivery
    exact h.deliver (h.exchange (hcoherent.issue hcall) hfits) hfits.ne

/-! ### What a delivery leaves alone -/

theorem Exchange.loads (hx : Exchange v loc d ls lr) :
    (delivered loc d ls lr gpidProcess).loads = (loc gpidProcess).loads := by
  have hsilent : ls.loads = (loc d.sender).loads → lr.loads = (loc d.receiver).loads →
      (delivered loc d ls lr gpidProcess).loads = (loc gpidProcess).loads := fun hs hr =>
    congrFun (comp_delivered Loc.loads hs hr) gpidProcess
  cases hx with
  | request _ hpid hserver => apply hsilent <;> simp only [hpid, hserver] <;> rfl
  | output _ hpid hserver => apply hsilent <;> simp only [hpid, hserver]
  | reply _ hserver hpid => apply hsilent <;> simp only [hserver, hpid] <;> rfl
  | @read _ job _ hproc hserver =>
    apply hsilent <;> simp only [hproc, hserver] <;> cases job <;> rfl
  | @block _ job _ hproc hserver =>
    apply hsilent <;> simp only [hproc, hserver] <;> cases job <;> rfl
  | greet _ hserver hproc => apply hsilent <;> simp only [hserver, hproc] <;> rfl
  | spawn _ hshell hproc => apply hsilent <;> simp only [hshell, hproc] <;> rfl
  | killall _ hshell hproc => exact hsilent (by rw [hshell]) (by rw [hproc]; rfl)
  | exit _ hpid hproc =>
    rcases hpid with hpid | hpid <;> apply hsilent <;> simp only [hpid, hproc] <;> rfl
  | started _ hproc hshell => apply hsilent <;> simp only [hproc, hshell] <;> rfl
  | answer _ hproc hshell => apply hsilent <;> simp only [hproc, hshell] <;> rfl
  | notify _ hproc hshell => apply hsilent <;> simp only [hproc, hshell] <;> rfl

/-- No process comes or goes in a turn. -/
theorem Talk.turn_frame (h : Talk v loc appPid shellWaiting) {w w' : Waiting Int Int μ}
    {t : Turn Int Int μ} (hcoherent : Coherent (program v) loc w)
    (hcall : ∀ c, t.call = some c → Makes v (loc t.caller) c)
    (hstep : Rendezvous.Step accepts w t w') :
    (∀ q, advance (program v) loc t.delivery q = .absent ↔ loc q = .absent) ∧
      (advance (program v) loc t.delivery gpidProcess).loads = (loc gpidProcess).loads := by
  cases hdelivery : t.delivery with
  | none => exact ⟨fun _ => Iff.rfl, rfl⟩
  | some d =>
    have hfits := hstep.fits hdelivery
    have hx := h.exchange (hcoherent.issue hcall) hfits
    exact ⟨absent_delivered_iff hx hfits.ne, hx.loads⟩

end Deliver

end Egos.Whole
