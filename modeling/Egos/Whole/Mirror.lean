import Egos.Apps.Foreground
import Egos.Whole.Talk

/-!
# The Whole System: Its Programs in the Smaller System

`Egos.Apps.System` has the shell, `sys_proc` and the ends of applications, with atomic requests
and without file server, terminal and scheduling. `Mirrors` is its state for given locations and
unfinished calls of the whole system:

- The shell and the applications are in a `sys_send` from when the kernel has the call.
- `app_spawn` happens at `proc_alloc`; what `sys_proc` reads before and after is not seen.
- A process whose `PROC_EXIT` has been received has ended.

A call (`Mirrors.issue`) and a delivery (`Mirrors.deliver`) are at most one step of the smaller
system each.
-/

namespace Egos.Whole

open Egos.Lib Egos.Lib.Rendezvous Egos.Grass Egos.Apps

variable {μ : Type}

/-! ## The smaller system -/

/-- How the messages hold requests. The shell sends those commands that `parse_request` has
    accepted and that have a token. -/
structure Decodes (v : View μ) (decode : μ → ProcRequest) : Prop where
  type : ∀ m, (decode m).type = v.type m
  background : ∀ m, (decode m).lastArg = ampersand ↔ v.background m = true
  argc : ∀ m, v.type m = procSpawn → 1 ≤ (decode m).argc ∧ (decode m).argc ≤ cmdNargs

/-- The process whose `PROC_EXIT` is handled. -/
def Loc.releases : Loc μ → Option Int
  | .proc (.release sender) => some sender
  | _ => none

section Mirrors

variable (v : View μ) (decode : μ → ProcRequest)

/-- The shell at this location, with this unfinished call. -/
def shellPc : Loc μ → Option (Request Int Int μ) → ShellPc
  -- at the prompt the shell has nothing to send yet, or it is in the first `sys_send`
  | .shell .prompt, some (.send _ m) =>
      if v.type m = procSpawn then .requesting (decode m) else .killing (decode m)
  | .shell (.reply req), _ => .awaitingReply (decode req)
  | .shell .exit, _ => .awaitingExit
  | _, _ => .prompt

/-- `sys_proc` at this location. -/
def serverPc : Loc μ → ServerPc
  | .proc (.release sender) => .handling sender
  -- after `proc_alloc` the request is done, but for the reply
  | .proc (.read _ (.load _)) | .proc (.block _ (.load _)) => .sending
  | .proc (.read _ _) | .proc (.block _ _) | .proc (.looked _ _) => .handling gpidShell
  | .proc .releaseAll => .handling gpidShell
  | .proc (.answer _ _) | .proc .notify => .sending
  | _ => .receiving

/-- What is in `buf` at this location of `sys_proc`. -/
def BufOk : Loc μ → ProcRequest → Prop
  | .proc (.release _), buf => buf.type = procExit
  | .proc .releaseAll, buf => buf.type = procKillall
  | .proc (.read _ (.load _)), buf | .proc (.block _ (.load _)), buf => buf.type = cmdOk
  | .proc (.read req _), buf | .proc (.block req _), buf | .proc (.looked req _), buf =>
      buf = decode req ∧ buf.type = procSpawn
  | .proc (.answer _ type), buf => buf.type = type
  | _, _ => True

/-- `shell_waiting` at this location of `sys_proc`; it is set after `elf_load`. -/
def waits : Loc μ → Bool → Bool
  | .proc (.read req (.load _)), _ | .proc (.block req (.load _)), _ => !v.background req
  | _, shellWaiting => shellWaiting

/-- A process at this location, with this unfinished call, as an application. -/
def ownPc : Loc μ → Option (Request Int Int μ) → AppPc
  | .app _, some (.send receiver m) =>
      if receiver = gpidProcess then .exiting (decode m) else .running
  | .app _, _ => .running
  | _, _ => .stopped

/-- The application `pid`, with `sys_proc` at `proc`. A process that is being loaded has started,
    and one whose `PROC_EXIT` has been received has ended. -/
def appPc (proc l : Loc μ) (call : Option (Request Int Int μ)) (pid : Int) : AppPc :=
  if proc.releases = some pid then .stopped
  else if proc.loads = some pid then .running
  else ownPc decode l call

/-- The programs of the smaller system. -/
structure Mirrors (loc : Int → Loc μ) (waiting : Waiting Int Int μ) (appPid : Int)
    (shellWaiting : Bool) (s : System) : Prop where
  shell : s.shell = shellPc v decode (loc gpidShell) (waiting gpidShell)
  server : s.server = serverPc (loc gpidProcess)
  buf : BufOk decode (loc gpidProcess) s.buf
  appPid : s.appPid = appPid
  shellWaiting : s.shellWaiting = waits v (loc gpidProcess) shellWaiting
  app : ∀ pid, s.app pid = appPc decode (loc gpidProcess) (loc pid) (waiting pid) pid

/-- `sys_proc` goes on, and the smaller system does not see it. -/
structure SameServer (l l' : Loc μ) : Prop where
  pc : serverPc l' = serverPc l
  buf : ∀ buf, BufOk decode l buf → BufOk decode l' buf
  waits : ∀ shellWaiting, waits v l' shellWaiting = waits v l shellWaiting
  releases : l'.releases = l.releases
  loads : l'.loads = l.loads

end Mirrors

variable {v : View μ} {decode : μ → ProcRequest} {loc loc' : Int → Loc μ}
  {waiting waiting' : Waiting Int Int μ} {appPid : Int} {shellWaiting : Bool} {s s' : System}

theorem SameServer.refl (l : Loc μ) : SameServer v decode l l :=
  ⟨rfl, fun _ h => h, fun _ => rfl, rfl, rfl⟩

/-- `sys_proc` asks for a block. -/
theorem SameServer.read (req : μ) (job : Job) :
    SameServer v decode (.proc (.read req job)) (.proc (.block req job)) := by
  cases job <;> exact ⟨rfl, fun _ h => h, fun _ => rfl, rfl, rfl⟩

/-- `sys_proc` gets a block. -/
theorem SameServer.block (req m : μ) (job : Job) :
    SameServer v decode (.proc (.block req job)) (.proc (afterBlock v req m job)) := by
  cases job <;> exact ⟨rfl, fun _ h => h, fun _ => rfl, rfl, rfl⟩

section Mirrors

variable {l : Loc μ}

theorem Mirrors.shell_at (h : Mirrors v decode loc waiting appPid shellWaiting s)
    (hloc : loc gpidShell = l) {call : Option (Request Int Int μ)}
    (hcall : waiting gpidShell = call) : s.shell = shellPc v decode l call := by
  rw [h.shell, hloc, hcall]

theorem Mirrors.server_at (h : Mirrors v decode loc waiting appPid shellWaiting s)
    (hloc : loc gpidProcess = l) : s.server = serverPc l := by
  rw [h.server, hloc]

theorem Mirrors.buf_at (h : Mirrors v decode loc waiting appPid shellWaiting s)
    (hloc : loc gpidProcess = l) : BufOk decode l s.buf := by
  rw [← hloc]
  exact h.buf

theorem Mirrors.waits_at (h : Mirrors v decode loc waiting appPid shellWaiting s)
    (hloc : loc gpidProcess = l) : s.shellWaiting = waits v l shellWaiting := by
  rw [h.shellWaiting, hloc]

end Mirrors

/-- Nothing happens in the smaller system. -/
theorem Mirrors.silent (h : Mirrors v decode loc waiting appPid shellWaiting s)
    (hshell : shellPc v decode (loc' gpidShell) (waiting' gpidShell) =
      shellPc v decode (loc gpidShell) (waiting gpidShell))
    (hproc : SameServer v decode (loc gpidProcess) (loc' gpidProcess))
    (happ : ∀ pid, ownPc decode (loc' pid) (waiting' pid) = ownPc decode (loc pid) (waiting pid)) :
    Mirrors v decode loc' waiting' appPid shellWaiting s where
  shell := h.shell.trans hshell.symm
  server := h.server.trans hproc.pc.symm
  buf := hproc.buf _ h.buf
  appPid := h.appPid
  shellWaiting := h.shellWaiting.trans (hproc.waits _).symm
  app pid := by rw [h.app, appPc, appPc, hproc.releases, hproc.loads, happ]

/-- Some steps of the smaller system lead to such a state, and leave its process table alone. -/
def Leads (s : System) (P : System → Prop) : Prop :=
  ∃ log s', Run Apps.Step s log s' ∧ s'.kernel = s.kernel ∧ P s'

section Leads

variable {P Q : System → Prop}

theorem Leads.here (h : P s) : Leads s P := ⟨[], s, .nil, rfl, h⟩

theorem Leads.step {label : Apps.Label} (hstep : Apps.Step s label s')
    (hkernel : s'.kernel = s.kernel) (h : P s') : Leads s P :=
  ⟨[label], s', .snoc .nil hstep, hkernel, h⟩

theorem Leads.trans (h : Leads s P) (hthen : ∀ s', P s' → Leads s' Q) : Leads s Q := by
  obtain ⟨log, s', hrun, hkernel, hP⟩ := h
  obtain ⟨log', s'', hrun', hkernel', hQ⟩ := hthen s' hP
  exact ⟨log ++ log', s'', hrun.append hrun', hkernel'.trans hkernel, hQ⟩

end Leads

/-! ## A call -/

/-- A call that is no step of the smaller system. -/
theorem Mirrors.issue_silent (h : Mirrors v decode loc waiting appPid shellWaiting s) {p : Int}
    {c : Request Int Int μ} (hfree : waiting p = none)
    (hshell : shellPc v decode (loc p) (some c) = shellPc v decode (loc p) none)
    (happ : ownPc decode (loc p) (some c) = ownPc decode (loc p) none) :
    Mirrors v decode loc (Function.update waiting p (some c)) appPid shellWaiting s := by
  refine h.silent ?_ (.refl _) fun pid => ?_
  · by_cases hp : gpidShell = p
    · rw [hp, Function.update_self, hfree, hshell]
    · rw [Function.update_of_ne hp]
  · by_cases hp : pid = p
    · rw [hp, Function.update_self, hfree, happ]
    · rw [Function.update_of_ne hp]

/-- The shell begins with a command or with `killall`. -/
theorem Mirrors.issue_shell (h : Mirrors v decode loc waiting appPid shellWaiting s) {m : μ}
    (hloc : loc gpidShell = .shell .prompt) {pc : ShellPc}
    (hpc : shellPc v decode (.shell .prompt) (some (.send gpidProcess m)) = pc) :
    Mirrors v decode loc (Function.update waiting gpidShell (some (.send gpidProcess m))) appPid
      shellWaiting { s with shell := pc } := by
  refine ⟨?_, h.server, h.buf, h.appPid, h.shellWaiting, fun pid => ?_⟩
  · rw [Function.update_self, hloc, hpc]
  · show s.app pid = _
    rw [h.app, appPc, appPc]
    by_cases hp : pid = gpidShell
    · rw [hp, hloc]
      rfl
    · rw [Function.update_of_ne hp]

/-- An application calls `exit`. If its `PROC_EXIT` has been received, it is only waiting for its
    end, and ctrl+c made it call `exit` again. -/
theorem Mirrors.issue_exit (hdecode : Decodes v decode)
    (h : Mirrors v decode loc waiting appPid shellWaiting s) (hbase : Base loc)
    (hloads : ∀ pid, (loc gpidProcess).loads = some pid → loc pid = .absent) {p : Int} {a : AppLoc}
    {m : μ} (hfree : waiting p = none) (hloc : loc p = .app a) (htype : v.type m = procExit) :
    Leads s (Mirrors v decode loc (Function.update waiting p (some (.send gpidProcess m))) appPid
      shellWaiting) := by
  have hnot : (loc gpidProcess).loads ≠ some p := fun hl => nomatch hloc.symm.trans (hloads p hl)
  have hshell : s.shell = shellPc v decode (loc gpidShell)
      (Function.update waiting p (some (.send gpidProcess m)) gpidShell) := by
    rw [Function.update_of_ne (hbase.app_ne hloc).2.symm]
    exact h.shell
  by_cases hrel : (loc gpidProcess).releases = some p
  · refine .here ⟨hshell, h.server, h.buf, h.appPid, h.shellWaiting, fun pid => ?_⟩
    rw [h.app, appPc, appPc]
    by_cases hp : pid = p
    · rw [hp, if_pos hrel, if_pos hrel]
    · rw [Function.update_of_ne hp]
  · have hrunning : s.app p = .running := by
      rw [h.app, appPc, if_neg hrel, if_neg hnot, hloc, hfree]
      rfl
    refine .step (.exit p (decode m) hrunning ((hdecode.type m).trans htype)) rfl
      ⟨hshell, h.server, h.buf, h.appPid, h.shellWaiting, fun pid => ?_⟩
    show Function.update s.app p _ pid = _
    by_cases hp : pid = p
    · rw [hp, Function.update_self, Function.update_self, appPc, if_neg hrel, if_neg hnot, hloc,
        ownPc, if_pos rfl]
    · rw [Function.update_of_ne hp, Function.update_of_ne hp, h.app]

/-- A call is at most a step of the smaller system. -/
theorem Mirrors.issue (hdecode : Decodes v decode)
    (h : Mirrors v decode loc waiting appPid shellWaiting s) (hbase : Base loc)
    (hloads : ∀ pid, (loc gpidProcess).loads = some pid → loc pid = .absent) {p : Int}
    {c : Request Int Int μ} (hfree : waiting p = none) (hmakes : Makes v (loc p) c) :
    Leads s (Mirrors v decode loc (Function.update waiting p (some c)) appPid shellWaiting) := by
  have hplaced := hbase.placed p
  generalize hloc : loc p = l at hmakes hplaced
  have hsilent : shellPc v decode l (some c) = shellPc v decode l none →
      ownPc decode l (some c) = ownPc decode l none →
      Leads s (Mirrors v decode loc (Function.update waiting p (some c)) appPid shellWaiting) :=
    fun hshell happ => .here (h.issue_silent hfree (by rwa [hloc]) (by rwa [hloc]))
  cases hmakes with
  -- the two kinds of calls that are steps
  | @command m hm =>
    obtain rfl : p = gpidShell := hplaced
    have hprompt : s.shell = .prompt := h.shell_at hloc hfree
    by_cases hspawn : v.type m = procSpawn
    · obtain ⟨hpos, hle⟩ := hdecode.argc m hspawn
      exact .step (.command (decode m) hprompt ((hdecode.type m).trans hspawn) hpos hle) rfl
        (h.issue_shell hloc (if_pos hspawn))
    · have hkill := (hdecode.type m).trans (hm.resolve_left hspawn)
      exact .step (.killall (decode m) hprompt hkill) rfl (h.issue_shell hloc (if_neg hspawn))
  | exit hm => exact h.issue_exit hdecode hbase hloads hfree hloc hm
  | killed hm => exact h.issue_exit hdecode hbase hloads hfree hloc hm
  -- all others
  | @request kind m hm hlen => exact hsilent rfl (if_neg kind.gpid_ne.1)
  | hear => exact hsilent rfl rfl
  | serve => exact hsilent rfl rfl
  | read => exact hsilent rfl rfl
  | block => exact hsilent rfl rfl
  | answer => exact hsilent rfl rfl
  | notify => exact hsilent rfl rfl
  | greet => exact hsilent rfl rfl
  | listen => exact hsilent rfl rfl
  | reply => exact hsilent rfl rfl
  | awaitReply => exact hsilent rfl rfl
  | awaitExit => exact hsilent rfl rfl
  | awaitServer => exact hsilent rfl rfl

/-! ## A delivery -/

section Deliver

variable {d : Delivery Int μ} {ls lr : Loc μ}

theorem delivered_sender (hfits : Fits accepts waiting d) :
    delivered loc d ls lr d.sender = ls := by
  rw [delivered, Function.update_of_ne hfits.ne, Function.update_self]

theorem delivered_receiver : delivered loc d ls lr d.receiver = lr := Function.update_self _ _ _

theorem delivered_of_ne {p : Int} (hs : p ≠ d.sender) (hr : p ≠ d.receiver) :
    delivered loc d ls lr p = loc p := by
  rw [delivered, Function.update_of_ne hr, Function.update_of_ne hs]

/-- A delivery after which both sides are what they were as applications. -/
theorem ownPc_delivered (hfits : Fits accepts waiting d)
    (hs : ownPc decode ls none = ownPc decode (loc d.sender) (waiting d.sender))
    (hr : ownPc decode lr none = ownPc decode (loc d.receiver) (waiting d.receiver)) (pid : Int) :
    ownPc decode (delivered loc d ls lr pid) (finish waiting d pid) =
      ownPc decode (loc pid) (waiting pid) := by
  by_cases hsender : pid = d.sender
  · rw [hsender, delivered_sender hfits, finish_sender, hs]
  · by_cases hreceiver : pid = d.receiver
    · rw [hreceiver, delivered_receiver, finish_receiver, hr]
    · rw [delivered_of_ne hsender hreceiver, finish_of_ne hsender hreceiver]

/-- A delivery that is no step of the smaller system. -/
theorem Mirrors.deliver_silent (h : Mirrors v decode loc waiting appPid shellWaiting s)
    (hfits : Fits accepts waiting d) (hshell : gpidShell ≠ d.sender ∧ gpidShell ≠ d.receiver)
    (hproc : SameServer v decode (loc gpidProcess) (delivered loc d ls lr gpidProcess))
    (hs : ownPc decode ls none = ownPc decode (loc d.sender) (waiting d.sender))
    (hr : ownPc decode lr none = ownPc decode (loc d.receiver) (waiting d.receiver)) :
    Mirrors v decode (delivered loc d ls lr) (finish waiting d) appPid shellWaiting s := by
  refine h.silent ?_ hproc (ownPc_delivered hfits hs hr)
  rw [delivered_of_ne hshell.1 hshell.2, finish_of_ne hshell.1 hshell.2]

/-- A delivery in which `sys_proc` has no part. -/
theorem Mirrors.deliver_apart (h : Mirrors v decode loc waiting appPid shellWaiting s)
    (hfits : Fits accepts waiting d) (hshell : gpidShell ≠ d.sender ∧ gpidShell ≠ d.receiver)
    (hproc : gpidProcess ≠ d.sender ∧ gpidProcess ≠ d.receiver)
    (hs : ownPc decode ls none = ownPc decode (loc d.sender) (waiting d.sender))
    (hr : ownPc decode lr none = ownPc decode (loc d.receiver) (waiting d.receiver)) :
    Mirrors v decode (delivered loc d ls lr) (finish waiting d) appPid shellWaiting s := by
  refine h.deliver_silent hfits hshell ?_ hs hr
  rw [delivered_of_ne hproc.1 hproc.2]
  exact .refl _

/-- The applications are not among the system processes. -/
theorem Mirrors.not_system (h : Mirrors v decode loc waiting appPid shellWaiting s)
    (hbase : Base loc) (hloads : (loc gpidProcess).loads = none) (pid : Int)
    (happ : s.app pid ≠ .stopped) : ¬ IsSystem pid := by
  rintro ⟨_, hhigh⟩
  have hown : ownPc decode (loc pid) (waiting pid) ≠ .stopped := by
    intro hstopped
    have hnone : (none : Option Int) ≠ some pid := nofun
    rw [h.app, appPc, hloads, if_neg hnone, hstopped, ite_self] at happ
    exact happ rfl
  cases hloc : loc pid with
  | app a =>
    have huser := (hbase.pid_app hloc).1
    rw [gpidUserStart] at huser
    rw [gpidShell] at hhigh
    omega
  | _ =>
    rw [hloc] at hown
    exact hown rfl

/-- The applications after a delivery between the shell and `sys_proc`. -/
theorem Mirrors.app_delivered (h : Mirrors v decode loc waiting appPid shellWaiting s)
    (hfits : Fits accepts waiting d)
    (hreleases : (delivered loc d ls lr gpidProcess).releases = (loc gpidProcess).releases)
    (hloads : (delivered loc d ls lr gpidProcess).loads = (loc gpidProcess).loads)
    (hs : ownPc decode ls none = ownPc decode (loc d.sender) (waiting d.sender))
    (hr : ownPc decode lr none = ownPc decode (loc d.receiver) (waiting d.receiver)) (pid : Int) :
    s.app pid = appPc decode (delivered loc d ls lr gpidProcess) (delivered loc d ls lr pid)
      (finish waiting d pid) pid := by
  rw [h.app, appPc, appPc, hreleases, hloads, ownPc_delivered hfits hs hr]

/-- `sys_proc` receives a request of the shell. -/
theorem Mirrors.to_server (h : Mirrors v decode loc waiting appPid shellWaiting s) {m : μ}
    (hfits : Fits accepts waiting ⟨gpidShell, gpidProcess, m⟩)
    (hshell : loc gpidShell = .shell .prompt) (hproc : loc gpidProcess = .proc .serve)
    {ls : ShellLoc μ} {lr : ProcLoc μ} (hpc : serverPc (.proc lr) = .handling gpidShell)
    (hbuf : BufOk decode (.proc lr) (decode m))
    (hwaits : waits v (.proc lr) shellWaiting = shellWaiting)
    (hreleases : (Loc.proc lr).releases = none) (hloads : (Loc.proc lr).loads = none) :
    Mirrors v decode (delivered loc ⟨gpidShell, gpidProcess, m⟩ (.shell ls) (.proc lr))
      (finish waiting ⟨gpidShell, gpidProcess, m⟩) appPid shellWaiting
      { s with shell := shellPc v decode (.shell ls) none, server := .handling gpidShell,
               buf := decode m } := by
  have hr : delivered loc ⟨gpidShell, gpidProcess, m⟩ (.shell ls) (.proc lr) gpidProcess =
    .proc lr := delivered_receiver
  have hs : delivered loc ⟨gpidShell, gpidProcess, m⟩ (.shell ls) (.proc lr) gpidShell =
    .shell ls := delivered_sender hfits
  have hfinish : finish waiting ⟨gpidShell, gpidProcess, m⟩ gpidShell = none := finish_sender
  refine ⟨?_, ?_, ?_, h.appPid, ?_, fun pid => ?_⟩
  · rw [hs, hfinish]
  · rw [hr, hpc]
  · rw [hr]
    exact hbuf
  · rw [hr, hwaits]
    exact h.waits_at hproc
  · refine h.app_delivered hfits ?_ ?_ ?_ ?_ pid
    · rw [hr, hproc, hreleases]
      rfl
    · rw [hr, hproc, hloads]
      rfl
    · rw [hshell]
      rfl
    · rw [hproc]
      rfl

/-- The shell receives a message of `sys_proc`. -/
theorem Mirrors.to_shell (h : Mirrors v decode loc waiting appPid shellWaiting s) (hbase : Base loc)
    {m : μ} (hfits : Fits accepts waiting ⟨gpidProcess, gpidShell, m⟩) {l : ProcLoc μ}
    {ls ls' : ShellLoc μ} (hproc : loc gpidProcess = .proc l) (hshell : loc gpidShell = .shell ls)
    (hpc : serverPc (.proc l) = .sending) (hwaits : waits v (.proc l) shellWaiting = shellWaiting)
    (hreleases : (Loc.proc l).releases = none) (hloads : (Loc.proc l).loads = none)
    (hcall : s.shell.call = some (.recv gpidProcess))
    (hreceived : s.shell.received s.buf = shellPc v decode (.shell ls') none) :
    Leads s (Mirrors v decode
      (delivered loc ⟨gpidProcess, gpidShell, m⟩ (.proc .serve) (.shell ls'))
      (finish waiting ⟨gpidProcess, gpidShell, m⟩) appPid shellWaiting) := by
  have hr : delivered loc ⟨gpidProcess, gpidShell, m⟩ (.proc .serve) (.shell ls') gpidShell =
    .shell ls' := delivered_receiver
  have hs : delivered loc ⟨gpidProcess, gpidShell, m⟩ (.proc .serve) (.shell ls') gpidProcess =
    .proc .serve := delivered_sender hfits
  have hfinish : finish waiting ⟨gpidProcess, gpidShell, m⟩ gpidShell = none := finish_receiver
  have hserver : s.server = .sending := (h.server_at hproc).trans hpc
  have hnot := h.not_system hbase (by rw [hproc, hloads])
  refine .step (step_of_handed hnot (.answer hserver hcall)) rfl
    ⟨?_, ?_, ?_, h.appPid, ?_, fun pid => ?_⟩
  · rw [hr, hfinish]
    exact hreceived
  · rw [hs]
    rfl
  · rw [hs]
    trivial
  · rw [hs]
    exact (h.waits_at hproc).trans hwaits
  · refine h.app_delivered hfits ?_ ?_ ?_ ?_ pid
    · rw [hs, hproc, hreleases]
      rfl
    · rw [hs, hproc, hloads]
      rfl
    · rw [hproc]
      rfl
    · rw [hshell]
      rfl

/-- `sys_proc` receives the `PROC_EXIT` of an application. -/
theorem Mirrors.deliver_exit (hdecode : Decodes v decode)
    (h : Mirrors v decode loc waiting appPid shellWaiting s) (hbase : Base loc) {p : Int} {m : μ}
    {a : AppLoc} (hfits : Fits accepts waiting ⟨p, gpidProcess, m⟩) (hloc : loc p = .app a)
    (hproc : loc gpidProcess = .proc .serve) (htype : v.type m = procExit) :
    Leads s (Mirrors v decode (delivered loc ⟨p, gpidProcess, m⟩ (.app .ended) (.proc (.release p)))
      (finish waiting ⟨p, gpidProcess, m⟩) appPid shellWaiting) := by
  have hr : delivered loc ⟨p, gpidProcess, m⟩ (.app .ended) (.proc (.release p)) gpidProcess =
    .proc (.release p) := delivered_receiver
  have hne := hbase.app_ne hloc
  have hserver : s.server = .receiving := h.server_at hproc
  have hexiting : s.app p = .exiting (decode m) := by
    have hsend : waiting p = some (.send gpidProcess m) := hfits.send
    rw [h.app, hproc, hloc, hsend]
    rfl
  have hnot := h.not_system hbase (by rw [hproc]; rfl)
  refine .step (step_of_handed hnot (.exit p (decode m) hexiting hserver)) rfl
    ⟨?_, ?_, ?_, h.appPid, ?_, fun pid => ?_⟩
  · have hsender : gpidShell ≠ (⟨p, gpidProcess, m⟩ : Delivery Int μ).sender := hne.2.symm
    rw [delivered_of_ne hsender shell_ne_process, finish_of_ne hsender shell_ne_process]
    exact h.shell
  · rw [hr]
    rfl
  · rw [hr]
    exact (hdecode.type m).trans htype
  · rw [hr]
    have hwaiting := h.waits_at hproc
    exact hwaiting
  · show Function.update s.app p _ pid = _
    rw [hr, appPc]
    by_cases hp : pid = p
    · rw [hp, Function.update_self]
      exact (if_pos rfl).symm
    · have hrel : (Loc.proc (.release p) : Loc μ).releases ≠ some pid :=
        fun heq => hp (Option.some.inj heq).symm
      rw [Function.update_of_ne hp, if_neg hrel, h.app, appPc, hproc]
      by_cases hpid : pid = gpidProcess
      · rw [hpid, hproc, hr]
        rfl
      · rw [delivered_of_ne hp hpid, finish_of_ne hp hpid]
        rfl

/-- A delivery is at most a step of the smaller system. -/
theorem Mirrors.deliver (hdecode : Decodes v decode)
    (h : Mirrors v decode loc waiting appPid shellWaiting s) (hbase : Base loc)
    (hfits : Fits accepts waiting d) (hx : Exchange v loc d ls lr) :
    Leads s (Mirrors v decode (delivered loc d ls lr) (finish waiting d) appPid shellWaiting) := by
  obtain ⟨f, hrecv, _⟩ := hfits.recv
  have hsend := hfits.send
  have hreceiving : loc gpidProcess = .proc .serve → s.server = .receiving :=
    fun hproc => h.server_at hproc
  cases hx with
  -- between an application and a server
  | @request kind pid m hpid hserver =>
    have hne := hbase.app_ne hpid
    refine .here (h.deliver_apart hfits ⟨hne.2.symm, kind.gpid_ne.2.symm⟩
      ⟨hne.1.symm, kind.gpid_ne.1.symm⟩ ?_ ?_)
    · rw [hpid, hsend]
      exact (if_neg kind.gpid_ne.1).symm
    · rw [hserver]
      rfl
  | @output pid m hpid hserver =>
    have hne := hbase.app_ne hpid
    refine .here (h.deliver_apart hfits ⟨hne.2.symm, Kind.terminal.gpid_ne.2.symm⟩
      ⟨hne.1.symm, Kind.terminal.gpid_ne.1.symm⟩ ?_ ?_)
    · rw [hpid, hsend]
      rfl
    · rw [hserver]
      rfl
  | @reply kind pid m hserver hpid =>
    have hne := hbase.app_ne hpid
    refine .here (h.deliver_apart hfits ⟨kind.gpid_ne.2.symm, hne.2.symm⟩
      ⟨kind.gpid_ne.1.symm, hne.1.symm⟩ ?_ ?_)
    · rw [hserver]
      rfl
    · rw [hpid, hrecv]
      rfl
  -- between `sys_proc` and a server
  | @read req job m hproc hserver =>
    refine .here (h.deliver_silent hfits ⟨shell_ne_process, Kind.file.gpid_ne.2.symm⟩ ?_ ?_ ?_)
    · rw [delivered_sender hfits, hproc]
      exact .read req job
    · rw [hproc]
      rfl
    · rw [hserver]
      rfl
  | @block req job m hproc hserver =>
    refine .here (h.deliver_silent hfits ⟨Kind.file.gpid_ne.2.symm, shell_ne_process⟩ ?_ ?_ ?_)
    · rw [delivered_receiver, hproc]
      exact .block req m job
    · rw [hserver]
      rfl
    · rw [hproc]
      rfl
  | @greet kind stage m hserver hproc hstage =>
    refine .here (h.deliver_silent hfits ⟨kind.gpid_ne.2.symm, shell_ne_process⟩ ?_ ?_ ?_)
    · rw [delivered_receiver, hproc]
      exact ⟨rfl, fun _ h => h, fun _ => rfl, rfl, rfl⟩
    · rw [hserver]
      rfl
    · rw [hproc]
      rfl
  -- between the shell or an application and `sys_proc`: these are steps
  | spawn m hshell hproc htype =>
    have hpc : s.shell = .requesting (decode m) := (h.shell_at hshell hsend).trans (if_pos htype)
    exact .step (step_of_handed (h.not_system hbase (by rw [hproc]; rfl))
      (.spawn (decode m) hpc (hreceiving hproc))) rfl
      (h.to_server hfits hshell hproc rfl ⟨rfl, (hdecode.type m).trans htype⟩ rfl rfl rfl)
  | killall m hshell hproc htype =>
    have hpc : s.shell = .killing (decode m) :=
      (h.shell_at hshell hsend).trans (if_neg (by rw [htype]; decide))
    exact .step (step_of_handed (h.not_system hbase (by rw [hproc]; rfl))
      (.kill (decode m) hpc (hreceiving hproc))) rfl
      (h.to_server hfits hshell hproc rfl ((hdecode.type m).trans htype) rfl rfl rfl)
  | exit m hpid hproc htype =>
    rcases hpid with hpid | hpid <;> exact h.deliver_exit hdecode hbase hfits hpid hproc htype
  | @started req m hproc hshell hwait =>
    have hpc : s.shell = .awaitingReply (decode req) := h.shell_at hshell rfl
    have htype : s.buf.type = cmdOk := h.buf_at hproc
    have hlast : (decode req).lastArg ≠ ampersand := by
      rw [Ne, hdecode.background, hwait]
      exact nofun
    refine h.to_shell hbase hfits hproc hshell rfl rfl rfl rfl (by rw [hpc]; rfl) ?_
    rw [hpc, ShellPc.received, if_neg (not_not.mpr htype), if_pos hlast]
    rfl
  | @answer req type m hproc hshell hfree =>
    have hpc : s.shell = .awaitingReply (decode req) := h.shell_at hshell rfl
    have htype : s.buf.type = type := h.buf_at hproc
    refine h.to_shell hbase hfits hproc hshell rfl rfl rfl rfl (by rw [hpc]; rfl) ?_
    rw [hpc, ShellPc.received, htype]
    split_ifs with hok hlast
    · rfl
    · refine absurd ⟨not_not.mp hok, ?_⟩ hfree
      rwa [Ne, hdecode.background, Bool.not_eq_true] at hlast
    · rfl
  | notify m hproc hshell =>
    have hpc : s.shell = .awaitingExit := h.shell_at hshell rfl
    exact h.to_shell hbase hfits hproc hshell rfl rfl rfl rfl (by rw [hpc]; rfl) (by rw [hpc]; rfl)

end Deliver

end Egos.Whole
