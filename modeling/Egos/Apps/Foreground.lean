import Egos.Apps.System

/-!
# The Shell Waits for Foreground Commands

The shell and `sys_proc` decide independently whether the shell waits for the end of a
command, and `sys_proc` keeps one `app_pid` and one `shell_waiting` for all processes. Here
is why the two always agree.

- `Stage` is the agreement: what `sys_proc` owes the shell after what has happened so far. It
  reads a log of the system and rejects a message to the shell that is not owed.
- `Inv` connects the stage to the variables of the two programs. When the shell is owed
  nothing, `app_pid` and `shell_waiting` may be stale, but then the process they name will not
  be heard of again: its pid comes back only with the next `PROC_SPAWN`, which sets both.

`Start.run` is the result: the agreement allows every run. What follows for the shell is in
`Egos.Apps.Protocol`.
-/

namespace Egos.Apps

open Egos.Lib Egos.Lib.Rendezvous Egos.Grass

/-! ## The agreement -/

/-- What `sys_proc` owes the shell. -/
inductive Stage where
  /-- nothing -/
  | idle
  /-- a reply to this request -/
  | asked (req : ProcRequest)
  /-- the reply, and after it a message for the end of this process -/
  | answered (pid : Option Int)
  /-- a message, but not before this process is freed -/
  | waiting (pid : Int)
  /-- a message, now -/
  | ended
  deriving DecidableEq

/-- The stage after an event, or `none` if the agreement does not allow it. -/
def Stage.next : Stage → Label → Option Stage
  | stage, .exit _ | stage, .files | stage, .turn => some stage
  | .idle, .command _ | .idle, .killall | .idle, .freed _ => some .idle
  | .idle, .deliver d =>
      if d.receiver ≠ gpidProcess then none
      else if d.content.type = procSpawn then some (.asked d.content) else some .idle
  | .asked _, .notFound => some (.answered none)
  | .asked req, .spawned pid => some (.answered (if req.lastArg = ampersand then none else some pid))
  | .answered none, .deliver d => if d.receiver = gpidShell then some .idle else none
  | .answered (some pid), .deliver d => if d.receiver = gpidShell then some (.waiting pid) else none
  | .waiting pid, .deliver d =>
      if d.receiver = gpidProcess ∧ d.content.type = procExit then some (.waiting pid) else none
  | .waiting pid, .freed pid' => some (if pid' = pid then .ended else .waiting pid)
  | .ended, .deliver d => if d.receiver = gpidShell then some .idle else none
  | _, _ => none

/-- The shell is not waiting for a message. -/
def ShellPc.Free : ShellPc → Prop
  | .prompt | .requesting _ | .killing _ => True
  | .awaitingReply _ | .awaitingExit => False

/-- Where the two programs are at each stage. -/
def Agrees (s : System) : Stage → Prop
  | .idle => s.shell.Free ∧ s.server ≠ .sending
  | .asked req => s.shell = .awaitingReply req ∧ ∃ sender, s.server = .handling sender
  | .answered _ => (∃ req, s.shell = .awaitingReply req) ∧ s.server = .sending
  | .waiting pid => s.shell = .awaitingExit ∧ s.server ≠ .sending ∧ Live s.kernel pid
  | .ended => s.shell = .awaitingExit ∧ s.server = .sending

/-! ## The invariant -/

/-- What holds at every stage. -/
structure Base (s : System) : Prop where
  table : Table s.kernel.procSet
  system : ∀ pid, IsSystem pid → Live s.kernel pid
  live : ∀ pid, s.app pid ≠ .stopped → Live s.kernel pid ∧ ¬ IsSystem pid
  exitType : ∀ pid req, s.app pid = .exiting req → req.type = procExit
  spawnType : ∀ req, s.shell = .requesting req → req.type = procSpawn
  killType : ∀ req, s.shell = .killing req → req.type = procKillall
  /-- The process whose `PROC_EXIT` is handled sends no other. -/
  exited : ∀ pid, s.server = .handling pid → s.buf.type = procExit →
    s.app pid = .stopped ∧ Live s.kernel pid ∧ ¬ IsSystem pid

/-- A `PROC_EXIT` of the process is still to be handled. -/
def Active (s : System) (pid : Int) : Prop :=
  s.app pid ≠ .stopped ∨ (s.server = .handling pid ∧ s.buf.type = procExit)

/-- The server waits for a request, or handles one of these types. -/
def Serves (s : System) (type : Nat → Prop) : Prop :=
  s.server = .receiving ∨ ∃ pid, s.server = .handling pid ∧ type s.buf.type

/-- What holds at each stage. -/
def Owes (s : System) : Stage → Prop
  | .idle => s.shell.Free ∧ Serves s (fun type => type = procExit ∨ type = procKillall) ∧
      (s.shellWaiting = true → ¬ Active s s.appPid)
  | .asked req => s.shell = .awaitingReply req ∧ (∃ sender, s.server = .handling sender) ∧
      s.buf = req ∧ req.type = procSpawn
  | .answered none => ∃ req, s.shell = .awaitingReply req ∧ s.server = .sending ∧
      s.shellWaiting = false ∧ (s.buf.type ≠ cmdOk ∨ req.lastArg = ampersand)
  | .answered (some pid) => ∃ req, s.shell = .awaitingReply req ∧ s.server = .sending ∧
      s.shellWaiting = true ∧ s.appPid = pid ∧ s.app pid ≠ .stopped ∧
      s.buf.type = cmdOk ∧ req.lastArg ≠ ampersand
  | .waiting pid => s.shell = .awaitingExit ∧ Serves s (· = procExit) ∧
      s.shellWaiting = true ∧ s.appPid = pid ∧ Active s pid
  | .ended => s.shell = .awaitingExit ∧ s.server = .sending ∧ s.app s.appPid = .stopped

/-- The invariant. -/
structure Inv (stage : Stage) (s : System) : Prop where
  base : Base s
  owes : Owes s stage

variable {s s' : System} {stage : Stage} {pid : Int}

theorem Start.inv (h : Start s) : Inv .idle s where
  base :=
    { table := h.table
      system := h.system
      live := fun pid happ => absurd (h.app pid) happ
      exitType := fun pid req hreq => by
        rw [h.app pid] at hreq
        cases hreq
      spawnType := fun req hreq => by
        rw [h.shell] at hreq
        cases hreq
      killType := fun req hreq => by
        rw [h.shell] at hreq
        cases hreq
      exited := fun pid hpid => by
        rw [h.server] at hpid
        cases hpid }
  owes := by
    refine ⟨by rw [h.shell]; trivial, Or.inl h.server, fun _ => ?_⟩
    rintro (happ | ⟨hserver, _⟩)
    · exact happ (h.app _)
    · rw [h.server] at hserver
      cases hserver

/-- The stage says where the programs are. -/
theorem Inv.agrees (h : Inv stage s) : Agrees s stage := by
  obtain ⟨hbase, howes⟩ := h
  match stage with
  | .idle =>
    obtain ⟨hfree, hserves, _⟩ := howes
    refine ⟨hfree, ?_⟩
    rcases hserves with hserver | ⟨_, hserver, _⟩ <;> rw [hserver] <;> simp
  | .asked req => exact ⟨howes.1, howes.2.1⟩
  | .answered none =>
    obtain ⟨req, hshell, hserver, _⟩ := howes
    exact ⟨⟨req, hshell⟩, hserver⟩
  | .answered (some pid) =>
    obtain ⟨req, hshell, hserver, _⟩ := howes
    exact ⟨⟨req, hshell⟩, hserver⟩
  | .waiting pid =>
    obtain ⟨hshell, hserves, _, _, hactive⟩ := howes
    refine ⟨hshell, ?_, ?_⟩
    · rcases hserves with hserver | ⟨_, hserver, _⟩ <;> rw [hserver] <;> simp
    · rcases hactive with happ | ⟨hserver, htype⟩
      · exact (hbase.live pid happ).1
      · exact (hbase.exited pid hserver htype).2.1
  | .ended => exact ⟨howes.1, howes.2.1⟩

/-! ## What a message does -/

/-- The ways in which a message is handed over. -/
inductive Handed (s : System) : Delivery Int ProcRequest → System → Prop where
  | spawn (req : ProcRequest) (hshell : s.shell = .requesting req) (hserver : s.server = .receiving) :
      Handed s ⟨gpidShell, gpidProcess, req⟩
        { s with shell := .awaitingReply req, server := .handling gpidShell, buf := req }
  | kill (req : ProcRequest) (hshell : s.shell = .killing req) (hserver : s.server = .receiving) :
      Handed s ⟨gpidShell, gpidProcess, req⟩
        { s with shell := .prompt, server := .handling gpidShell, buf := req }
  | exit (pid : Int) (req : ProcRequest) (happ : s.app pid = .exiting req)
      (hserver : s.server = .receiving) :
      Handed s ⟨pid, gpidProcess, req⟩
        { s with app := Function.update s.app pid .stopped, server := .handling pid, buf := req }
  | answer (hserver : s.server = .sending) (hshell : s.shell.call = some (.recv gpidProcess)) :
      Handed s ⟨gpidProcess, gpidShell, s.buf⟩
        { s with shell := s.shell.received s.buf, server := .receiving }

/-- Only `sys_proc` receives from everybody, and only the shell from `sys_proc`. -/
theorem waiting_recv {source : Int} (h : s.waiting pid = some (.recv source)) :
    (pid = gpidShell ∧ s.shell.call = some (.recv source)) ∨
      (pid = gpidProcess ∧ s.server = .receiving) := by
  unfold System.waiting at h
  split_ifs at h with hshell hprocess
  · exact Or.inl ⟨hshell, h⟩
  · refine Or.inr ⟨hprocess, ?_⟩
    cases hserver : s.server with
    | receiving => rfl
    | handling sender => simp [hserver, ServerPc.call] at h
    | sending => simp [hserver, ServerPc.call] at h
  · cases happ : s.app pid <;> simp [happ, AppPc.call] at h

theorem ShellPc.call_recv {pc : ShellPc} {source : Int} (h : pc.call = some (.recv source)) :
    source = gpidProcess := by
  cases pc <;> simp [ShellPc.call] at h <;> exact h.symm

theorem process_ne_shell : gpidProcess ≠ gpidShell := by decide

/-- The message of `sys_proc` meets a receive of the shell. -/
theorem fits_answer (hserver : s.server = .sending)
    (hshell : s.shell.call = some (.recv gpidProcess)) :
    Fits accepts s.waiting ⟨gpidProcess, gpidShell, s.buf⟩ where
  send := by simp [System.waiting, process_ne_shell, hserver, ServerPc.call]
  recv := ⟨gpidProcess, by simp [System.waiting, hshell], Or.inr rfl⟩

theorem receiving_of_waiting {source : Int} (h : s.waiting gpidProcess = some (.recv source)) :
    s.server = .receiving := by
  rcases waiting_recv h with ⟨hpid, _⟩ | ⟨_, hserver⟩
  · exact absurd hpid (by decide)
  · exact hserver

theorem deliver_spawn {req : ProcRequest} (h : s.shell = .requesting req) :
    s.deliver ⟨gpidShell, gpidProcess, req⟩ =
      { s with shell := .awaitingReply req, server := .handling gpidShell, buf := req } := by
  simp [System.deliver, System.sent, System.received, h, ShellPc.sent, process_ne_shell]

theorem deliver_kill {req : ProcRequest} (h : s.shell = .killing req) :
    s.deliver ⟨gpidShell, gpidProcess, req⟩ =
      { s with shell := .prompt, server := .handling gpidShell, buf := req } := by
  simp [System.deliver, System.sent, System.received, h, ShellPc.sent, process_ne_shell]

theorem deliver_exit {req : ProcRequest} (hshell : pid ≠ gpidShell) (hprocess : pid ≠ gpidProcess) :
    s.deliver ⟨pid, gpidProcess, req⟩ =
      { s with app := Function.update s.app pid .stopped, server := .handling pid, buf := req } := by
  simp [System.deliver, System.sent, System.received, hshell, hprocess, process_ne_shell]

theorem deliver_answer :
    s.deliver ⟨gpidProcess, gpidShell, s.buf⟩ =
      { s with shell := s.shell.received s.buf, server := .receiving } := by
  simp [System.deliver, System.sent, System.received, process_ne_shell]

theorem handed_of_fits {d : Delivery Int ProcRequest} (h : Fits accepts s.waiting d) :
    Handed s d (s.deliver d) := by
  obtain ⟨hsend, source, hrecv, haccepts⟩ := h
  obtain ⟨sender, receiver, content⟩ := d
  simp only at hsend hrecv haccepts
  unfold System.waiting at hsend
  split_ifs at hsend with hshell hprocess
  · -- the shell sends to `sys_proc`
    subst hshell
    cases hpc : s.shell with
    | requesting req =>
      obtain ⟨rfl, rfl⟩ : gpidProcess = receiver ∧ req = content := by
        simpa [hpc, ShellPc.call] using hsend
      rw [deliver_spawn hpc]
      exact .spawn req hpc (receiving_of_waiting hrecv)
    | killing req =>
      obtain ⟨rfl, rfl⟩ : gpidProcess = receiver ∧ req = content := by
        simpa [hpc, ShellPc.call] using hsend
      rw [deliver_kill hpc]
      exact .kill req hpc (receiving_of_waiting hrecv)
    | prompt => simp [hpc, ShellPc.call] at hsend
    | awaitingReply req => simp [hpc, ShellPc.call] at hsend
    | awaitingExit => simp [hpc, ShellPc.call] at hsend
  · -- `sys_proc` sends to the shell
    subst hprocess
    cases hpc : s.server with
    | sending =>
      obtain ⟨rfl, rfl⟩ : gpidShell = receiver ∧ s.buf = content := by
        simpa [hpc, ServerPc.call] using hsend
      have hcall : s.shell.call = some (.recv source) := by
        rcases waiting_recv hrecv with ⟨_, hcall⟩ | ⟨hpid, _⟩
        · exact hcall
        · exact absurd hpid (by decide)
      rw [deliver_answer]
      exact .answer hpc (by rw [hcall, ShellPc.call_recv hcall])
    | receiving => simp [hpc, ServerPc.call] at hsend
    | handling sender => simp [hpc, ServerPc.call] at hsend
  · -- an application sends to `sys_proc`
    cases hpc : s.app sender with
    | exiting req =>
      obtain ⟨rfl, rfl⟩ : gpidProcess = receiver ∧ req = content := by
        simpa [hpc, AppPc.call] using hsend
      rw [deliver_exit hshell hprocess]
      exact .exit sender req hpc (receiving_of_waiting hrecv)
    | running => simp [hpc, AppPc.call] at hsend
    | stopped => simp [hpc, AppPc.call] at hsend

/-- Each of the four is possible. -/
theorem step_of_handed {d : Delivery Int ProcRequest}
    (hlive : ∀ pid, s.app pid ≠ .stopped → ¬ IsSystem pid) (h : Handed s d s') :
    Step s (.deliver d) s' := by
  have hrecv : s.server = .receiving → s.waiting gpidProcess = some (.recv gpidAll) := by
    intro hserver
    simp [System.waiting, process_ne_shell, hserver, ServerPc.call]
  cases h with
  | spawn req hshell hserver =>
    rw [← deliver_spawn hshell]
    exact .deliver _ ⟨by simp [System.waiting, hshell, ShellPc.call], gpidAll, hrecv hserver, Or.inl rfl⟩
  | kill req hshell hserver =>
    rw [← deliver_kill hshell]
    exact .deliver _ ⟨by simp [System.waiting, hshell, ShellPc.call], gpidAll, hrecv hserver, Or.inl rfl⟩
  | exit pid req happ hserver =>
    -- an application has neither of the two pids whose calls are looked up first
    have hnot := hlive pid (by simp [happ])
    have hshell : pid ≠ gpidShell := by
      rintro rfl
      exact hnot (by decide)
    have hprocess : pid ≠ gpidProcess := by
      rintro rfl
      exact hnot (by decide)
    rw [← deliver_exit hshell hprocess]
    exact .deliver _ ⟨by simp [System.waiting, hshell, hprocess, happ, AppPc.call], gpidAll,
      hrecv hserver, Or.inl rfl⟩
  | answer hserver hshell =>
    rw [← deliver_answer]
    exact .deliver _ (fits_answer hserver hshell)

/-! ## What a request does -/

/-- The ways in which `sys_proc` handles a request. -/
inductive Handled (s : System) (sender : Int) : Label → System → Prop where
  | notFound (htype : s.buf.type = procSpawn) :
      Handled s sender .notFound
        { s with buf := { s.buf with type := cmdError }, shellWaiting := false, server := .sending }
  | spawned (pid : Int) (kernel : Kernel ProcRequest) (htype : s.buf.type = procSpawn)
      (halloc : s.kernel.procAlloc = .ok (pid, kernel)) :
      Handled s sender (.spawned pid)
        { s with
          buf := { s.buf with type := cmdOk }
          shellWaiting := decide (s.buf.lastArg ≠ ampersand)
          server := .sending
          appPid := pid
          kernel := kernel.procSetReady pid
          app := Function.update s.app pid .running }
  | exit (htype : s.buf.type = procExit) :
      Handled s sender (.freed sender)
        { s.procFree sender with
          server := if s.shellWaiting ∧ s.appPid = sender then .sending else .receiving }
  | killall (htype : s.buf.type = procKillall) :
      Handled s sender (.freed gpidAll) { s.procFree gpidAll with server := .receiving }

theorem handled_of_handle {sender : Int} {label : Label} (h : s.handle sender = some (label, s')) :
    Handled s sender label s' := by
  unfold System.handle at h
  split_ifs at h with hspawn hexit hkill
  · unfold System.handleSpawn System.appSpawn at h
    split_ifs at h with hfound
    · have herror : ¬ (cmdError = cmdOk) := by decide
      simp only [herror, and_false, decide_false, Option.some.injEq, Prod.mk.injEq] at h
      obtain ⟨rfl, rfl⟩ := h
      exact .notFound hspawn
    · cases halloc : s.kernel.procAlloc with
      | error stop => simp [halloc] at h
      | ok result =>
        obtain ⟨pid, kernel⟩ := result
        simp only [halloc, Option.some.injEq, Prod.mk.injEq, and_true] at h
        obtain ⟨rfl, rfl⟩ := h
        exact .spawned pid kernel hspawn halloc
  · obtain ⟨rfl, rfl⟩ := Prod.mk.inj (Option.some.inj h)
    exact .exit hexit
  · obtain ⟨rfl, rfl⟩ := Prod.mk.inj (Option.some.inj h)
    exact .killall hkill

/-- Each of the four is possible, with the right directory. -/
theorem run_of_handled {sender : Int} {label : Label} (hserver : s.server = .handling sender)
    (h : Handled s sender label s') : ∃ bin, Run Step s [.files, label] { s' with bin } := by
  have hrun : ∀ {bin}, { s with bin }.handle sender = some (label, { s' with bin }) →
      Run Step s [.files, label] { s' with bin } := fun {bin} hhandle =>
    .cons (.files bin) (.cons (.handle sender _ _ hserver hhandle) .nil)
  cases h with
  | notFound htype =>
    refine ⟨fun _ => -1, hrun ?_⟩
    have herror : ¬ (cmdError = cmdOk) := by decide
    rw [System.handle, if_pos htype]
    simp [System.handleSpawn, System.appSpawn, herror]
  | spawned pid kernel htype halloc =>
    refine ⟨fun _ => 0, hrun ?_⟩
    rw [System.handle, if_pos htype]
    simp only [System.handleSpawn, System.appSpawn, lt_irrefl, if_false, halloc, and_true]
    rfl
  | exit htype =>
    refine ⟨s.bin, hrun ?_⟩
    rw [System.handle, if_neg (by rw [htype]; decide), if_pos htype]
    rfl
  | killall htype =>
    refine ⟨s.bin, hrun ?_⟩
    rw [System.handle, if_neg (by rw [htype]; decide), if_neg (by rw [htype]; decide),
      if_pos htype]
    rfl

/-- `sys_proc` does not get stuck in a request, unless it needs a process and there is no
    slot. -/
theorem handle_isSome (sender : Int)
    (htype : s.buf.type = procSpawn ∨ s.buf.type = procExit ∨ s.buf.type = procKillall)
    (halloc : s.buf.type = procSpawn → ∃ pid kernel, s.kernel.procAlloc = .ok (pid, kernel)) :
    ∃ label s', s.handle sender = some (label, s') := by
  unfold System.handle
  rcases htype with htype | htype | htype
  · obtain ⟨pid, kernel, hok⟩ := halloc htype
    rw [if_pos htype, System.handleSpawn, System.appSpawn, hok]
    split_ifs <;> exact ⟨_, _, rfl⟩
  · rw [if_neg (by rw [htype]; decide), if_pos htype]
    exact ⟨_, _, rfl⟩
  · rw [if_neg (by rw [htype]; decide), if_neg (by rw [htype]; decide), if_pos htype]
    exact ⟨_, _, rfl⟩

/-! ## The process table -/

theorem Live.procFree {q : Int} (htable : Table s.kernel.procSet) (h : Live s.kernel q)
    (hrel : ¬ (q = pid ∨ (pid = gpidAll ∧ gpidUserStart ≤ q))) :
    Live (s.kernel.procFree pid) q := by
  obtain ⟨i, rfl, hi⟩ := h
  refine ⟨i, rfl, ?_⟩
  rwa [procFree_not_freed]
  rintro ⟨_, hfreed⟩
  have hnamed := htable.named i hi
  rw [hnamed] at hfreed
  split_ifs at hfreed with hall
  · exact hrel (Or.inl hfreed)
  · exact hrel (Or.inr ⟨not_not.mp hall, hfreed.1⟩)

theorem Live.procSetReady {k : Kernel ProcRequest} {q : Int} (h : Live k q) :
    Live (k.procSetReady pid) q := by
  obtain ⟨i, rfl, hi⟩ := h
  refine ⟨i, rfl, ?_⟩
  show (Kernel.withStatus k.procSet pid .ready i).status ≠ .unused
  rw [Kernel.withStatus]
  split_ifs
  · simp
  · exact hi

/-- `proc_alloc` and `proc_set_ready` take a new pid into use, and free none. -/
theorem live_alloc {k k' : Kernel ProcRequest} (htable : Table k.procSet)
    (h : k.procAlloc = .ok (pid, k')) :
    ¬ Live k pid ∧ Live (k'.procSetReady pid) pid ∧ Table (k'.procSetReady pid).procSet ∧
      ∀ q, Live k q → Live (k'.procSetReady pid) q := by
  have htable' : Table k'.procSet := (managed_procAlloc h).table htable
  obtain ⟨i, hne, hunused, rfl, rfl⟩ := procAlloc_ok h
  have hself := k.setProc_self i { k.procSet i with pid := i.val, status := .loading }
  have hlive : Live (k.setProc i { k.procSet i with pid := i.val, status := .loading }) i.val :=
    ⟨i, rfl, by rw [hself]; simp⟩
  refine ⟨?_, hlive.procSetReady, ?_, fun q hq => Live.procSetReady ?_⟩
  · rintro ⟨j, hj, hused⟩
    obtain rfl : i = j := Fin.ext (by omega)
    exact hused hunused
  · refine (managed_procSetReady htable' ⟨i, ?_, ?_⟩).table htable' <;> rw [hself]
  · obtain ⟨j, rfl, hused⟩ := hq
    by_cases hij : j = i
    · exact hij ▸ hlive
    · exact ⟨j, rfl, by rw [k.setProc_of_ne _ hij]; exact hused⟩

/-! ## Steps -/

theorem Base.turn {kernel : Kernel ProcRequest} (h : Base s)
    (huse : SameUse s.kernel.procSet kernel.procSet) : Base { s with kernel } := by
  have hlive : ∀ pid, Live s.kernel pid → Live kernel pid := by
    rintro _ ⟨i, rfl, hi⟩
    exact ⟨i, rfl, fun hunused => hi ((huse.unused i).mp hunused)⟩
  refine
    { table := ?_
      system := fun pid hpid => hlive pid (h.system pid hpid)
      live := fun pid happ => ⟨hlive pid (h.live pid happ).1, (h.live pid happ).2⟩
      exitType := h.exitType
      spawnType := h.spawnType
      killType := h.killType
      exited := fun pid hserver htype => ?_ }
  · refine ⟨fun i => ?_, fun i hi => ?_, ?_, ?_⟩
    · rw [huse.pid]
      exact h.table.pid i
    · rw [huse.pid]
      exact h.table.named i fun hunused => hi ((huse.unused i).mpr hunused)
    · exact (huse.unused 0).mpr h.table.zero
    · exact h.table.last.imp (huse.unused 16).mpr (huse.loading 16).mpr
  · obtain ⟨happ, hpid, hnot⟩ := h.exited pid hserver htype
    exact ⟨happ, hlive pid hpid, hnot⟩

theorem Inv.idle_of_prompt (h : Inv stage s) (hshell : s.shell = .prompt) : stage = .idle := by
  have hagrees := h.agrees
  match stage with
  | .idle => rfl
  | .asked _ | .answered _ | .waiting _ | .ended => simp [Agrees, hshell] at hagrees

/-- A command that the shell starts with. -/
theorem Inv.starts (h : Inv stage s) (pc : ShellPc) (hshell : s.shell = .prompt) (hfree : pc.Free)
    (hspawn : ∀ req, pc = .requesting req → req.type = procSpawn)
    (hkill : ∀ req, pc = .killing req → req.type = procKillall) :
    stage = .idle ∧ Inv .idle { s with shell := pc } := by
  obtain rfl := h.idle_of_prompt hshell
  exact ⟨rfl, { h.base with spawnType := hspawn, killType := hkill }, hfree, h.owes.2⟩

/-- An application calls `exit`. -/
theorem Inv.exit {req : ProcRequest} (h : Inv stage s) (happ : s.app pid = .running)
    (htype : req.type = procExit) :
    Inv stage { s with app := Function.update s.app pid (.exiting req) } := by
  -- the call changes nothing about which applications have stopped
  have hstopped : ∀ q, Function.update s.app pid (.exiting req) q = .stopped ↔ s.app q = .stopped := by
    intro q
    by_cases hq : q = pid
    · subst hq
      simp [happ]
    · rw [Function.update_of_ne hq]
  have hactive : ∀ q, Active { s with app := Function.update s.app pid (.exiting req) } q ↔
      Active s q := by
    intro q
    simp only [Active, ne_eq, hstopped]
  refine ⟨{ h.base with live := ?_, exitType := ?_, exited := ?_ }, ?_⟩
  · intro q hq
    exact h.base.live q fun hs => hq ((hstopped q).mpr hs)
  · intro q req' hq
    by_cases hqp : q = pid
    · subst hqp
      simp only [Function.update_self, AppPc.exiting.injEq] at hq
      exact hq ▸ htype
    · simp only [Function.update_of_ne hqp] at hq
      exact h.base.exitType q req' hq
  · intro q hserver hq
    obtain ⟨hs, hrest⟩ := h.base.exited q hserver hq
    exact ⟨(hstopped q).mpr hs, hrest⟩
  · have howes := h.owes
    match stage with
    | .idle => simpa only [Owes, hactive, Serves] using howes
    | .asked req => exact howes
    | .answered none => exact howes
    | .answered (some pid) => simpa only [Owes, ne_eq, hstopped] using howes
    | .waiting pid => simpa only [Owes, hactive, Serves] using howes
    | .ended => simpa only [Owes, hstopped] using howes

theorem Inv.files (h : Inv stage s) (bin : (Fin 32 → UInt8) → Int) : Inv stage { s with bin } := by
  obtain ⟨hbase, howes⟩ := h
  refine ⟨{ hbase with }, ?_⟩
  match stage with
  | .idle | .asked _ | .answered none | .answered (some _) | .waiting _ | .ended => exact howes

theorem Inv.turn {kernel : Kernel ProcRequest} (h : Inv stage s)
    (huse : SameUse s.kernel.procSet kernel.procSet) : Inv stage { s with kernel } := by
  obtain ⟨hbase, howes⟩ := h
  refine ⟨hbase.turn huse, ?_⟩
  match stage with
  | .idle | .asked _ | .answered none | .answered (some _) | .waiting _ | .ended => exact howes

/-- The server takes the request of the shell to start a command. -/
theorem Inv.handed_spawn {req : ProcRequest} (h : Inv stage s) (hshell : s.shell = .requesting req) :
    ∃ stage', stage.next (.deliver ⟨gpidShell, gpidProcess, req⟩) = some stage' ∧
      Inv stage' { s with shell := .awaitingReply req, server := .handling gpidShell, buf := req } := by
  have hagrees := h.agrees
  obtain ⟨hbase, _⟩ := h
  have htype := hbase.spawnType req hshell
  match stage with
  | .idle =>
    refine ⟨.asked req, by simp [Stage.next, htype], ⟨{ hbase with
      spawnType := fun _ hreq => by cases hreq
      killType := fun _ hreq => by cases hreq
      exited := fun _ _ hexit => ?_ }, rfl, ⟨_, rfl⟩, rfl, htype⟩⟩
    exact absurd (htype.symm.trans hexit) (by decide)
  -- the shell waits for nothing, so it is owed nothing
  | .asked _ | .answered _ | .waiting _ | .ended => simp [Agrees, hshell] at hagrees

/-- The server takes the request of the shell to end all processes. -/
theorem Inv.handed_kill {req : ProcRequest} (h : Inv stage s) (hshell : s.shell = .killing req) :
    ∃ stage', stage.next (.deliver ⟨gpidShell, gpidProcess, req⟩) = some stage' ∧
      Inv stage' { s with shell := .prompt, server := .handling gpidShell, buf := req } := by
  have hagrees := h.agrees
  obtain ⟨hbase, howes⟩ := h
  have htype := hbase.killType req hshell
  have hspawn : ¬ (procKillall = procSpawn) := by decide
  have hexit : ¬ (procKillall = procExit) := by decide
  match stage with
  | .idle =>
    obtain ⟨_, _, hquiet⟩ := howes
    refine ⟨.idle, by simp [Stage.next, htype, hspawn], ⟨{ hbase with
      spawnType := fun _ hreq => by cases hreq
      killType := fun _ hreq => by cases hreq
      exited := fun _ _ hexit' => absurd (htype.symm.trans hexit') hexit },
      trivial, Or.inr ⟨_, rfl, Or.inr htype⟩, fun hwaiting => ?_⟩⟩
    rintro (happ | ⟨_, hexit'⟩)
    · exact hquiet hwaiting (Or.inl happ)
    · exact hexit (htype.symm.trans hexit')
  | .asked _ | .answered _ | .waiting _ | .ended => simp [Agrees, hshell] at hagrees

/-- An application whose `PROC_EXIT` has been taken is heard of no more. -/
theorem Base.handed_exit {req : ProcRequest} (h : Base s) (happ : s.app pid = .exiting req) :
    Base { s with app := Function.update s.app pid .stopped, server := .handling pid
                  buf := req } := by
  have hlive := h.live pid (by simp [happ])
  refine { h with live := ?_, exitType := ?_, exited := ?_ }
  · intro q hq
    by_cases hqp : q = pid
    · simp [hqp] at hq
    · simp only [Function.update_of_ne hqp] at hq
      exact h.live q hq
  · intro q req' hq
    by_cases hqp : q = pid
    · simp [hqp] at hq
    · simp only [Function.update_of_ne hqp] at hq
      exact h.exitType q req' hq
  · intro q hq _
    obtain rfl := ServerPc.handling.inj hq
    exact ⟨Function.update_self _ _ _, hlive⟩

/-- The server takes the `PROC_EXIT` of an application. -/
theorem Inv.handed_exit {req : ProcRequest} (h : Inv stage s) (happ : s.app pid = .exiting req)
    (hserver : s.server = .receiving) :
    ∃ stage', stage.next (.deliver ⟨pid, gpidProcess, req⟩) = some stage' ∧
      Inv stage' { s with app := Function.update s.app pid .stopped, server := .handling pid
                          buf := req } := by
  have hagrees := h.agrees
  obtain ⟨hbase, howes⟩ := h
  have htype := hbase.exitType pid req happ
  have hbase' := hbase.handed_exit happ
  match stage with
  | .idle =>
    have hspawn : ¬ (procExit = procSpawn) := by decide
    obtain ⟨hfree, _, hquiet⟩ := howes
    refine ⟨.idle, by simp [Stage.next, htype, hspawn],
      ⟨hbase', hfree, Or.inr ⟨pid, rfl, Or.inl htype⟩, fun hwaiting => ?_⟩⟩
    -- the application that exits is not the one of `app_pid`
    have hne : s.appPid ≠ pid := by
      rintro rfl
      exact hquiet hwaiting (Or.inl (by simp [happ]))
    rintro (happ' | ⟨hserver', _⟩)
    · simp only [Function.update_of_ne hne] at happ'
      exact hquiet hwaiting (Or.inl happ')
    · exact hne (ServerPc.handling.inj hserver').symm
  | .waiting p =>
    obtain ⟨hshell, _, hwaiting, hpid, hactive⟩ := howes
    refine ⟨.waiting p, by simp [Stage.next, htype],
      ⟨hbase', hshell, Or.inr ⟨pid, rfl, htype⟩, hwaiting, hpid, ?_⟩⟩
    by_cases hp : p = pid
    · exact Or.inr ⟨by rw [hp], htype⟩
    · refine Or.inl ?_
      simp only [Function.update_of_ne hp]
      exact hactive.resolve_right fun hc => by simp [hserver] at hc
  | .asked _ | .answered _ | .ended => simp [Agrees, hserver] at hagrees

theorem Base.handed_answer (h : Base s) (pc : ShellPc) (hspawn : ∀ req, pc ≠ .requesting req)
    (hkill : ∀ req, pc ≠ .killing req) : Base { s with shell := pc, server := .receiving } :=
  { h with
    spawnType := fun req hreq => absurd hreq (hspawn req)
    killType := fun req hreq => absurd hreq (hkill req)
    exited := fun _ hpc => by cases hpc }

/-- The shell takes a message of the server: a reply, or the end of its command. -/
theorem Inv.handed_answer (h : Inv stage s) (hserver : s.server = .sending) :
    ∃ stage', stage.next (.deliver ⟨gpidProcess, gpidShell, s.buf⟩) = some stage' ∧
      Inv stage' { s with shell := s.shell.received s.buf, server := .receiving } := by
  have hagrees := h.agrees
  obtain ⟨hbase, howes⟩ := h
  have hprompt := hbase.handed_answer .prompt (fun _ => by simp) (fun _ => by simp)
  match stage with
  | .answered none =>
    obtain ⟨req, hshell, _, hwaiting, hor⟩ := howes
    have hpc : s.shell.received s.buf = .prompt := by
      rw [hshell, ShellPc.received]
      rcases hor with htype | hlast
      · rw [if_pos htype]
      · simp [hlast]
    rw [hpc]
    exact ⟨.idle, by simp [Stage.next], ⟨hprompt, trivial, Or.inl rfl, by simp [hwaiting]⟩⟩
  | .answered (some p) =>
    obtain ⟨req, hshell, _, hwaiting, hpid, happ, htype, hlast⟩ := howes
    have hpc : s.shell.received s.buf = .awaitingExit := by
      rw [hshell, ShellPc.received, if_neg (by simp [htype]), if_pos hlast]
    rw [hpc]
    exact ⟨.waiting p, by simp [Stage.next],
      ⟨hbase.handed_answer _ (fun _ => by simp) (fun _ => by simp), rfl, Or.inl rfl, hwaiting,
        hpid, Or.inl happ⟩⟩
  | .ended =>
    obtain ⟨hshell, _, happ⟩ := howes
    have hpc : s.shell.received s.buf = .prompt := by rw [hshell, ShellPc.received]
    rw [hpc]
    refine ⟨.idle, by simp [Stage.next], ⟨hprompt, trivial, Or.inl rfl, fun _ => ?_⟩⟩
    rintro (happ' | ⟨hserver', _⟩)
    · exact happ' happ
    · cases hserver'
  | .idle | .asked _ | .waiting _ => simp [Agrees, hserver] at hagrees

/-- A message is handed over. -/
theorem Inv.handed {d : Delivery Int ProcRequest} (h : Inv stage s) (hd : Handed s d s') :
    ∃ stage', stage.next (.deliver d) = some stage' ∧ Inv stage' s' := by
  cases hd with
  | spawn req hshell _ => exact h.handed_spawn hshell
  | kill req hshell _ => exact h.handed_kill hshell
  | exit pid req happ hserver => exact h.handed_exit happ hserver
  | answer hserver _ => exact h.handed_answer hserver

/-- After `proc_free`, the server is done or sends. -/
theorem Base.procFree {pc : ServerPc} (h : Base s) (hpc : ∀ sender, pc ≠ .handling sender)
    (hsystem : ∀ q, IsSystem q → Live (s.kernel.procFree pid) q) :
    Base { s.procFree pid with server := pc } where
  table := (managed_procFree s.kernel pid).table h.table
  system := hsystem
  live q hq := by
    simp only [System.procFree, ne_eq, ite_eq_right_iff, Classical.not_imp] at hq
    exact ⟨hq.1, (h.live q hq.2).2⟩
  exitType q req hq := by
    simp only [System.procFree] at hq
    split_ifs at hq
    exact h.exitType q req hq
  spawnType := h.spawnType
  killType := h.killType
  exited sender hsender := absurd hsender (hpc sender)

theorem procFree_stopped {q : Int} (h : s.app q = .stopped) : (s.procFree pid).app q = .stopped := by
  simp [System.procFree, h]

/-- The request that is handled says at which stage the shell is. -/
theorem Inv.stage_of_handling {sender : Int} (h : Inv stage s)
    (hserver : s.server = .handling sender) :
    (s.buf.type = procSpawn ∧ stage = .asked s.buf) ∨
      (s.buf.type = procExit ∧ (stage = .idle ∨ ∃ pid, stage = .waiting pid)) ∨
        (s.buf.type = procKillall ∧ stage = .idle) := by
  obtain ⟨_, howes⟩ := h
  match stage with
  | .idle =>
    obtain ⟨_, hidle | ⟨_, _, htype | htype⟩, _⟩ := howes
    · simp [hserver] at hidle
    · exact Or.inr (Or.inl ⟨htype, Or.inl rfl⟩)
    · exact Or.inr (Or.inr ⟨htype, rfl⟩)
  | .asked req =>
    obtain ⟨_, _, rfl, htype⟩ := howes
    exact Or.inl ⟨htype, rfl⟩
  | .answered none =>
    obtain ⟨_, _, hsending, _⟩ := howes
    simp [hserver] at hsending
  | .answered (some pid) =>
    obtain ⟨_, _, hsending, _⟩ := howes
    simp [hserver] at hsending
  | .waiting pid =>
    obtain ⟨_, hidle | ⟨_, _, htype⟩, _⟩ := howes
    · simp [hserver] at hidle
    · exact Or.inr (Or.inl ⟨htype, Or.inr ⟨pid, rfl⟩⟩)
  | .ended =>
    obtain ⟨_, hsending, _⟩ := howes
    simp [hserver] at hsending

theorem Inv.asked_of_spawn {sender : Int} (h : Inv stage s) (hserver : s.server = .handling sender)
    (htype : s.buf.type = procSpawn) : stage = .asked s.buf := by
  rcases h.stage_of_handling hserver with ⟨_, hstage⟩ | ⟨hexit, _⟩ | ⟨hkill, _⟩
  · exact hstage
  · exact absurd (htype.symm.trans hexit) (by decide)
  · exact absurd (htype.symm.trans hkill) (by decide)

/-- `PROC_SPAWN` for a program that is found. -/
theorem Inv.spawned {kernel : Kernel ProcRequest} (h : Inv (.asked s.buf) s)
    (halloc : s.kernel.procAlloc = .ok (pid, kernel)) :
    Inv (.answered (if s.buf.lastArg = ampersand then none else some pid))
      { s with
        buf := { s.buf with type := cmdOk }
        shellWaiting := decide (s.buf.lastArg ≠ ampersand)
        server := .sending
        appPid := pid
        kernel := kernel.procSetReady pid
        app := Function.update s.app pid .running } := by
  obtain ⟨hbase, hshell, _, _, _⟩ := h
  obtain ⟨hnew, hpid, htable, hlive⟩ := live_alloc hbase.table halloc
  constructor
  · refine
      { table := htable
        system := fun q hq => hlive q (hbase.system q hq)
        live := fun q hq => ?_
        exitType := fun q req hq => ?_
        spawnType := hbase.spawnType
        killType := hbase.killType
        exited := fun q hq => by cases hq }
    · by_cases hqp : q = pid
      · -- the system processes are in use, so the new pid is none of theirs
        rw [hqp]
        exact ⟨hpid, fun hsys => hnew (hbase.system pid hsys)⟩
      · simp only [Function.update_of_ne hqp] at hq
        exact ⟨hlive q (hbase.live q hq).1, (hbase.live q hq).2⟩
    · by_cases hqp : q = pid
      · simp [hqp] at hq
      · simp only [Function.update_of_ne hqp] at hq
        exact hbase.exitType q req hq
  · by_cases hlast : s.buf.lastArg = ampersand
    · simp only [hlast, if_true]
      exact ⟨s.buf, hshell, rfl, by simp, Or.inr hlast⟩
    · simp only [hlast, if_false]
      exact ⟨s.buf, hshell, rfl, by simp [hlast], rfl, by simp, rfl, hlast⟩

/-- `PROC_EXIT`: if the shell waits, exactly the process it waits for makes `sys_proc` send. -/
theorem Inv.exited {sender : Int} (h : Inv stage s) (hserver : s.server = .handling sender)
    (htype : s.buf.type = procExit) :
    ∃ stage', stage.next (.freed sender) = some stage' ∧ Inv stage' { s.procFree sender with
      server := if s.shellWaiting ∧ s.appPid = sender then .sending else .receiving } := by
  have hstage := h.stage_of_handling hserver
  obtain ⟨hbase, howes⟩ := h
  obtain ⟨happ, hlive, hnot⟩ := hbase.exited sender hserver htype
  have hall : sender ≠ gpidAll := by
    obtain ⟨i, rfl, _⟩ := hlive
    simp only [gpidAll]
    omega
  have hkept : ∀ q, q ≠ sender → Live s.kernel q → Live (s.kernel.procFree sender) q :=
    fun q hq hq' => hq'.procFree hbase.table fun hrel => hrel.elim hq fun hc => hall hc.1
  have hbase' : ∀ pc : ServerPc, (∀ q, pc ≠ .handling q) →
      Base { s.procFree sender with server := pc } :=
    fun pc hpc => hbase.procFree hpc fun q hq =>
      hkept q (fun hqs => hnot (hqs ▸ hq)) (hbase.system q hq)
  rcases hstage with ⟨hspawn, _⟩ | ⟨_, rfl | ⟨p, rfl⟩⟩ | ⟨hkill, _⟩
  · exact absurd (hspawn.symm.trans htype) (by decide)
  · -- the shell waits for nobody: `app_pid` may be stale, but its process is not this one
    obtain ⟨hfree, _, hquiet⟩ := howes
    have hno : ¬ (s.shellWaiting = true ∧ s.appPid = sender) := by
      rintro ⟨hwaiting, rfl⟩
      exact hquiet hwaiting (Or.inr ⟨hserver, htype⟩)
    rw [if_neg hno]
    refine ⟨.idle, rfl, ⟨hbase' _ (by simp), hfree, Or.inl rfl, fun hwaiting => ?_⟩⟩
    rintro (happ' | ⟨hserver', _⟩)
    · exact happ' (procFree_stopped (not_not.mp fun hc => hquiet hwaiting (Or.inl hc)))
    · cases hserver'
  · -- the shell waits: `sys_proc` sends exactly for the process of its command
    obtain ⟨hshell, _, hwaiting, rfl, hactive⟩ := howes
    by_cases hsender : s.appPid = sender
    · rw [if_pos ⟨hwaiting, hsender⟩]
      exact ⟨.ended, by simp [Stage.next, hsender],
        ⟨hbase' _ (by simp), hshell, rfl, procFree_stopped (hsender ▸ happ)⟩⟩
    · rw [if_neg fun hc => hsender hc.2]
      have happ' : s.app s.appPid ≠ .stopped := hactive.resolve_right fun hc => by
        exact hsender (ServerPc.handling.inj (hc.1.symm.trans hserver))
      refine ⟨.waiting s.appPid, by simp [Stage.next, Ne.symm hsender],
        ⟨hbase' _ (by simp), hshell, Or.inl rfl, hwaiting, rfl, Or.inl ?_⟩⟩
      simp only [System.procFree, if_pos (hkept _ hsender (hbase.live _ happ').1)]
      exact happ'
  · exact absurd (hkill.symm.trans htype) (by decide)

/-- A request is handled. -/
theorem Inv.handled {sender : Int} {label : Label} (h : Inv stage s)
    (hserver : s.server = .handling sender) (hh : Handled s sender label s') :
    ∃ stage', stage.next label = some stage' ∧ Inv stage' s' := by
  cases hh with
  | notFound htype =>
    obtain rfl := h.asked_of_spawn hserver htype
    obtain ⟨hbase, hshell, _, _, _⟩ := h
    exact ⟨_, rfl, ⟨{ hbase with exited := fun _ hpc => by cases hpc },
      s.buf, hshell, rfl, rfl, Or.inl (by simp [cmdError, cmdOk])⟩⟩
  | spawned pid kernel htype halloc =>
    obtain rfl := h.asked_of_spawn hserver htype
    exact ⟨_, rfl, h.spawned halloc⟩
  | exit htype => exact h.exited hserver htype
  | killall htype =>
    rcases h.stage_of_handling hserver with ⟨hspawn, _⟩ | ⟨hexit, _⟩ | ⟨_, rfl⟩
    · exact absurd (hspawn.symm.trans htype) (by decide)
    · exact absurd (hexit.symm.trans htype) (by decide)
    · -- `GPID_ALL` frees the user processes only
      obtain ⟨hbase, hfree, _, hquiet⟩ := h
      refine ⟨.idle, rfl,
        ⟨hbase.procFree (by simp) fun q hq => ?_, hfree, Or.inl rfl, fun hwaiting => ?_⟩⟩
      · refine (hbase.system q hq).procFree hbase.table ?_
        obtain ⟨hpos, hle⟩ := hq
        simp only [gpidProcess, gpidShell, gpidAll, gpidUserStart] at hpos hle ⊢
        omega
      · rintro (happ | ⟨hserver', _⟩)
        · exact happ (procFree_stopped (not_not.mp fun hc => hquiet hwaiting (Or.inl hc)))
        · cases hserver'

/-- Every step is allowed by the agreement. -/
theorem Inv.step {label : Label} (h : Inv stage s) (hs : Step s label s') :
    ∃ stage', stage.next label = some stage' ∧ Inv stage' s' := by
  cases hs with
  | command req hshell htype _ _ =>
    obtain ⟨rfl, hinv⟩ := h.starts (.requesting req) hshell trivial
      (fun _ hreq => by cases hreq; exact htype) (fun _ hreq => by cases hreq)
    exact ⟨.idle, rfl, hinv⟩
  | killall req hshell htype =>
    obtain ⟨rfl, hinv⟩ := h.starts (.killing req) hshell trivial
      (fun _ hreq => by cases hreq) (fun _ hreq => by cases hreq; exact htype)
    exact ⟨.idle, rfl, hinv⟩
  | exit pid req happ htype => exact ⟨stage, rfl, h.exit happ htype⟩
  | deliver d hfits => exact h.handed (handed_of_fits hfits)
  | handle sender label s' hserver hhandle => exact h.handled hserver (handled_of_handle hhandle)
  | files bin => exact ⟨stage, rfl, h.files bin⟩
  | turn kernel huse => exact ⟨stage, rfl, h.turn huse⟩

/-- Every run is allowed by the agreement. -/
theorem Start.run {s₀ : System} {log : List Label} (h₀ : Start s₀) (hrun : Run Step s₀ log s) :
    ∃ stage, log.foldlM Stage.next .idle = some stage ∧ Inv stage s := by
  refine hrun.invariant_log (P := fun log s => ∃ stage, log.foldlM Stage.next .idle = some stage ∧
    Inv stage s) ⟨.idle, rfl, h₀.inv⟩ ?_
  rintro log t label u ⟨stage, hlog, hinv⟩ hstep
  obtain ⟨stage', hnext, hinv'⟩ := hinv.step hstep
  exact ⟨stage', by simp [List.foldlM_append, hlog, hnext], hinv'⟩

end Egos.Apps
