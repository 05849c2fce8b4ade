import Egos.Whole.Mirror
import Egos.Whole.Runs

/-!
# The Whole System and the Smaller One

Every run of the whole system, from the start of the shell on, is a run of the smaller system of
`Egos.Apps.System` (`Booting.abstracts`), and the agreement of the shell and `sys_proc` that holds
there holds here (`Booting.agreement`).

- An entry of the kernel is a call and perhaps a delivery (`Abstracts.entry`).
- A call of process management is at most the handling of one request.
- The smaller system starts with the last `sys_spawn` (`Coupled.withShell`).
-/

namespace Egos.Whole

open Egos.Lib Egos.Lib.Rendezvous Egos.Grass Egos.Apps

variable {μ : Type} {v : View μ} {decode : μ → ProcRequest} {loc : Int → Loc μ}
  {waiting : Waiting Int Int μ} {appPid : Int} {shellWaiting : Bool} {s s' : System}
  {w w' : World μ}

/-- The smaller system for a state of the whole one. Of the process table it has the slots in
    use. -/
structure Abstracts (v : View μ) (decode : μ → ProcRequest) (w : World μ) (s : System) : Prop where
  mirrors : Mirrors v decode w.loc (waitingOf w.kernel.procSet) w.appPid w.shellWaiting s
  table : Table s.kernel.procSet
  unused : ∀ i, (s.kernel.procSet i).status = .unused ↔ (w.kernel.procSet i).status = .unused

/-! ## Entries of the kernel -/

/-- The smaller system follows to a state for this one. -/
def Followed (v : View μ) (decode : μ → ProcRequest) (s : System) (w : World μ) : Prop :=
  ∃ log s', Run Apps.Step s log s' ∧ Abstracts v decode w s'

/-- An entry of the kernel is at most two steps of the smaller system. -/
theorem Abstracts.entry (hdecode : Decodes v decode) (h : Abstracts v decode w s)
    (hcoupled : Coupled v w) {call : Option (Request Int Int μ)}
    (hcall : ∀ c, call = some c → Makes v (w.loc w.kernel.curr.pid) c) {k : Kernel μ}
    {delivery : Option (Delivery Int μ)} (hmoved : Moved w.kernel call delivery k) :
    Followed v decode s (w.resume v call k) := by
  have hbase := hcoupled.talk.base
  have hissue : Leads s (Mirrors v decode w.loc
      (issue (waitingOf w.kernel.procSet) w.kernel.curr.pid call) w.appPid w.shellWaiting) := by
    cases call with
    | none => exact .here h.mirrors
    | some c =>
      exact h.mirrors.issue hdecode hbase (fun _ => hcoupled.absent_of_loads)
        hcoupled.ordered.waiting_curr (hcall c rfl)
  -- the kernel makes at most one delivery, with the new call among the unfinished ones
  have hdeliver : Leads s (Mirrors v decode (advance (program v) w.loc delivery)
      (waitingOf k.procSet) w.appPid w.shellWaiting) := by
    refine hissue.trans fun s' hmirrors => ?_
    have hstep := hmoved.step
    generalize waitingOf k.procSet = waiting' at hstep ⊢
    cases hstep with
    | wait => exact .here hmirrors
    | deliver _ hfits =>
      have hx := hcoupled.talk.exchange (hcoupled.coherent.issue hcall) hfits
      exact hmirrors.deliver hdecode hbase hfits hx
  obtain ⟨log, s', hrun, hkernel, hmirrors⟩ := hdeliver
  refine ⟨log, s', hrun, ?_, hkernel ▸ h.table, fun i => ?_⟩
  · rw [loc_resume hmoved]
    exact hmirrors
  · rw [hkernel, h.unused]
    exact (hmoved.use.unused i).symm

/-- Ctrl+c is no step of the smaller system: the application goes on to `exit`. -/
theorem Abstracts.ticked (h : Abstracts v decode w s) (hcoupled : Coupled v w)
    (key : Option UInt8) : Abstracts v decode (w.ticked key) s := by
  unfold World.ticked
  split_ifs with hkey
  · obtain ⟨l, hl⟩ := hcoupled.app_of_interrupts hkey
    have hne := hcoupled.talk.base.app_ne hl
    have hmirrors : Mirrors v decode (Function.update w.loc w.kernel.curr.pid (.app .exit))
        (waitingOf w.kernel.procSet) w.appPid w.shellWaiting s := by
      refine h.mirrors.silent ?_ ?_ fun pid => ?_
      · rw [Function.update_of_ne hne.2.symm]
      · rw [Function.update_of_ne hne.1.symm]
        exact .refl _
      · by_cases hpid : pid = w.kernel.curr.pid
        · rw [hpid, Function.update_self, hl, hcoupled.ordered.waiting_curr]
          rfl
        · rw [Function.update_of_ne hpid]
    exact ⟨hmirrors, h.table, h.unused⟩
  · exact h

/-! ## Process management -/

section Manage

theorem Abstracts.of_bin (h : Abstracts v decode w s) (bin : (Fin 32 → UInt8) → Int) :
    Abstracts v decode w { s with bin } :=
  ⟨⟨h.mirrors.shell, h.mirrors.server, h.mirrors.buf, h.mirrors.appPid, h.mirrors.shellWaiting,
    h.mirrors.app⟩, h.table, h.unused⟩

/-- `sys_proc` has handled a request. -/
theorem Followed.of_handled {sender : Int} {label : Apps.Label}
    (hserver : s.server = .handling sender) (hhandled : Handled s sender label s')
    (h : Abstracts v decode w s') : Followed v decode s w := by
  obtain ⟨bin, hrun⟩ := run_of_handled hserver hhandled
  exact ⟨_, _, hrun, h.of_bin bin⟩

theorem ownPc_goto {l l' : ProcLoc μ} (hloc : loc gpidProcess = .proc l) (pid : Int)
    (call : Option (Request Int Int μ)) :
    ownPc decode (Function.update loc gpidProcess (.proc l') pid) call =
      ownPc decode (loc pid) call := by
  by_cases hpid : pid = gpidProcess
  · rw [hpid, Function.update_self, hloc]
    rfl
  · rw [Function.update_of_ne hpid]

/-- Processes that are there after process management wait as before. -/
theorem Coupled.waiting_eq (h : Coupled v w') (hm : Managed w.kernel.procSet w'.kernel.procSet)
    (pid : Int) (hpid : w'.loc pid ≠ .absent) :
    waitingOf w'.kernel.procSet pid = waitingOf w.kernel.procSet pid := by
  obtain ⟨i, rfl⟩ := h.talk.base.slot hpid
  exact hm.waiting_eq ((h.seated.loaded i).mpr hpid).1

theorem Coupled.ownPc_managed (h : Coupled v w')
    (hm : Managed w.kernel.procSet w'.kernel.procSet) (pid : Int) :
    ownPc decode (w'.loc pid) (waitingOf w'.kernel.procSet pid) =
      ownPc decode (w'.loc pid) (waitingOf w.kernel.procSet pid) := by
  by_cases hpid : w'.loc pid = .absent
  · rw [hpid]
    rfl
  · rw [h.waiting_eq hm pid hpid]

theorem appPc_eq_ownPc {proc l : Loc μ} (hreleases : proc.releases = none)
    (hloads : proc.loads = none) (call : Option (Request Int Int μ)) (pid : Int) :
    appPc decode proc l call pid = ownPc decode l call := by
  have hnone : (none : Option Int) ≠ some pid := nofun
  rw [appPc, hreleases, hloads, if_neg hnone, if_neg hnone]

/-- `sys_proc` has gone on. -/
theorem mirrors_goto {l : ProcLoc μ}
    (hshell : s.shell = shellPc v decode (loc gpidShell) (waiting gpidShell))
    (hserver : s.server = serverPc (.proc l : Loc μ)) (hbuf : BufOk decode (.proc l) s.buf)
    (happPid : s.appPid = appPid) (hwaits : s.shellWaiting = waits v (.proc l) shellWaiting)
    (happ : ∀ pid, s.app pid = appPc decode (.proc l)
      (Function.update loc gpidProcess (.proc l) pid) (waiting pid) pid) :
    Mirrors v decode (Function.update loc gpidProcess (.proc l)) waiting appPid shellWaiting s := by
  refine ⟨?_, ?_, ?_, happPid, ?_, ?_⟩
  · rwa [Function.update_of_ne shell_ne_process]
  · rwa [Function.update_self]
  · rwa [Function.update_self]
  · rwa [Function.update_self]
  · rwa [Function.update_self]

/-- `app_spawn` has found no such program. -/
theorem Abstracts.fail (h : Abstracts v decode w s) {req : μ}
    (hloc : w.loc gpidProcess = .proc (.looked req false)) :
    Followed v decode s ({ w with shellWaiting := false }.goto gpidProcess
      (.proc (.answer req cmdError))) := by
  have hserver : s.server = .handling gpidShell := h.mirrors.server_at hloc
  have hbuf := h.mirrors.buf_at hloc
  refine .of_handled hserver (.notFound hbuf.2) ⟨?_, h.table, h.unused⟩
  refine mirrors_goto h.mirrors.shell rfl rfl h.mirrors.appPid rfl fun pid => ?_
  rw [appPc_eq_ownPc rfl rfl, ownPc_goto hloc]
  refine (h.mirrors.app pid).trans (appPc_eq_ownPc ?_ ?_ _ _) <;> rw [hloc] <;> rfl

/-- The shell waits for its reply, whether the kernel has the call or not. -/
theorem Abstracts.shell_of_reply (h : Abstracts v decode w s) {req : μ}
    (hshell : w.loc gpidShell = .shell (.reply req)) {call : Option (Request Int Int μ)} :
    s.shell = shellPc v decode (w.loc gpidShell) call := by
  rw [h.mirrors.shell_at hshell rfl, hshell]
  rfl

/-- The command that `sys_proc` is starting. -/
def Loc.spawns : Loc μ → Option μ
  | .proc (.read req _) | .proc (.block req _) | .proc (.looked req _) => some req
  | _ => none

/-- Its sender, the shell, waits for the reply. -/
theorem Talk.shell_of_spawns (h : Talk v loc appPid shellWaiting) {req : μ}
    (hspawns : (loc gpidProcess).spawns = some req) : loc gpidShell = .shell (.reply req) := by
  have hjoint := h.joint
  generalize loc gpidProcess = l at hspawns hjoint
  generalize loc gpidShell = l' at hjoint ⊢
  cases hjoint <;> cases hspawns
  all_goals rfl

/-- `app_spawn` has called `proc_alloc`. -/
theorem Abstracts.alloc (hdecode : Decodes v decode) (h : Abstracts v decode w s)
    (htalk : Talk v w.loc w.appPid w.shellWaiting) {req : μ} {pid : Int} {k : Kernel μ}
    (hloc : w.loc gpidProcess = .proc (.looked req true))
    (halloc : w.kernel.procAlloc = .ok (pid, k))
    (hcoupled : Coupled v ({ w with kernel := k, appPid := pid }.goto gpidProcess
      (.proc (.read req (.load pid))))) :
    Followed v decode s ({ w with kernel := k, appPid := pid }.goto gpidProcess
      (.proc (.read req (.load pid)))) := by
  have hserver : s.server = .handling gpidShell := h.mirrors.server_at hloc
  have hbuf := h.mirrors.buf_at hloc
  have hm := managed_procAlloc halloc
  -- both tables have the same slots in use, so both calls return the same pid
  obtain ⟨k', halloc'⟩ := procAlloc_congr h.unused halloc
  obtain ⟨_, _, htable, _⟩ := live_alloc h.table halloc'
  refine .of_handled hserver (.spawned pid k' hbuf.2 halloc') ⟨?_, htable, fun i => ?_⟩
  · refine mirrors_goto ?_ rfl rfl rfl ?_ fun q => ?_
    · exact h.shell_of_reply (htalk.shell_of_spawns (by rw [hloc]; rfl))
    · show decide (s.buf.lastArg ≠ ampersand) = !v.background req
      rw [hbuf.1, decide_not]
      simp only [hdecode.background, Bool.decide_eq_true]
    · show Function.update s.app pid .running q = _
      by_cases hq : q = pid
      · rw [hq, Function.update_self]
        exact (if_pos rfl).symm
      · have hnot : (Loc.proc (.read req (.load pid))).loads ≠ some q :=
          fun heq => hq (Option.some.inj heq).symm
        have hnone : (Loc.proc (.read req (.load pid))).releases ≠ some q :=
          (Option.some_ne_none q).symm
        rw [Function.update_of_ne hq, h.mirrors.app, hloc, appPc_eq_ownPc rfl rfl, appPc,
          if_neg hnone, if_neg hnot, ← ownPc_goto hloc]
        exact (hcoupled.ownPc_managed hm q).symm
  · have hloading : IsLoading k' pid := by
      obtain ⟨j, _, _, rfl, rfl⟩ := procAlloc_ok halloc'
      refine ⟨j, ?_, ?_⟩ <;> rw [Kernel.setProc_self]
    have htable' := (managed_procAlloc halloc').table h.table
    show ((k'.procSetReady pid).procSet i).status = .unused ↔ (k.procSet i).status = .unused
    rw [procSetReady_unused_iff htable' hloading, procAlloc_unused_iff halloc',
      procAlloc_unused_iff halloc, h.unused]

/-- The process is ready. The smaller system has taken it for started at `proc_alloc`. -/
theorem Abstracts.ready (h : Abstracts v decode w s) (hcoupled : Coupled v w) {req : μ} {pid : Int}
    (hloc : w.loc gpidProcess = .proc (.read req (.load pid)))
    (hcoupled' : Coupled v (({ w with
      kernel := w.kernel.procSetReady pid
      shellWaiting := !v.background req }.goto pid (.app .run)).goto gpidProcess
        (.proc (.answer req cmdOk)))) :
    Abstracts v decode (({ w with
      kernel := w.kernel.procSetReady pid
      shellWaiting := !v.background req }.goto pid (.app .run)).goto gpidProcess
        (.proc (.answer req cmdOk))) s := by
  have hloads : (w.loc gpidProcess).loads = some pid := by
    rw [hloc]
    rfl
  have habsent := hcoupled.absent_of_loads hloads
  have hshell : w.loc gpidShell = .shell (.reply req) :=
    hcoupled.talk.shell_of_spawns (by rw [hloc]; rfl)
  have hnotShell : gpidShell ≠ pid := by
    rintro rfl
    cases hshell.symm.trans habsent
  have hnotProcess : gpidProcess ≠ pid := by
    rintro rfl
    cases hloc.symm.trans habsent
  obtain ⟨i, _, rfl⟩ := hcoupled.loads_slot hloads
  have hloading := hcoupled.isLoading hloads
  have hm := managed_procSetReady hcoupled.ordered.table hloading
  have hserver := h.mirrors.server_at hloc
  have hbuf := h.mirrors.buf_at hloc
  refine ⟨?_, h.table, fun j => ?_⟩
  · refine mirrors_goto ?_ ?_ ?_ h.mirrors.appPid ?_ fun q => ?_
    · show s.shell = shellPc v decode (Function.update w.loc i.val (.app .run) gpidShell) _
      rw [Function.update_of_ne hnotShell]
      exact h.shell_of_reply hshell
    · exact hserver
    · exact hbuf
    · exact h.mirrors.waits_at hloc
    · -- the process itself goes from loaded to running, all others are as before
      rw [appPc_eq_ownPc rfl rfl]
      by_cases hq : q = i.val
      · have hnone := hloading.waitingOf_ready hcoupled.ordered.table
        show _ = ownPc decode (Function.update (Function.update w.loc i.val (.app .run)) _ _ q)
          (waitingOf (w.kernel.procSetReady i.val).procSet q)
        rw [h.mirrors.app, hq, hnone, Function.update_of_ne hnotProcess.symm, Function.update_self,
          appPc, hloads, if_pos rfl, hloc]
        rfl
      · have hnot : (w.loc gpidProcess).loads ≠ some q := by
          rw [hloads]
          exact fun heq => hq (Option.some.inj heq).symm
        refine Eq.trans ?_ (hcoupled'.ownPc_managed hm q).symm
        show _ = ownPc decode (Function.update (Function.update w.loc i.val (.app .run)) _ _ q) _
        have hproc : Function.update w.loc i.val (.app .run) gpidProcess = _ :=
          (Function.update_of_ne hnotProcess _ _).trans hloc
        rw [ownPc_goto hproc, Function.update_of_ne hq, h.mirrors.app, appPc, if_neg hnot, hloc]
        rfl
  · show _ ↔ ((w.kernel.procSetReady i.val).procSet j).status = .unused
    rw [procSetReady_unused_iff hcoupled.ordered.table hloading, h.unused]

theorem procFree_unused_iff {ν : Type} {k : Kernel ν} (htable : Table k.procSet) {pid : Int}
    {i : Slot} :
    ((k.procFree pid).procSet i).status = .unused ↔
      (k.procSet i).status = .unused ∨ (i.val < 16 ∧ Released pid i.val) := by
  by_cases hi : (k.procSet i).status = .unused
  · refine iff_of_true ?_ (Or.inl hi)
    by_contra hused
    exact (procFree_used hused).1 hi
  · rw [← freed_iff htable hi, or_iff_right hi]
    constructor
    · intro hunused
      by_contra hnot
      rw [procFree_not_freed hnot] at hunused
      exact hi hunused
    · intro hfreed
      rw [procFree_freed hfreed]

theorem live_val_iff {k : Kernel ProcRequest} {i : Slot} :
    Live k i.val ↔ (k.procSet i).status ≠ .unused := by
  constructor
  · rintro ⟨j, hj, hused⟩
    obtain rfl : i = j := Fin.ext (Int.ofNat_inj.mp hj)
    exact hused
  · exact fun hused => ⟨i, rfl, hused⟩

theorem ownPc_eq_stopped {l : Loc μ} (h : ∀ a, l ≠ .app a) (call : Option (Request Int Int μ)) :
    ownPc decode l call = .stopped := by
  cases l with
  | app a => exact absurd rfl (h a)
  | _ => rfl

/-- The applications after `proc_free`. -/
theorem Abstracts.app_procFree (h : Abstracts v decode w s) (hcoupled : Coupled v w) {pid : Int}
    (hloads : (w.loc gpidProcess).loads = none)
    (hreleases : ∀ q, (w.loc gpidProcess).releases = some q → Released pid q) (q : Int) :
    (s.procFree pid).app q =
      ownPc decode ((w.procFree pid).loc q) (waitingOf w.kernel.procSet q) := by
  show (if Live (s.kernel.procFree pid) q then s.app q else .stopped) =
    ownPc decode (if Released pid q then .absent else w.loc q) _
  have happ : s.app q = if (w.loc gpidProcess).releases = some q then .stopped
      else ownPc decode (w.loc q) (waitingOf w.kernel.procSet q) := by
    rw [h.mirrors.app, appPc, hloads, if_neg (Option.some_ne_none q).symm]
  -- only slots of applications are released, and what is no application is stopped anyway
  by_cases hq : ∃ a, w.loc q = .app a
  · obtain ⟨a, ha⟩ := hq
    have hpresent : w.loc q ≠ .absent := by
      intro habsent
      cases ha.symm.trans habsent
    obtain ⟨i, rfl⟩ := hcoupled.talk.base.slot hpresent
    have hloaded := (hcoupled.seated.loaded i).mpr hpresent
    have hlt := hcoupled.ordered.table.lt_of_loaded hloaded
    have hlive : Live (s.kernel.procFree pid) i.val ↔ ¬ Released pid i.val := by
      rw [live_val_iff, Ne, procFree_unused_iff h.table, h.unused, or_iff_right hloaded.1,
        and_iff_right hlt]
    by_cases hr : Released pid i.val
    · rw [if_pos hr, if_neg (not_not.mpr hr ∘ hlive.mp)]
      rfl
    · rw [if_neg hr, if_pos (hlive.mpr hr), happ, if_neg (hr ∘ hreleases i.val)]
  · have hnot : ∀ a, w.loc q ≠ .app a := fun a ha => hq ⟨a, ha⟩
    rw [happ, ownPc_eq_stopped hnot, ite_self, ite_self, ownPc_eq_stopped]
    intro a ha
    split_ifs at ha
    exact hnot a ha

/-- `proc_free`, before `sys_proc` waits for the next request or tells the shell. -/
theorem Abstracts.free (h : Abstracts v decode w s) (hcoupled : Coupled v w) {pid : Int}
    (huser : ∀ q, Released pid q → gpidUserStart ≤ q) (hup : w.loc gpidShell ≠ .absent)
    (hloads : (w.loc gpidProcess).loads = none)
    (hreleases : ∀ q, (w.loc gpidProcess).releases = some q → Released pid q)
    (hwaits : waits v (w.loc gpidProcess) w.shellWaiting = w.shellWaiting) {l : ProcLoc μ}
    (hl : l = .serve ∨ l = .notify)
    (hcoupled' : Coupled v ((w.procFree pid).goto gpidProcess (.proc l))) :
    Abstracts v decode ((w.procFree pid).goto gpidProcess (.proc l))
      { s.procFree pid with server := serverPc (.proc l : Loc μ) } := by
  have hm := managed_procFree w.kernel pid
  have hshell : (w.procFree pid).loc gpidShell = w.loc gpidShell :=
    if_neg fun hr => absurd (huser _ hr) (by decide)
  obtain ⟨l₀, hproc⟩ : ∃ l₀, (w.procFree pid).loc gpidProcess = .proc l₀ := by
    obtain ⟨l₀, hl₀⟩ := hcoupled.talk.base.at_process
    exact ⟨l₀, (if_neg fun hr => absurd (huser _ hr) (by decide)).trans hl₀⟩
  refine ⟨?_, (managed_procFree s.kernel pid).table h.table, fun i => ?_⟩
  · refine mirrors_goto ?_ rfl ?_ h.mirrors.appPid ?_ fun q => ?_
    · have hpresent :
          Function.update (w.procFree pid).loc gpidProcess (.proc l) gpidShell ≠ .absent := by
        rwa [Function.update_of_ne shell_ne_process, hshell]
      have hwaiting := hcoupled'.waiting_eq hm gpidShell hpresent
      rw [hshell]
      exact h.mirrors.shell.trans (congrArg _ hwaiting.symm)
    · rcases hl with rfl | rfl <;> trivial
    · rcases hl with rfl | rfl <;> exact h.mirrors.shellWaiting.trans hwaits
    · rw [appPc_eq_ownPc (by rcases hl with rfl | rfl <;> rfl)
        (by rcases hl with rfl | rfl <;> rfl)]
      refine Eq.trans ?_ ((ownPc_goto hproc q _).symm.trans (hcoupled'.ownPc_managed hm q).symm)
      exact h.app_procFree hcoupled hloads hreleases q
  · show ((s.kernel.procFree pid).procSet i).status = .unused ↔
      ((w.kernel.procFree pid).procSet i).status = .unused
    rw [procFree_unused_iff h.table, procFree_unused_iff hcoupled.ordered.table, h.unused]

/-- `case PROC_EXIT` -/
theorem Abstracts.release (h : Abstracts v decode w s) (hcoupled : Coupled v w)
    (hup : w.loc gpidShell ≠ .absent) {sender : Int}
    (hloc : w.loc gpidProcess = .proc (.release sender))
    (hcoupled' : Coupled v ((w.procFree sender).goto gpidProcess (.proc
      (if w.shellWaiting = true ∧ w.appPid = sender then .notify else .serve)))) :
    Followed v decode s ((w.procFree sender).goto gpidProcess (.proc
      (if w.shellWaiting = true ∧ w.appPid = sender then .notify else .serve))) := by
  have huser := hcoupled.talk.user_of_release hloc
  have hreleased : ∀ q, Released sender q ↔ q = sender := by
    intro q
    rw [Released, if_pos]
    rintro rfl
    exact absurd huser (by decide)
  have hserver : s.server = .handling sender := h.mirrors.server_at hloc
  have hbuf := h.mirrors.buf_at hloc
  have hwaits : waits v (w.loc gpidProcess) w.shellWaiting = w.shellWaiting := by
    rw [hloc]
    rfl
  -- both take the process for the foreground command, or neither does
  have hpc : (if s.shellWaiting = true ∧ s.appPid = sender then ServerPc.sending else .receiving) =
      serverPc (.proc (if w.shellWaiting = true ∧ w.appPid = sender then .notify else .serve) :
        Loc μ) := by
    rw [h.mirrors.shellWaiting, hwaits, h.mirrors.appPid]
    split_ifs <;> rfl
  refine .of_handled hserver (.exit hbuf) ?_
  rw [hpc]
  refine h.free hcoupled (fun q hq => ?_) hup ?_ (fun q hq => ?_) hwaits ?_ hcoupled'
  · rw [(hreleased q).mp hq]
    exact huser
  · rw [hloc]
    rfl
  · rw [hloc] at hq
    exact (hreleased q).mpr (Option.some.inj hq).symm
  · split_ifs
    · exact Or.inr rfl
    · exact Or.inl rfl

/-- `case PROC_KILLALL` -/
theorem Abstracts.releaseAll (h : Abstracts v decode w s) (hcoupled : Coupled v w)
    (hup : w.loc gpidShell ≠ .absent) (hloc : w.loc gpidProcess = .proc .releaseAll)
    (hcoupled' : Coupled v ((w.procFree gpidAll).goto gpidProcess (.proc .serve))) :
    Followed v decode s ((w.procFree gpidAll).goto gpidProcess (.proc .serve)) := by
  have huser : ∀ q, Released gpidAll q → gpidUserStart ≤ q := fun _ hq => hq
  have hserver : s.server = .handling gpidShell := h.mirrors.server_at hloc
  have hbuf := h.mirrors.buf_at hloc
  refine .of_handled hserver (.killall hbuf) ?_
  refine h.free hcoupled huser hup ?_ (fun q hq => ?_) ?_ (Or.inl rfl) hcoupled'
  · rw [hloc]
    rfl
  · rw [hloc] at hq
    cases hq
  · rw [hloc]
    rfl

end Manage

/-! ## Runs -/

/-- The shell is not there before `sys_proc` has started it. -/
theorem Talk.shell_absent (h : Talk v loc appPid shellWaiting)
    (hup : (loc gpidProcess).up ≠ 3) : loc gpidShell = .absent := by
  have hjoint := h.joint
  generalize loc gpidProcess = l at hup hjoint
  generalize loc gpidShell = l' at hjoint ⊢
  cases hjoint with
  | boot | bootLoad | hear => rfl
  | _ => exact absurd rfl hup

theorem Abstracts.step (hdecode : Decodes v decode) (h : Abstracts v decode w s)
    (hcoupled : Coupled v w) (hup : w.loc gpidShell ≠ .absent) {label : Label μ}
    (hstep : SafeStep v w label w') : Followed v decode s w' := by
  have hcoupled' := hcoupled.step hstep
  have hbooted : (w.loc gpidProcess).up = 3 := by
    by_contra hne
    exact hup (hcoupled.talk.shell_absent hne)
  obtain ⟨hstep, hsafe⟩ := hstep
  cases hstep with
  -- entries of the kernel
  | @call c key ctx ctx' k hmakes hentry =>
    obtain ⟨_, delivery, hmoved⟩ := (hcoupled.ordered.wp_call c 2 key ctx).of_ok hentry
    refine h.entry hdecode hcoupled ?_ hmoved
    rintro _ ⟨⟩
    exact hmakes
  | @tick key ctx ctx' k hentry =>
    obtain ⟨_, delivery, hmoved⟩ := (hcoupled.ordered.wp_tick 2 key ctx).of_ok hentry
    rw [← w.ticked_kernel key] at hmoved
    exact (h.ticked hcoupled key).entry hdecode (hcoupled.ticked hsafe) (makes_none _) hmoved
  -- `sys_spawn`, which is over when the shell is there
  | @bootAlloc stage pid k hcurr hloc =>
    rw [hloc] at hbooted
    cases stage <;> cases hbooted
  | @bootLoad stage pid cleared hcurr hloc =>
    rw [hloc] at hbooted
    cases stage <;> cases hbooted
  | @bootReady stage pid hcurr hloc =>
    rw [hloc] at hbooted
    cases stage <;> cases hbooted
  -- requests of the shell and of applications
  | fail hcurr hloc => exact h.fail hloc
  | alloc hcurr hloc halloc => exact h.alloc hdecode hcoupled.talk hloc halloc hcoupled'
  | load cleared hcurr hloc => exact ⟨[], s, .nil, h.mirrors, h.table, h.unused⟩
  | ready hcurr hloc => exact ⟨[], s, .nil, h.ready hcoupled hloc hcoupled'⟩
  | release hcurr hloc => exact h.release hcoupled hup hloc hcoupled'
  | releaseAll hcurr hloc => exact h.releaseAll hcoupled hup hloc hcoupled'

/-- The smaller system when the shell has been started. -/
def World.start (w : World μ) : System where
  shell := .prompt
  server := .receiving
  buf := ⟨0, 0, emptyArgv⟩
  appPid := w.appPid
  shellWaiting := w.shellWaiting
  app := fun _ => .stopped
  kernel :=
    { procSet := fun i =>
        { pid := (w.kernel.procSet i).pid
          syscall := ⟨.recv, 0, 0, ⟨0, 0, emptyArgv⟩, .unset⟩
          status := (w.kernel.procSet i).status
          mepc := 0
          savedRegisters := fun _ => 0 }
      currProcIdx := w.kernel.currProcIdx
      currVmPid := w.kernel.currVmPid
      area := fun _ => ⟨.recv, 0, 0, ⟨0, 0, emptyArgv⟩, .unset⟩
      actions := [] }
  bin := fun _ => -1

theorem Coupled.start (h : Coupled v w) (hup : (w.loc gpidProcess).up = 3) :
    Apps.Start w.start where
  shell := rfl
  server := rfl
  app _ := rfl
  table := ⟨h.ordered.table.pid, h.ordered.table.named, h.ordered.table.zero, h.ordered.table.last⟩
  system pid hpid := by
    obtain ⟨i, rfl⟩ := exists_slot pid (le_trans (by decide) hpid.1)
      (lt_of_le_of_lt hpid.2 (by decide))
    exact ⟨i, rfl, (h.system_loaded hup hpid).1⟩

/-- `sys_proc` has started the shell. -/
def World.withShell (w : World μ) : World μ :=
  ({ w with kernel := w.kernel.procSetReady gpidShell }.goto gpidShell (.shell .prompt)).goto
    gpidProcess (.proc .serve)

/-- The shell has been started, and no application. -/
theorem abstracts_start (hproc : w.loc gpidProcess = .proc .serve)
    (hshell : w.loc gpidShell = .shell .prompt)
    (hwaiting : waitingOf w.kernel.procSet gpidShell = none) (htable : Table w.kernel.procSet)
    (happ : ∀ pid a, w.loc pid ≠ .app a) : Abstracts v decode w w.start := by
  refine ⟨⟨?_, ?_, ?_, rfl, ?_, fun pid => ?_⟩,
    ⟨htable.pid, htable.named, htable.zero, htable.last⟩, fun _ => Iff.rfl⟩
  · rw [hshell, hwaiting]
    rfl
  · rw [hproc]
    rfl
  · rw [hproc]
    trivial
  · rw [hproc]
    rfl
  · rw [hproc, appPc_eq_ownPc rfl rfl, ownPc_eq_stopped (happ pid)]
    rfl

/-- Then the smaller system starts. -/
theorem Coupled.withShell (h : Coupled v w)
    (hloc : w.loc gpidProcess = .proc (.bootLoad .shell gpidShell))
    (hcoupled : Coupled v w.withShell) :
    Apps.Start w.withShell.start ∧ Abstracts v decode w.withShell w.withShell.start := by
  have hproc : w.withShell.loc gpidProcess = .proc .serve := World.goto_self _ _ _
  have hshell : w.withShell.loc gpidShell = .shell .prompt :=
    (World.goto_of_ne _ shell_ne_process _).trans (World.goto_self _ _ _)
  have hloads : (w.loc gpidProcess).loads = some gpidShell := by
    rw [hloc]
    rfl
  have hwaiting : waitingOf (w.kernel.procSetReady gpidShell).procSet gpidShell = none := by
    obtain ⟨i, _, hi⟩ := h.loads_slot hloads
    rw [← hi] at hloads ⊢
    exact (h.isLoading hloads).waitingOf_ready h.ordered.table
  refine ⟨hcoupled.start ?_, abstracts_start hproc hshell hwaiting hcoupled.ordered.table
    fun pid a hpid => ?_⟩
  · rw [hproc]
    rfl
  · -- applications are started later
    have huser := (hcoupled.talk.base.pid_app hpid).1
    have hne := hcoupled.talk.base.app_ne hpid
    have hsame : w.withShell.loc pid = w.loc pid :=
      (World.goto_of_ne _ hne.1 _).trans (World.goto_of_ne _ hne.2 _)
    have hup := h.talk.base.apps pid huser (by rw [← hsame, hpid]; exact nofun)
    rw [hloc] at hup
    cases hup

/-- No process comes or goes in an entry of the kernel. -/
theorem Coupled.absent_resume (h : Coupled v w) {call : Option (Request Int Int μ)}
    (hcall : ∀ c, call = some c → Makes v (w.loc w.kernel.curr.pid) c) {k : Kernel μ}
    {delivery : Option (Delivery Int μ)} (hmoved : Moved w.kernel call delivery k) (pid : Int) :
    (w.resume v call k).loc pid = .absent ↔ w.loc pid = .absent := by
  rw [loc_resume hmoved]
  exact (h.talk.turn_frame h.coherent hcall hmoved.step).1 pid

/-- The step with which the shell appears is the last `sys_spawn`. -/
theorem Coupled.shell_started (h : Coupled v w) (habsent : w.loc gpidShell = .absent)
    {label : Label μ} (hstep : SafeStep v w label w') (hup : w'.loc gpidShell ≠ .absent) :
    w.loc gpidProcess = .proc (.bootLoad .shell gpidShell) ∧ w' = w.withShell := by
  have hjoint := h.talk.joint
  rw [habsent] at hjoint
  obtain ⟨hstep, hsafe⟩ := hstep
  cases hstep with
  | @call c key ctx ctx' k hmakes hentry =>
    obtain ⟨_, delivery, hmoved⟩ := (h.ordered.wp_call c 2 key ctx).of_ok hentry
    refine absurd ((h.absent_resume ?_ hmoved gpidShell).mpr habsent) hup
    rintro _ ⟨⟩
    exact hmakes
  | @tick key ctx ctx' k hentry =>
    obtain ⟨_, delivery, hmoved⟩ := (h.ordered.wp_tick 2 key ctx).of_ok hentry
    rw [← w.ticked_kernel key] at hmoved
    refine absurd (((h.ticked hsafe).absent_resume (makes_none _) hmoved gpidShell).mpr ?_) hup
    unfold World.ticked
    split_ifs with hkey
    · obtain ⟨l, hl⟩ := h.app_of_interrupts hkey
      exact (World.goto_of_ne _ (h.talk.base.app_ne hl).2.symm _).trans habsent
    · exact habsent
  | bootAlloc => exact (hup ((World.goto_of_ne _ shell_ne_process _).trans habsent)).elim
  | bootLoad => exact absurd habsent hup
  | @bootReady stage pid hcurr hloc =>
    rw [hloc] at hjoint
    have hpid : pid = stage.gpid := by
      cases hjoint
      rfl
    subst hpid
    by_cases hstage : stage = .shell
    · subst hstage
      exact ⟨hloc, rfl⟩
    · have hne : gpidShell ≠ stage.gpid := by
        cases stage with
        | shell => exact absurd rfl hstage
        | _ => decide
      refine (hup ((World.goto_of_ne _ shell_ne_process _).trans ?_)).elim
      exact (World.goto_of_ne _ hne _).trans habsent
  | fail hcurr hloc | alloc hcurr hloc | load _ hcurr hloc | ready hcurr hloc
  | release hcurr hloc | releaseAll hcurr hloc =>
    rw [hloc] at hjoint
    cases hjoint

/-- A run of the smaller system from its start leads to a state for this one. -/
def Simulated (v : View μ) (decode : μ → ProcRequest) (w : World μ) : Prop :=
  ∃ s₀ log s, Apps.Start s₀ ∧ Run Apps.Step s₀ log s ∧ Abstracts v decode w s

theorem Simulated.step (hdecode : Decodes v decode) (h : Simulated v decode w)
    (hcoupled : Coupled v w) (hup : w.loc gpidShell ≠ .absent) {label : Label μ}
    (hstep : SafeStep v w label w') : Simulated v decode w' := by
  obtain ⟨s₀, log, s, hstart, hlog, h⟩ := h
  obtain ⟨log', s', hlog', h'⟩ := h.step hdecode hcoupled hup hstep
  exact ⟨s₀, log ++ log', s', hstart, hlog.append hlog', h'⟩

/-- Every run of the whole system, once the shell is started, is a run of the smaller one. -/
theorem Booting.abstracts {w₀ : World μ} {labels : List (Label μ)} (hdecode : Decodes v decode)
    (hboot : Booting w₀) (hrun : Run (SafeStep v) w₀ labels w) (hup : w.loc gpidShell ≠ .absent) :
    Simulated v decode w := by
  have hinv : Coupled v w ∧ (w.loc gpidShell ≠ .absent → Simulated v decode w) := by
    refine hrun.invariant
      (P := fun w => Coupled v w ∧ (w.loc gpidShell ≠ .absent → Simulated v decode w))
      ⟨hboot.coupled, fun hup => absurd (hboot.others gpidShell shell_ne_process) hup⟩ ?_
    rintro w label w' ⟨hcoupled, hsim⟩ hstep
    have hcoupled' := hcoupled.step hstep
    refine ⟨hcoupled', fun hup' => ?_⟩
    -- before the shell is started there is nothing to simulate
    by_cases hup : w.loc gpidShell = .absent
    · obtain ⟨hloc, rfl⟩ := hcoupled.shell_started hup hstep hup'
      obtain ⟨hstart, hstarted⟩ := hcoupled.withShell hloc hcoupled'
      exact ⟨_, [], _, hstart, .nil, hstarted⟩
    · exact (hsim hup).step hdecode hcoupled hup hstep
  exact hinv.2 hup

/-- So the shell and `sys_proc` agree in the whole system, too. -/
theorem Booting.agreement {w₀ : World μ} {labels : List (Label μ)} (hdecode : Decodes v decode)
    (hboot : Booting w₀) (hrun : Run (SafeStep v) w₀ labels w) (hup : w.loc gpidShell ≠ .absent) :
    ∃ s₀ log s stage, Apps.Start s₀ ∧ Run Apps.Step s₀ log s ∧ Abstracts v decode w s ∧
      log.foldlM Apps.Stage.next .idle = some stage ∧ Agrees s stage := by
  obtain ⟨s₀, log, s, hstart, hlog, h⟩ := hboot.abstracts hdecode hrun hup
  obtain ⟨stage, hstage, hinv⟩ := hstart.run hlog
  exact ⟨s₀, log, s, stage, hstart, hlog, h, hstage, hinv.agrees⟩

/-- A message that is its type, as a request with one argument. -/
def plainRequest (m : Nat) : ProcRequest := ⟨m, 1, emptyArgv⟩

theorem decodes_plainRequest : Decodes plainView plainRequest where
  type _ := rfl
  background _ := iff_of_false (show ¬ (0 : UInt8) = ampersand by decide) nofun
  argc _ _ := ⟨le_refl 1, show 1 ≤ cmdNargs by decide⟩

example : Simulated plainView plainRequest commandRun.2 :=
  booting_bootWorld.abstracts decodes_plainRequest run_commandRun
    (by rw [state_commandRun.1]; exact nofun)

end Egos.Whole
