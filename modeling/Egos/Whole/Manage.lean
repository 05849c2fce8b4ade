import Egos.Whole.Talk

/-!
# The Whole System: Process Management and Conversations

What `sys_proc` does between its system calls, and ctrl+c, seen from the conversations: a
process starts (`Talk.seat`), processes end (`Talk.vacate`), or `sys_proc` alone goes on
(`Talk.goto_proc`).
-/

namespace Egos.Whole

open Egos.Lib Egos.Lib.Rendezvous Egos.Grass Egos.Apps

variable {μ : Type} {v : View μ} {loc : Int → Loc μ} {appPid appPid' pid : Int}
  {shellWaiting shellWaiting' : Bool}

/-- `sys_proc` is at a location where it does nothing with the two servers. -/
structure Apart (l : ProcLoc μ) : Prop where
  hears : (Loc.proc l).hears = none
  awaits : (Loc.proc l).awaits = none

/-- The update of a value that a location has already. -/
theorem comp_update_eq {α : Type} (f : Loc μ → α) {l : Loc μ} (h : f l = f (loc pid)) :
    (fun q => f (Function.update loc pid l q)) = fun q => f (loc q) := by
  funext q
  rw [Function.update_apply]
  split_ifs with hq
  · rw [hq, h]
  · rfl

/-- A location that says the same about debts. -/
theorem Talk.owed_update (h : Matched (fun q => (loc q).owes) fun q => (loc q).awaits) {l : Loc μ}
    (howes : l.owes = (loc pid).owes) (hawaits : l.awaits = (loc pid).awaits) :
    Matched (fun q => (Function.update loc pid l q).owes)
      fun q => (Function.update loc pid l q).awaits := by
  rw [comp_update_eq Loc.owes howes, comp_update_eq Loc.awaits hawaits]
  exact h

/-! ## `sys_proc` alone -/

/-- `sys_proc` goes on within its program, away from the servers. -/
theorem Talk.goto_proc (h : Talk v loc appPid shellWaiting) {l l' : ProcLoc μ}
    (hloc : loc gpidProcess = .proc l) (hup : (Loc.proc l').up = (Loc.proc l).up)
    (hapart : Apart l) (hapart' : Apart l')
    (hjoint : Joint v (Function.update loc gpidProcess (.proc l')) appPid' shellWaiting' (.proc l')
      (loc gpidShell)) :
    Talk v (Function.update loc gpidProcess (.proc l')) appPid' shellWaiting' where
  base := h.base.update (by rw [hloc]; exact stays_proc hup)
  greets q := by
    have hg : (Loc.proc l').Greets = (loc gpidProcess).Greets := by
      rw [hloc]
      rfl
    have hq := congrFun (comp_update_eq Loc.Greets hg) q
    rw [hq, Function.update_self, hapart'.hears, h.greets, hloc, hapart.hears]
  owed := Talk.owed_update h.owed (by rw [hloc]; rfl) (by rw [hloc, hapart.awaits, hapart'.awaits])
  joint := by
    rw [Function.update_self, Function.update_of_ne shell_ne_process]
    exact hjoint

theorem update_proc_absent_iff {l : ProcLoc μ} (h : Base loc) (q : Int) :
    Function.update loc gpidProcess (.proc l) q = .absent ↔ loc q = .absent := by
  obtain ⟨l₀, hl₀⟩ := h.at_process
  rw [Function.update_apply]
  split_ifs with hq
  · rw [hq, hl₀]
    exact iff_of_false nofun nofun
  · exact Iff.rfl

/-- `sys_spawn` has called `proc_alloc`. -/
theorem Talk.bootAlloc (h : Talk v loc appPid shellWaiting) {stage : Stage}
    (hloc : loc gpidProcess = .proc (.boot stage)) :
    Talk v (Function.update loc gpidProcess (.proc (.bootLoad stage stage.gpid))) appPid
      shellWaiting := by
  refine h.goto_proc hloc rfl ⟨rfl, rfl⟩ ⟨rfl, rfl⟩ ?_
  have hjoint := h.joint_at hloc
  generalize loc gpidShell = l at hjoint
  cases hjoint with
  | boot => exact .bootLoad stage

/-- `app_spawn` has found no such program. -/
theorem Talk.fail (h : Talk v loc appPid shellWaiting) {req : μ} {found : Bool}
    (hloc : loc gpidProcess = .proc (.looked req found)) :
    Talk v (Function.update loc gpidProcess (.proc (.answer req cmdError))) appPid false := by
  refine h.goto_proc hloc rfl ⟨rfl, rfl⟩ ⟨rfl, rfl⟩ ?_
  have hjoint := h.joint_at hloc
  generalize loc gpidShell = l at hjoint
  cases hjoint with
  | looked => exact .answer (iff_of_false (fun hok => absurd hok.1 (by decide)) fun hfg => nomatch hfg.1)

/-- `app_spawn` has called `proc_alloc`. -/
theorem Talk.alloc (h : Talk v loc appPid shellWaiting) {req : μ} {found : Bool}
    (hloc : loc gpidProcess = .proc (.looked req found)) (huser : gpidUserStart ≤ pid)
    (hlt : pid < 16) (habsent : loc pid = .absent) :
    Talk v (Function.update loc gpidProcess (.proc (.read req (.load pid)))) pid shellWaiting := by
  refine h.goto_proc hloc rfl ⟨rfl, rfl⟩ ⟨rfl, rfl⟩ ?_
  have hjoint := h.joint_at hloc
  generalize loc gpidShell = l at hjoint
  cases hjoint with
  | looked => exact .read ⟨rfl, huser, hlt, (update_proc_absent_iff h.base _).mpr habsent⟩

/-! ## A process starts -/

/-- A new process that owes and awaits nothing, started by `sys_proc`. -/
theorem Talk.owed_seat (h : Talk v loc appPid shellWaiting) {l l' : ProcLoc μ} {entry : Loc μ}
    (hloc : loc gpidProcess = .proc l) (hawaits : (Loc.proc l).awaits = none)
    (hawaits' : (Loc.proc l').awaits = none) (habsent : loc pid = .absent)
    (hentry : entry.owes = none ∧ entry.awaits = none) :
    Matched (fun q => (Function.update (Function.update loc pid entry) gpidProcess (.proc l') q).owes)
      fun q => (Function.update (Function.update loc pid entry) gpidProcess (.proc l') q).awaits := by
  have hne : gpidProcess ≠ pid := by
    rintro rfl
    cases hloc.symm.trans habsent
  have hproc : Function.update loc pid entry gpidProcess = .proc l := by
    rw [Function.update_of_ne hne, hloc]
  refine Talk.owed_update (Talk.owed_update h.owed ?_ ?_) ?_ ?_
  · rw [habsent, hentry.1]
    rfl
  · rw [habsent, hentry.2]
    rfl
  · rw [hproc]
    rfl
  · rw [hproc, hawaits, hawaits']

/-- The system processes are started in the order of their pids. -/
theorem Stage.gpid_eq (stage : Stage) : stage.gpid = 2 + stage.index := by cases stage <;> rfl

theorem Loc.proc_ne_absent (l : ProcLoc μ) : Loc.proc l ≠ .absent := by
  intro h
  cases h

theorem Stage.entry_ne_absent (stage : Stage) : (stage.entry : Loc μ) ≠ .absent := by
  intro h
  cases stage <;> cases h

theorem Stage.index_nonneg (stage : Stage) : 0 ≤ stage.index ∧ stage.index ≤ 2 := by
  cases stage <;> decide

/-- While the system processes are being started, there is nobody else. -/
theorem Base.absent_of_boot (h : Base loc) {stage : Stage}
    (hup : (loc gpidProcess).up = stage.index) (hpid : stage.gpid ≤ pid) : loc pid = .absent := by
  obtain ⟨hlow, hhigh⟩ := stage.index_nonneg
  rw [stage.gpid_eq] at hpid
  by_contra hpresent
  by_cases huser : gpidUserStart ≤ pid
  · have hall := h.apps pid huser hpresent
    omega
  · have hlt := (h.up pid (by rw [gpidProcess]; omega) (not_le.mp huser)).mp hpresent
    omega

/-- `sys_spawn` has called `proc_set_ready`. -/
theorem Talk.bootReady (h : Talk v loc appPid shellWaiting) {stage : Stage}
    (hloc : loc gpidProcess = .proc (.bootLoad stage stage.gpid)) :
    Talk v (Function.update (Function.update loc stage.gpid stage.entry) gpidProcess
      (.proc stage.spawned)) appPid shellWaiting := by
  have hup : (loc gpidProcess).up = stage.index := by
    rw [hloc]
    rfl
  have hspawned : (Loc.proc stage.spawned : Loc μ).up = stage.index + 1 := by cases stage <;> rfl
  have hne : stage.gpid ≠ gpidProcess := by cases stage <;> decide
  have habsent := h.base.absent_of_boot hup le_rfl
  obtain ⟨hlow, hhigh⟩ := stage.index_nonneg
  have hgpid := stage.gpid_eq
  refine ⟨⟨fun q => ?_, fun q hq hq' => ?_, fun q hq hpresent => ?_⟩, fun q => ?_, ?_, ?_⟩
  · rw [Function.update_apply, Function.update_apply]
    split_ifs with hq hq'
    · exact hq
    · rw [hq']
      cases stage <;> rfl
    · exact h.base.placed q
  · -- one more system process is there
    have hq₁ : q ≠ gpidProcess := ne_of_gt hq
    rw [Function.update_self, hspawned, Function.update_of_ne hq₁, Function.update_apply]
    split_ifs with hseat
    · refine iff_of_true stage.entry_ne_absent ?_
      omega
    · rw [h.base.up q hq hq', hup]
      omega
  · rw [gpidUserStart] at hq
    have hq₁ : q ≠ gpidProcess := by
      rw [gpidProcess]
      omega
    have hq₂ : q ≠ stage.gpid := by omega
    rw [Function.update_of_ne hq₁, Function.update_of_ne hq₂] at hpresent
    exact absurd (h.base.absent_of_boot hup (by omega)) hpresent
  · -- before, nobody had a notification to send
    have hnone : ¬ (loc q).Greets := by
      rw [h.greets, hloc]
      exact (Option.some_ne_none _).symm
    rw [Function.update_self, Function.update_apply, Function.update_apply]
    split_ifs with hq hq'
    · rw [hq]
      refine iff_of_false not_false fun hhears => ?_
      cases stage <;> cases hhears
    · rw [hq']
      cases stage
      · exact iff_of_true trivial rfl
      · exact iff_of_true trivial rfl
      · exact iff_of_false not_false (Option.some_ne_none _).symm
    · refine iff_of_false hnone fun hhears => hq' ?_
      cases stage
      · exact (Option.some.inj hhears).symm
      · exact (Option.some.inj hhears).symm
      · cases hhears
  · exact h.owed_seat hloc rfl (by cases stage <;> rfl) habsent (by cases stage <;> exact ⟨rfl, rfl⟩)
  · have hshell := h.joint_at hloc
    generalize hl : loc gpidShell = l at hshell
    cases hshell with
    | bootLoad =>
      rw [Function.update_self, Function.update_of_ne shell_ne_process, Function.update_apply]
      cases stage with
      | terminal =>
        rw [if_neg (by decide), hl]
        exact .hear (by decide)
      | file =>
        rw [if_neg (by decide), hl]
        exact .hear (by decide)
      | shell =>
        rw [if_pos (show gpidShell = Stage.gpid .shell from rfl)]
        refine .prompt fun hfg => ?_
        obtain ⟨_, huser, hpresent⟩ := hfg
        rw [gpidUserStart] at huser
        have ha₁ : appPid ≠ gpidProcess := by
          rw [gpidProcess]
          omega
        have ha₂ : appPid ≠ Stage.gpid .shell := by
          rw [Stage.gpid, gpidShell]
          omega
        rw [Function.update_of_ne ha₁, Function.update_of_ne ha₂] at hpresent
        refine absurd (h.base.absent_of_boot hup ?_) hpresent
        rw [Stage.gpid, gpidShell]
        omega

/-- `app_spawn` has called `proc_set_ready`. -/
theorem Talk.ready (h : Talk v loc appPid shellWaiting) {req : μ}
    (hloc : loc gpidProcess = .proc (.read req (.load pid))) :
    Talk v (Function.update (Function.update loc pid (.app .run)) gpidProcess
      (.proc (.answer req cmdOk))) appPid (!v.background req) := by
  have hjoint := h.joint_at hloc
  generalize hshell : loc gpidShell = l at hjoint
  cases hjoint with
  | read hjob =>
    obtain ⟨rfl, huser, hlt, habsent⟩ := hjob
    have hup : (loc gpidProcess).up = 3 := by
      rw [hloc]
      rfl
    have hne : pid ≠ gpidProcess ∧ pid ≠ gpidShell := by
      constructor <;> rintro rfl <;> exact absurd huser (by decide)
    refine ⟨⟨fun q => ?_, fun q hq hq' => ?_, fun q _ _ => ?_⟩, fun q => ?_, ?_, ?_⟩
    · rw [Function.update_apply, Function.update_apply]
      split_ifs with hq hq'
      · exact hq
      · rw [hq']
        exact ⟨huser, hlt⟩
      · exact h.base.placed q
    · have hq₁ : q ≠ gpidProcess := ne_of_gt hq
      have hq₂ : q ≠ pid := by
        rintro rfl
        exact absurd huser (not_le.mpr hq')
      rw [Function.update_self, Function.update_of_ne hq₁, Function.update_of_ne hq₂,
        h.base.up q hq hq', hup]
      rfl
    · rw [Function.update_self]
      rfl
    · have hnone : ¬ (loc q).Greets := by
        rw [h.greets, hloc]
        exact nofun
      rw [Function.update_self, Function.update_apply, Function.update_apply]
      refine iff_of_false ?_ nofun
      split_ifs
      · exact not_false
      · exact not_false
      · exact hnone
    · exact h.owed_seat hloc rfl rfl habsent ⟨rfl, rfl⟩
    · rw [Function.update_self, Function.update_of_ne shell_ne_process,
        Function.update_of_ne hne.2.symm, hshell]
      refine .answer ?_
      -- the shell waits for the new process exactly if it is no background command
      rw [Foreground, Function.update_of_ne hne.1, Function.update_self]
      cases v.background req
      · exact iff_of_true ⟨rfl, rfl⟩ ⟨rfl, huser, nofun⟩
      · exact iff_of_false (fun hok => nomatch hok.2) fun hfg => nomatch hfg.1

/-! ## Processes end -/

section Vacate

variable {gone : Int → Prop} [DecidablePred gone]

/-- The locations without some processes. -/
def vacated (loc : Int → Loc μ) (gone : Int → Prop) [DecidablePred gone] (q : Int) : Loc μ :=
  if gone q then .absent else loc q

theorem vacated_of_not (h : ¬ gone pid) : vacated loc gone pid = loc pid := if_neg h

theorem vacated_of_gone (h : gone pid) : vacated loc gone pid = .absent := if_pos h

variable (huser : ∀ q, gone q → gpidUserStart ≤ q)

include huser in
omit [DecidablePred gone] in
theorem not_gone_of_system (hpid : pid < gpidUserStart) : ¬ gone pid := fun hgone =>
  absurd (huser pid hgone) (not_le.mpr hpid)

include huser in
theorem Base.vacate (h : Base loc) : Base (vacated loc gone) := by
  have hproc : vacated loc gone gpidProcess = loc gpidProcess :=
    vacated_of_not (not_gone_of_system huser (by decide))
  refine ⟨fun q => ?_, fun q hq hq' => ?_, fun q hq hpresent => ?_⟩
  · unfold vacated
    split_ifs with hgone
    · have := huser q hgone
      rintro rfl
      exact absurd this (by decide)
    · exact h.placed q
  · rw [hproc, vacated_of_not (not_gone_of_system huser hq')]
    exact h.up q hq hq'
  · rw [hproc]
    refine h.apps q hq fun habsent => hpresent ?_
    unfold vacated
    split_ifs
    · rfl
    · exact habsent

/-- Under the other pids run applications. -/
theorem Base.at_user (h : Base loc) (hpid : gpidUserStart ≤ pid) :
    loc pid = .absent ∨ ∃ l, loc pid = .app l := by
  have hplaced := h.placed pid
  cases hloc : loc pid <;> rw [hloc] at hplaced
  case absent => exact Or.inl rfl
  case app l => exact Or.inr ⟨l, rfl⟩
  case proc =>
    rw [show pid = _ from hplaced] at hpid
    exact absurd hpid (by decide)
  case server kind _ =>
    rw [show pid = _ from hplaced] at hpid
    cases kind <;> exact absurd hpid (by decide)
  case shell =>
    rw [show pid = _ from hplaced] at hpid
    exact absurd hpid (by decide)
  case fatal => exact hplaced.elim

/-- An application owes nobody a reply. -/
theorem Base.owes_of_user (h : Base loc) (hpid : gpidUserStart ≤ pid) : (loc pid).owes = none := by
  rcases h.at_user hpid with hloc | ⟨l, hloc⟩ <;> rw [hloc] <;> rfl

include huser in
theorem Talk.owed_vacate (h : Talk v loc appPid shellWaiting)
    (hfree : ∀ q, gone q → (loc q).awaits = none) :
    Matched (fun q => (vacated loc gone q).owes) fun q => (vacated loc gone q).awaits := by
  have howes : (fun q => (vacated loc gone q).owes) = fun q => (loc q).owes := by
    funext q
    unfold vacated
    split_ifs with hgone
    · exact (h.base.owes_of_user (huser q hgone)).symm
    · rfl
  have hawaits : (fun q => (vacated loc gone q).awaits) = fun q => (loc q).awaits := by
    funext q
    unfold vacated
    split_ifs with hgone
    · exact (hfree q hgone).symm
    · rfl
  rw [howes, hawaits]
  exact h.owed

include huser in
/-- Applications that await no reply end, and `sys_proc` goes on. -/
theorem Talk.vacate (h : Talk v loc appPid shellWaiting)
    (hfree : ∀ q, gone q → (loc q).awaits = none) {l l' : ProcLoc μ}
    (hloc : loc gpidProcess = .proc l) (hup : (Loc.proc l').up = (Loc.proc l).up)
    (hapart : Apart l) (hapart' : Apart l')
    (hjoint : Joint v (Function.update (vacated loc gone) gpidProcess (.proc l')) appPid
      shellWaiting (.proc l') (loc gpidShell)) :
    Talk v (Function.update (vacated loc gone) gpidProcess (.proc l')) appPid shellWaiting := by
  have hproc : vacated loc gone gpidProcess = .proc l :=
    (vacated_of_not (not_gone_of_system huser (by decide))).trans hloc
  refine ⟨(h.base.vacate huser).update (by rw [hproc]; exact stays_proc hup), fun q => ?_, ?_, ?_⟩
  · have hnone : ¬ (loc q).Greets := by
      rw [h.greets, hloc, hapart.hears]
      exact nofun
    rw [Function.update_self, hapart'.hears]
    refine iff_of_false ?_ nofun
    rw [Function.update_apply, vacated]
    split_ifs
    · exact not_false
    · exact not_false
    · exact hnone
  · refine Talk.owed_update (h.owed_vacate huser hfree) ?_ ?_
    · rw [hproc]
      rfl
    · rw [hproc, hapart.awaits, hapart'.awaits]
  · rw [Function.update_self, Function.update_of_ne shell_ne_process,
      vacated_of_not (not_gone_of_system huser (by decide))]
    exact hjoint

end Vacate

theorem Leaving.user (h : Base loc) (hpid : Leaving loc pid) : gpidUserStart ≤ pid :=
  hpid.elim (fun hloc => (h.pid_app hloc).1) fun hloc => (h.pid_app hloc).1

theorem Leaving.present (hpid : Leaving loc pid) : loc pid ≠ .absent := by
  rcases hpid with hloc | hloc <;> rw [hloc] <;> exact nofun

/-- `case PROC_EXIT` -/
theorem Talk.release (h : Talk v loc appPid shellWaiting)
    (hloc : loc gpidProcess = .proc (.release pid)) :
    Talk v (Function.update (vacated loc (Released pid)) gpidProcess (.proc
      (if shellWaiting = true ∧ appPid = pid then .notify else .serve))) appPid shellWaiting := by
  have hjoint := h.joint_at hloc
  have hleaving : Leaving loc pid := by
    generalize loc gpidShell = l at hjoint
    cases hjoint <;> assumption
  have huserPid := hleaving.user h.base
  have hall : pid ≠ gpidAll := by
    rintro rfl
    exact absurd huserPid (by decide)
  have hends : ∀ q, Released pid q → q = pid := by
    intro q hq
    rwa [Released, if_pos hall] at hq
  have huser : ∀ q, Released pid q → gpidUserStart ≤ q := fun q hq => hends q hq ▸ huserPid
  have hfree : ∀ q, Released pid q → (loc q).awaits = none := by
    intro q hq
    rw [hends q hq]
    rcases hleaving with hl | hl <;> rw [hl] <;> rfl
  refine h.vacate huser hfree hloc (by split_ifs <;> rfl) ⟨rfl, rfl⟩
    (by split_ifs <;> exact ⟨rfl, rfl⟩) ?_
  have hgone : ∀ {l : ProcLoc μ},
      Function.update (vacated loc (Released pid)) gpidProcess (.proc l) pid = .absent := by
    intro l
    have hne : pid ≠ gpidProcess := by
      rintro rfl
      exact absurd huserPid (by decide)
    rw [Function.update_of_ne hne, vacated_of_gone]
    rw [Released, if_pos hall]
  generalize loc gpidShell = l at hjoint
  cases hjoint with
  | releasePrompt _ hnone =>
    -- `sys_proc` knows that the shell does not wait for this process
    have hother : ¬ (shellWaiting = true ∧ appPid = pid) := by
      rintro ⟨hwait, rfl⟩
      exact hnone ⟨hwait, huserPid, hleaving.present⟩
    rw [if_neg hother]
    refine .prompt fun hfg => hnone ⟨hfg.1, hfg.2.1, fun habsent => hfg.2.2 ?_⟩
    rw [update_proc_absent_iff (h.base.vacate huser), vacated]
    split_ifs
    · rfl
    · exact habsent
  | release _ hrun =>
    split_ifs with hthis
    · obtain ⟨_, rfl⟩ := hthis
      exact .notify hgone
    · have hother : appPid ≠ pid := fun heq => hthis ⟨hrun.1, heq⟩
      refine .foreground ⟨hrun.1, hrun.2.1, ?_⟩
      rw [Ne, update_proc_absent_iff (h.base.vacate huser),
        vacated_of_not fun hq => hother (hends _ hq)]
      exact hrun.2.2

/-- `case PROC_KILLALL`, if no server owes an application a reply. -/
theorem Talk.releaseAll (h : Talk v loc appPid shellWaiting)
    (hloc : loc gpidProcess = .proc .releaseAll)
    (hunowed : ∀ server client, gpidUserStart ≤ client → (loc server).owes ≠ some client) :
    Talk v (Function.update (vacated loc (Released gpidAll)) gpidProcess (.proc .serve)) appPid
      shellWaiting := by
  have huser : ∀ q, Released gpidAll q → gpidUserStart ≤ q := fun q hq => hq
  have hfree : ∀ q, Released gpidAll q → (loc q).awaits = none := by
    intro q hq
    cases hawaits : (loc q).awaits with
    | none => rfl
    | some server => exact absurd ((h.owed_iff server q).mpr hawaits) (hunowed server q hq)
  refine h.vacate huser hfree hloc rfl ⟨rfl, rfl⟩ ⟨rfl, rfl⟩ ?_
  have hjoint := h.joint_at hloc
  generalize loc gpidShell = l at hjoint
  cases hjoint with
  | releaseAll _ =>
    refine .prompt fun hfg => hfg.2.2 ?_
    rw [update_proc_absent_iff (h.base.vacate huser)]
    exact vacated_of_gone hfg.2.1

/-! ## Ctrl+c -/

/-- An application that awaits no reply is sent to `exit`. -/
theorem Talk.interrupt (h : Talk v loc appPid shellWaiting) {l : AppLoc}
    (hloc : loc pid = .app l) (hl : ∀ server, l ≠ .reply server) :
    Talk v (Function.update loc pid (.app .exit)) appPid shellWaiting := by
  have hstays : Stays (loc pid) (.app .exit) := by
    rw [hloc]
    exact stays_app
  have hne := h.base.app_ne hloc
  have hawaits : (Loc.app l : Loc μ).awaits = none := by
    cases l with
    | reply server => exact absurd rfl (hl server)
    | run => rfl
    | exit => rfl
    | ended => rfl
  refine ⟨h.base.update hstays, fun q => ?_, ?_, ?_⟩
  · have hg : (Loc.app .exit : Loc μ).Greets = (loc pid).Greets := by
      rw [hloc]
      rfl
    have hq := congrFun (comp_update_eq Loc.Greets hg) q
    rw [hq, Function.update_of_ne hne.1.symm]
    exact h.greets q
  · refine Talk.owed_update h.owed ?_ ?_
    · rw [hloc]
      rfl
    · rw [hloc, hawaits]
      rfl
  · rw [Function.update_of_ne hne.1.symm, Function.update_of_ne hne.2.symm]
    refine h.joint.congr (absent_update_iff hstays) fun q hq => ?_
    by_cases hqp : q = pid
    · right
      rw [hqp, Function.update_self]
    · rwa [Leaving, Function.update_of_ne hqp]

end Egos.Whole
