import Egos.Whole.Talk

/-!
# The Whole System: Who Waits for Whom

In a state in which nothing can be delivered, a process that is in a system call waits for
another one: for the receiver of its send, for the sender it wants to hear from, and the shell
also for the command in the foreground. Servers that wait for requests wait for nobody.

`Talk.exists_active` says that following these waits always leads to a process that is not in a
system call. The order behind it is: the shell, then the applications, then `sys_proc`, then the
two servers that have no clients of their own.
-/

namespace Egos.Whole

open Egos.Lib Egos.Lib.Rendezvous Egos.Grass Egos.Apps

variable {μ : Type}

section Definitions

variable (loc : Int → Loc μ) (appPid : Int) (w : Waiting Int Int μ)

/-- The process is in a system call that only another process can end. -/
def Blocked (pid : Int) : Prop := ∃ c, w pid = some c ∧ c ≠ .recv gpidAll

/-- The process is there and in no system call. -/
def Active (pid : Int) : Prop := loc pid ≠ .absent ∧ w pid = none

/-- The first process waits for the second. -/
inductive WaitsOn : Int → Int → Prop where
  | send {pid receiver : Int} {m : μ} (h : w pid = some (.send receiver m)) : WaitsOn pid receiver
  | recv {pid source : Int} (h : w pid = some (.recv source)) (hne : source ≠ gpidAll) :
      WaitsOn pid source
  /-- The shell waits for the command in the foreground. -/
  | foreground (h : w gpidShell = some (.recv gpidProcess)) (hloc : loc gpidShell = .shell .exit) :
      WaitsOn gpidShell appPid

end Definitions

/-- Waits lead to lower ranks. -/
def rank (pid : Int) : ℕ :=
  if pid = gpidShell then 3
  else if gpidUserStart ≤ pid then 2
  else if pid = gpidProcess then 1
  else 0

theorem rank_app {pid : Int} (h : gpidUserStart ≤ pid) : rank pid = 2 := by
  have hne : pid ≠ gpidShell := by
    rintro rfl
    exact absurd h (by decide)
  rw [rank, if_neg hne, if_pos h]

theorem rank_server (kind : Kind) : rank kind.gpid = 0 := by cases kind <;> decide

variable {v : View μ} {loc : Int → Loc μ} {appPid pid : Int} {shellWaiting : Bool}
  {w : Waiting Int Int μ}

/-! ## Calls that cannot be together -/

section Settled

variable (hcoherent : Coherent (program v) loc w) (hsettled : Settled accepts w)

include hcoherent in
theorem not_idle_of_makes (h : ¬ Makes v (loc pid) (.recv gpidAll)) :
    w pid ≠ some (.recv gpidAll) := fun hidle => h (hcoherent pid _ hidle)

include hsettled in
/-- Nobody listens to everybody while a message for it waits. -/
theorem not_idle_of_send {receiver : Int} {m : μ} (h : w pid = some (.send receiver m)) :
    w receiver ≠ some (.recv gpidAll) := fun hidle =>
  hsettled ⟨pid, receiver, m⟩ ⟨h, gpidAll, hidle, Or.inl rfl⟩

theorem active_or_blocked (hpresent : loc pid ≠ .absent) (hidle : w pid ≠ some (.recv gpidAll)) :
    Active loc w pid ∨ Blocked w pid := by
  cases hcall : w pid with
  | none => exact Or.inl ⟨hpresent, hcall⟩
  | some c =>
    refine Or.inr ⟨c, hcall, ?_⟩
    rintro rfl
    exact hidle hcall

include hcoherent hsettled in
/-- A process that would take the message, and nothing else, is not in a system call. -/
theorem active_of_send {receiver : Int} {m : μ} (h : w pid = some (.send receiver m))
    (hpresent : loc receiver ≠ .absent)
    (htakes : ∀ c, Makes v (loc receiver) c → ∃ source, c = .recv source ∧ accepts source pid) :
    Active loc w receiver := by
  refine ⟨hpresent, ?_⟩
  cases hcall : w receiver with
  | none => rfl
  | some c =>
    obtain ⟨source, rfl, haccepts⟩ := htakes c (hcoherent receiver c hcall)
    exact absurd ⟨h, source, hcall, haccepts⟩ (hsettled ⟨pid, receiver, m⟩)

end Settled

/-- Where a program listens to everybody. -/
theorem Makes.idle {l : Loc μ} {c : Request Int Int μ} (h : Makes v l c) (hc : c = .recv gpidAll) :
    l = .proc .serve ∨ (∃ kind, l = .server kind .serve) ∨ l = .app (.reply gpidAll) := by
  cases h with
  | serve => exact Or.inl rfl
  | listen kind => exact Or.inr (Or.inl ⟨kind, rfl⟩)
  | awaitServer server =>
    obtain rfl := Request.recv.inj hc
    exact Or.inr (Or.inr rfl)
  | hear stage => cases stage <;> exact absurd (Request.recv.inj hc) (by decide)
  | block => exact absurd (Request.recv.inj hc) (by decide)
  | awaitReply => exact absurd (Request.recv.inj hc) (by decide)
  | awaitExit => exact absurd (Request.recv.inj hc) (by decide)
  | read => cases hc
  | answer => cases hc
  | notify => cases hc
  | greet => cases hc
  | reply => cases hc
  | command => cases hc
  | request => cases hc
  | exit => cases hc
  | killed => cases hc

/-! ## One wait -/

section Waits

/-- A server that owes a reply is about to send it. -/
theorem Base.server_of_owes (h : Base loc) {client : Int} (howes : (loc pid).owes = some client) :
    ∃ kind, pid = Kind.gpid kind ∧ loc pid = .server kind (.reply client) := by
  have hplaced := h.placed pid
  generalize loc pid = l at howes hplaced ⊢
  unfold Loc.owes at howes
  split at howes
  · obtain rfl := Option.some.inj howes
    exact ⟨_, hplaced, rfl⟩
  · cases howes

/-- The system processes that have been started. -/
theorem Base.present (h : Base loc) (hlow : gpidProcess < pid) (hhigh : pid < gpidUserStart)
    (hup : (loc gpidProcess).up = 3) : loc pid ≠ .absent := by
  rw [h.up pid hlow hhigh, hup]
  rw [gpidUserStart] at hhigh
  omega

theorem Base.present_server (h : Base loc) (kind : Kind) (hup : (loc gpidProcess).up = 3) :
    loc kind.gpid ≠ .absent := by
  cases kind <;> exact h.present (by decide) (by decide) hup

theorem Base.present_process (h : Base loc) : loc gpidProcess ≠ .absent := by
  obtain ⟨l, hl⟩ := h.at_process
  rw [hl]
  exact nofun

/-- A client waits for a server that is about to reply. -/
theorem Talk.waits_reply (h : Talk v loc appPid shellWaiting)
    (hcoherent : Coherent (program v) loc w) {server : Int}
    (hawaits : (loc pid).awaits = some server) (hrank : 0 < rank pid) :
    Active loc w server ∨ (Blocked w server ∧ rank server < rank pid) := by
  obtain ⟨kind, rfl, hserver⟩ := h.base.server_of_owes ((h.owed_iff _ _).mpr hawaits)
  have hnot : w kind.gpid ≠ some (.recv gpidAll) :=
    not_idle_of_makes hcoherent (by rw [hserver]; exact nofun)
  refine (active_or_blocked (by rw [hserver]; exact nofun) hnot).imp_right fun hb => ⟨hb, ?_⟩
  rw [rank_server]
  exact hrank

/-- Whoever sends to `sys_proc` waits for it. -/
theorem Talk.waits_process (h : Talk v loc appPid shellWaiting) (hsettled : Settled accepts w)
    {m : μ} (hcall : w pid = some (.send gpidProcess m)) (hrank : 1 < rank pid) :
    Active loc w gpidProcess ∨ (Blocked w gpidProcess ∧ rank gpidProcess < rank pid) :=
  (active_or_blocked h.base.present_process (not_idle_of_send hsettled hcall)).imp_right
    fun hb => ⟨hb, hrank⟩

/-- Whoever sends to a server waits for it. -/
theorem Talk.waits_server (h : Talk v loc appPid shellWaiting) (hsettled : Settled accepts w)
    (kind : Kind) {m : μ} (hcall : w pid = some (.send kind.gpid m))
    (hup : (loc gpidProcess).up = 3) (hrank : 0 < rank pid) :
    Active loc w kind.gpid ∨ (Blocked w kind.gpid ∧ rank kind.gpid < rank pid) := by
  refine (active_or_blocked (h.base.present_server kind hup)
    (not_idle_of_send hsettled hcall)).imp_right fun hb => ⟨hb, ?_⟩
  rw [rank_server]
  exact hrank

/-- The shell waits for `sys_proc`, unless that waits for requests. -/
theorem Talk.shell_waits (h : Talk v loc appPid shellWaiting)
    (hcoherent : Coherent (program v) loc w) (hne : loc gpidProcess ≠ .proc .serve) :
    Active loc w gpidProcess ∨ (Blocked w gpidProcess ∧ rank gpidProcess < rank gpidShell) := by
  have hnot : w gpidProcess ≠ some (.recv gpidAll) := by
    refine not_idle_of_makes hcoherent fun hmakes => ?_
    obtain ⟨l, hl⟩ := h.base.at_process
    rcases hmakes.idle rfl with hserve | ⟨kind, hserver⟩ | happ
    · exact hne hserve
    · cases hl.symm.trans hserver
    · cases hl.symm.trans happ
  exact (active_or_blocked h.base.present_process hnot).imp_right fun hb => ⟨hb, by decide⟩

/-- Whoever is blocked waits for a process that is not, or for one of a lower rank. -/
theorem Talk.waitsOn (h : Talk v loc appPid shellWaiting) (hcoherent : Coherent (program v) loc w)
    (hsettled : Settled accepts w) (hblocked : Blocked w pid) :
    ∃ q, WaitsOn loc appPid w pid q ∧ (Active loc w q ∨ (Blocked w q ∧ rank q < rank pid)) := by
  obtain ⟨c, hcall, hidle⟩ := hblocked
  have hmakes : Makes v (loc pid) c := hcoherent pid c hcall
  have hplaced := h.base.placed pid
  have hgreets := h.greets
  generalize hloc : loc pid = l at hmakes hplaced
  cases hmakes with
  | serve => exact absurd rfl hidle
  | listen => exact absurd rfl hidle
  | hear stage =>
    -- the server has not sent its notification yet
    obtain rfl : pid = gpidProcess := hplaced
    have hstart : (loc stage.gpid).Greets := (hgreets _).mpr (by rw [hloc]; rfl)
    have hnot : w stage.gpid ≠ some (.recv gpidAll) := by
      refine not_idle_of_makes hcoherent fun hmakes => ?_
      rcases hmakes.idle rfl with hl | ⟨kind, hl⟩ | hl <;> rw [hl] at hstart <;> exact hstart
    have hpresent : loc stage.gpid ≠ .absent := by
      intro habsent
      rw [habsent] at hstart
      exact hstart
    refine ⟨stage.gpid, .recv hcall (by cases stage <;> decide), ?_⟩
    refine (active_or_blocked hpresent hnot).imp_right fun hb => ⟨hb, ?_⟩
    have hjoint := h.joint_at hloc
    generalize loc gpidShell = l at hjoint
    cases hjoint with
    | hear hstage =>
      cases stage
      · decide
      · decide
      · exact absurd rfl hstage
  | read req job hm =>
    obtain rfl : pid = gpidProcess := hplaced
    exact ⟨gpidFile, .send hcall,
      h.waits_server hsettled .file hcall (by rw [hloc]; rfl) (by decide)⟩
  | block req job =>
    obtain rfl : pid = gpidProcess := hplaced
    exact ⟨gpidFile, .recv hcall (by decide),
      h.waits_reply hcoherent (by rw [hloc]; rfl) (by decide)⟩
  | answer req hm =>
    obtain rfl : pid = gpidProcess := hplaced
    have hjoint := h.joint_at hloc
    generalize hshell : loc gpidShell = l at hjoint
    cases hjoint with
    | answer =>
      refine ⟨gpidShell, .send hcall, Or.inl (active_of_send hcoherent hsettled hcall ?_ ?_)⟩
      · rw [hshell]
        exact nofun
      · rw [hshell]
        rintro _ ⟨⟩
        exact ⟨gpidProcess, rfl, Or.inr rfl⟩
  | notify =>
    obtain rfl : pid = gpidProcess := hplaced
    have hjoint := h.joint_at hloc
    generalize hshell : loc gpidShell = l at hjoint
    cases hjoint with
    | notify =>
      refine ⟨gpidShell, .send hcall, Or.inl (active_of_send hcoherent hsettled hcall ?_ ?_)⟩
      · rw [hshell]
        exact nofun
      · rw [hshell]
        rintro _ ⟨⟩
        exact ⟨gpidProcess, rfl, Or.inr rfl⟩
  | greet kind =>
    -- `sys_proc` waits for this notification
    have hhears : (loc gpidProcess).hears = some pid := (hgreets pid).mp (by rw [hloc]; trivial)
    refine ⟨gpidProcess, .send hcall,
      Or.inl (active_of_send hcoherent hsettled hcall h.base.present_process ?_)⟩
    generalize loc gpidProcess = l at hhears
    unfold Loc.hears at hhears
    split at hhears
    · rintro _ ⟨⟩
      exact ⟨_, rfl, Or.inr (Option.some.inj hhears)⟩
    · cases hhears
  | reply kind client m =>
    have hawaits : (loc client).awaits = some pid := by
      rw [← h.owed_iff, hloc]
      rfl
    refine ⟨client, .send hcall, Or.inl (active_of_send hcoherent hsettled hcall ?_ ?_)⟩
    · intro habsent
      rw [habsent] at hawaits
      cases hawaits
    · generalize loc client = l at hawaits
      unfold Loc.awaits at hawaits
      split at hawaits
      · rintro _ ⟨⟩
        exact ⟨_, rfl, Or.inr (Option.some.inj hawaits)⟩
      · rintro _ ⟨⟩
        exact ⟨_, rfl, Or.inr (Option.some.inj hawaits)⟩
      · cases hawaits
  | command hm =>
    obtain rfl : pid = gpidShell := hplaced
    exact ⟨gpidProcess, .send hcall, h.waits_process hsettled hcall (by decide)⟩
  | awaitReply req =>
    obtain rfl : pid = gpidShell := hplaced
    refine ⟨gpidProcess, .recv hcall (by decide), h.shell_waits hcoherent fun hserve => ?_⟩
    have hjoint := h.joint_at hserve
    rw [hloc] at hjoint
    cases hjoint
  | awaitExit =>
    obtain rfl : pid = gpidShell := hplaced
    by_cases hserve : loc gpidProcess = .proc .serve
    · -- `sys_proc` will speak when the command has ended
      have hjoint := h.joint_at hserve
      rw [hloc] at hjoint
      cases hjoint with
      | foreground hrun =>
        obtain ⟨_, huser, hpresent⟩ := hrun
        refine ⟨appPid, .foreground hcall hloc, ?_⟩
        have hnot : w appPid ≠ some (.recv gpidAll) := by
          refine not_idle_of_makes hcoherent fun hmakes => ?_
          rcases hmakes.idle rfl with hproc | ⟨kind, hserver⟩ | happ
          · rw [h.base.pid_proc hproc] at huser
            exact absurd huser (by decide)
          · rw [h.base.pid_server hserver] at huser
            cases kind <;> exact absurd huser (by decide)
          · obtain ⟨kind, heq, _⟩ :=
              h.base.server_of_owes ((h.owed_iff gpidAll appPid).mpr (by rw [happ]; rfl))
            cases kind <;> cases heq
        refine (active_or_blocked hpresent hnot).imp_right fun hb => ⟨hb, ?_⟩
        rw [rank_app huser]
        decide
    · exact ⟨gpidProcess, .recv hcall (by decide), h.shell_waits hcoherent hserve⟩
  | @request kind m hm =>
    obtain ⟨huser, _⟩ : gpidUserStart ≤ pid ∧ pid < 16 := hplaced
    refine ⟨kind.gpid, .send hcall, h.waits_server hsettled kind hcall ?_ ?_⟩
    · exact h.base.apps pid huser (by rw [hloc]; exact nofun)
    · rw [rank_app huser]
      decide
  | exit hm =>
    refine ⟨gpidProcess, .send hcall, h.waits_process hsettled hcall ?_⟩
    rw [rank_app hplaced.1]
    decide
  | killed hm =>
    refine ⟨gpidProcess, .send hcall, h.waits_process hsettled hcall ?_⟩
    rw [rank_app hplaced.1]
    decide
  | awaitServer server =>
    refine ⟨server, .recv hcall ?_, h.waits_reply hcoherent (by rw [hloc]; rfl) ?_⟩
    · rintro rfl
      exact hidle rfl
    · rw [rank_app hplaced.1]
      decide

end Waits

/-! ## Chains of waits -/

/-- Whoever is blocked waits, perhaps through others, for a process that is in no system
    call. -/
theorem Talk.exists_active (h : Talk v loc appPid shellWaiting)
    (hcoherent : Coherent (program v) loc w) (hsettled : Settled accepts w)
    (hblocked : Blocked w pid) :
    ∃ q, Relation.TransGen (WaitsOn loc appPid w) pid q ∧ Active loc w q :=
  Rendezvous.exists_active rank (fun _ hb => h.waitsOn hcoherent hsettled hb) hblocked

/-- There is always a process in no system call. -/
theorem Talk.not_all_waiting (h : Talk v loc appPid shellWaiting)
    (hcoherent : Coherent (program v) loc w) (hsettled : Settled accepts w) :
    ∃ q, Active loc w q := by
  have hblocked : ∀ {pid}, loc pid ≠ .absent → w pid ≠ some (.recv gpidAll) →
      ∃ q, Active loc w q := by
    intro pid hpresent hidle
    rcases active_or_blocked hpresent hidle with hactive | hb
    · exact ⟨pid, hactive⟩
    · obtain ⟨q, _, hq⟩ := h.exists_active hcoherent hsettled hb
      exact ⟨q, hq⟩
  by_cases hidle : w gpidProcess = some (.recv gpidAll)
  · -- then the shell is there, and never listens to everybody
    obtain ⟨l, hl⟩ := h.base.at_process
    have hmakes : Makes v (loc gpidProcess) (.recv gpidAll) := hcoherent _ _ hidle
    have hserve : loc gpidProcess = .proc .serve := by
      rcases hmakes.idle rfl with hserve | ⟨kind, hserver⟩ | happ
      · exact hserve
      · cases hl.symm.trans hserver
      · cases hl.symm.trans happ
    have hup : (loc gpidProcess).up = 3 := by
      rw [hserve]
      rfl
    have hpresent : loc gpidShell ≠ .absent := h.base.present (by decide) (by decide) hup
    obtain ⟨s, hs⟩ := h.base.at_shell.resolve_left hpresent
    refine hblocked hpresent (not_idle_of_makes hcoherent fun hmakes => ?_)
    rw [hs] at hmakes
    rcases hmakes.idle rfl with hcase | ⟨_, hcase⟩ | hcase <;> cases hcase
  · exact hblocked h.base.present_process hidle

end Egos.Whole
