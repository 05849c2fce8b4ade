import Egos.Grass.Lifecycle

/-!
# The Grass Kernel: Clients and Servers

The system processes as their main loops have them: `sys_terminal` and `sys_file` receive
from everybody and reply to the requests that want a reply; a user process sends a request
and receives the reply from the same server; `sys_proc` starts processes and frees them.

`proc_try_send` stops the machine if the receiver is not in use. A process that is freed
after a server has taken its request leaves a reply without a receiver: `reply_to_killed`.
This is the only way: `unowed_kills_never_crash` says that the machine is not stopped if
`proc_free` is only called for processes that no server owes a reply.
-/

namespace Egos.Grass

open Egos.Lib Egos.Lib.Rendezvous

variable {μ : Type} {k k' k₀ : Kernel μ} {i : Slot}

/-! ## The programs -/

/-- The servers that reply to their clients. -/
def IsServer (pid : Int) : Prop := pid = gpidTerminal ∨ pid = gpidFile

/-- The system processes, from `GPID_PROCESS` to `GPID_SHELL`. -/
def IsSystem (pid : Int) : Prop := gpidProcess ≤ pid ∧ pid ≤ gpidShell

instance (pid : Int) : Decidable (IsServer pid) := inferInstanceAs (Decidable (_ ∨ _))

instance (pid : Int) : Decidable (IsSystem pid) := inferInstanceAs (Decidable (_ ∧ _))

theorem IsServer.isSystem {pid : Int} (h : IsServer pid) : IsSystem pid := by
  rcases h with rfl | rfl <;> decide

theorem isSystem_process : IsSystem gpidProcess := by decide

/-- `TERM_INPUT` -/
def termInput : Nat := 0

/-- `FILE_READ` -/
def fileRead : Nat := 1

section Programs

-- `req->type`, the first word of a message
variable (reqType : μ → Nat)

/-- The server replies to this request. -/
def WantsReply (server : Int) (msg : μ) : Prop :=
  (server = gpidTerminal ∧ reqType msg = termInput) ∨ (server = gpidFile ∧ reqType msg = fileRead)

/-- The server with this record has taken a request and not replied to it yet. -/
def Owing (server : Int) (sc : Syscall μ) : Prop :=
  sc.type = .recv ∧ WantsReply reqType server sc.content

/-- The client with this record has sent a request that wants a reply. -/
def Awaiting (sc : Syscall μ) : Prop :=
  sc.type = .send ∧ WantsReply reqType sc.receiver sc.content

instance (server : Int) (msg : μ) : Decidable (WantsReply reqType server msg) :=
  inferInstanceAs (Decidable (_ ∨ _))

instance (server : Int) (sc : Syscall μ) : Decidable (Owing reqType server sc) :=
  inferInstanceAs (Decidable (_ ∧ _))

instance (sc : Syscall μ) : Decidable (Awaiting reqType sc) := inferInstanceAs (Decidable (_ ∧ _))

/-- The calls that the program of process `pid` makes next, after the one in its record. -/
def Follows (pid : Int) (sc : Syscall μ) : Request Int Int μ → Prop
  | .recv source =>
      if IsServer pid then source = gpidAll ∧ ¬ Owing reqType pid sc
      else if pid ≥ gpidUserStart then Awaiting reqType sc ∧ source = sc.receiver
      else True
  | .send receiver _ =>
      if IsServer pid then
        -- a reply, or at the start the notification of `GPID_PROCESS`
        (Owing reqType pid sc ∧ receiver = sc.sender) ∨ ((requestOf sc).isNone ∧ receiver = gpidProcess)
      else if pid ≥ gpidUserStart then
        -- a request, or `PROC_EXIT` at any time
        (IsServer receiver ∧ ¬ Awaiting reqType sc) ∨ receiver = gpidProcess
      else IsSystem receiver

/-- Processes make the calls of their programs, and `sys_proc` alone manages processes and
    frees user processes. -/
def Protocol (k : Kernel μ) : Event μ → Prop
  | .entry e => ∀ call ∈ e.call, Follows reqType k.curr.pid (k.area k.curr.pid) call
  | .free pid => k.curr.pid = gpidProcess ∧ (pid = gpidAll ∨ pid ≥ gpidUserStart)
  | _ => k.curr.pid = gpidProcess

instance (pid : Int) (sc : Syscall μ) (call : Request Int Int μ) :
    Decidable (Follows reqType pid sc call) := by
  cases call <;> unfold Follows <;> infer_instance

instance (k : Kernel μ) (ev : Event μ) : Decidable (Protocol reqType k ev) := by
  cases ev <;> unfold Protocol <;> infer_instance

/-- The server has taken a request of the client, and the client has not taken the reply. -/
def Owes (k : Kernel μ) (server client : Int) : Prop :=
  IsServer server ∧
    ((waitingOf k.procSet server = none ∧ Owing reqType server (k.area server) ∧
        (k.area server).sender = client) ∨
      ∃ msg, waitingOf k.procSet server = some (.send client msg))

/-- The event releases no process that a server owes a reply. -/
def Unowed (k : Kernel μ) (ev : Event μ) : Prop :=
  ∀ server client, Releases ev client → ¬ Owes reqType k server client

/-- An event of the system. -/
def Serves (k : Kernel μ) (ev : Event μ) (k' : Kernel μ) : Prop :=
  Protocol reqType k ev ∧ Evolves k ev k'

/-- An event of the system that leaves no server with a reply to a process it releases. -/
def ServesUnowed (k : Kernel μ) (ev : Event μ) (k' : Kernel μ) : Prop :=
  Unowed reqType k ev ∧ Serves reqType k ev k'

/-- The system processes are up, and the servers have no request. -/
structure ServersUp (k : Kernel μ) : Prop where
  loaded : ∀ i : Slot, IsSystem i.val → Loaded k.procSet i
  idle : ∀ server, IsServer server → ¬ Owing reqType server (k.area server)

/-! ## The invariant -/

/-- What keeps the kernel from meeting a send without a receiver. -/
structure Obliged (k : Kernel μ) : Prop where
  ordered : Ordered k
  system : ∀ i : Slot, IsSystem i.val → Loaded k.procSet i
  mirror : ∀ pid c, waitingOf k.procSet pid = some c → requestOf (k.area pid) = some c
  sends : ∀ sender receiver msg, waitingOf k.procSet sender = some (.send receiver msg) →
    IsSystem receiver ∨ (IsServer sender ∧ InUse k.procSet receiver)
  owed : ∀ server, IsServer server → waitingOf k.procSet server = none →
    Owing reqType server (k.area server) → InUse k.procSet (k.area server).sender

end Programs

variable {reqType : μ → Nat}

theorem Start.obliged (h : Start k) (hup : ServersUp reqType k) : Obliged reqType k := by
  refine ⟨h.inv.ordered, hup.loaded, ?_, ?_, fun server hs _ ho => absurd ho (hup.idle server hs)⟩
  · intro pid c hc
    rw [h.waitingOf_eq] at hc
    cases hc
  · intro sender receiver msg hc
    rw [h.waitingOf_eq] at hc
    cases hc

/-! ## Processes in use -/

theorem Obliged.inUse_system (h : Obliged reqType k) {pid : Int} (hpid : IsSystem pid) :
    InUse k.procSet pid := by
  obtain ⟨hge, hle⟩ := hpid
  rw [gpidProcess] at hge
  rw [gpidShell] at hle
  have hlt : pid.toNat < 17 := by omega
  have hval : ((⟨pid.toNat, hlt⟩ : Slot).val : Int) = pid := by
    show ((pid.toNat : Nat) : Int) = pid
    omega
  have hloaded := h.system ⟨pid.toNat, hlt⟩ (hval.symm ▸ ⟨hge, hle⟩)
  refine ⟨⟨pid.toNat, hlt⟩, ?_, ?_, hloaded.1⟩
  · show pid.toNat < 16
    omega
  · rw [h.ordered.table.named _ hloaded.1, hval]

theorem Ordered.inUse_curr (h : Ordered k) : InUse k.procSet k.curr.pid :=
  ⟨k.currProcIdx, h.table.lt_of_loaded h.loaded, rfl, h.loaded.1⟩

theorem Ordered.waiting_curr (h : Ordered k) : waitingOf k.procSet k.curr.pid = none := by
  rw [Kernel.curr, h.table.named _ h.loaded.1, waitingOf_val (h.table.lt_of_loaded h.loaded),
    pendingCall, h.running, if_neg (by decide)]

/-- Whoever has an unfinished call is in use. -/
theorem Ordered.inUse_issue (h : Ordered k) {call : Option (Request Int Int μ)} {pid : Int}
    {c : Request Int Int μ} (hc : issue (waitingOf k.procSet) k.curr.pid call pid = some c) :
    InUse k.procSet pid := by
  rcases issue_eq_some hc with hold | ⟨rfl, _⟩
  · obtain ⟨i, hlt, rfl, hpending, _⟩ := waitingOf_eq_some hold
    exact ⟨i, hlt, h.table.pid_of_pending hpending, (loaded_of_pending hpending).1⟩
  · exact h.inUse_curr

/-- A process in use that is not released stays in use. -/
theorem Ordered.inUse_stays (h : Ordered k) {ev : Event μ} (he : Evolves k ev k')
    {pid : Int} (huse : InUse k.procSet pid) (hrel : ¬ Releases ev pid) :
    InUse k'.procSet pid := by
  by_cases hentry : ∃ e, ev = .entry e
  · obtain ⟨e, rfl⟩ := hentry
    cases he with
    | entry henters =>
      obtain ⟨_, _, _, hm⟩ := h.enters henters
      exact (hm.use.inUse_iff pid).mpr huse
  · have hnot : ∀ e, ev ≠ .entry e := fun e heq => hentry ⟨e, heq⟩
    obtain ⟨i, hlt, rfl, hused⟩ := huse
    have hpid := h.table.named i hused
    rw [hpid] at hrel
    rcases h.slot_kept he hnot hused hrel with hsame | ⟨_, hready⟩
    · exact ⟨i, hlt, by rw [hsame], by rw [hsame]; exact hused⟩
    · exact ⟨i, hlt, by rw [hready], by rw [hready]; exact ProcStatus.noConfusion⟩

/-! ## Entries -/

theorem SameCall.requestOf_eq {sc sc' : Syscall μ} (h : SameCall sc sc') :
    requestOf sc' = requestOf sc := by
  rw [requestOf, requestOf, h.type, h.sender, h.receiver, h.content]

theorem SameCall.owing_iff {sc sc' : Syscall μ} (h : SameCall sc sc') (server : Int) :
    Owing reqType server sc' ↔ Owing reqType server sc := by
  rw [Owing, Owing, h.type, h.content]

theorem stores_area_of_ne (h : Ordered k) (call : Option (Request Int Int μ)) {pid : Int}
    (hpid : pid ≠ k.curr.pid) : (k.stores call).area pid = k.area pid := by
  cases call with
  | none => rfl
  | some c =>
    apply request_area_of_ne
    rw [h.switched]
    exact hpid

/-- The area of a process with an unfinished call holds this call. -/
theorem Obliged.mirror_issue (h : Obliged reqType k) {call : Option (Request Int Int μ)} {pid : Int}
    {c : Request Int Int μ} (hc : issue (waitingOf k.procSet) k.curr.pid call pid = some c) :
    requestOf ((k.stores call).area pid) = some c := by
  by_cases hpid : pid = k.curr.pid
  · subst hpid
    rcases issue_eq_some hc with hold | ⟨_, rfl⟩
    · rw [h.ordered.waiting_curr] at hold
      cases hold
    · have hvm : k.curr.pid = k.currVmPid := h.ordered.switched.symm
      rw [hvm]
      exact requestOf_request k c
  · rw [stores_area_of_ne h.ordered call hpid]
    rcases issue_eq_some hc with hold | ⟨heq, _⟩
    · exact h.mirror pid c hold
    · exact absurd heq hpid

theorem AreaAfter.of_not_party {a a' : Int → Syscall μ} {delivery : Option (Delivery Int μ)}
    (h : AreaAfter a a' delivery) {pid : Int} (hp : ¬ Party delivery pid) : a' pid = a pid := by
  cases delivery with
  | none => rw [h]
  | some d =>
    exact h.2.2 pid (fun hs => hp ⟨d, rfl, Or.inl hs⟩) fun hr => hp ⟨d, rfl, Or.inr hr⟩

/-- A send that a program makes has a receiver. -/
theorem Obliged.follows_send (h : Obliged reqType k) {receiver : Int} {msg : μ}
    (hf : Follows reqType k.curr.pid (k.area k.curr.pid) (.send receiver msg)) :
    IsSystem receiver ∨ (IsServer k.curr.pid ∧ InUse k.procSet receiver) := by
  unfold Follows at hf
  dsimp only at hf
  split_ifs at hf with hserver huser
  · rcases hf with ⟨howing, rfl⟩ | ⟨_, rfl⟩
    · exact Or.inr ⟨hserver, h.owed _ hserver h.ordered.waiting_curr howing⟩
    · exact Or.inl isSystem_process
  · rcases hf with ⟨hreceiver, _⟩ | rfl
    · exact Or.inl hreceiver.isSystem
    · exact Or.inl isSystem_process
  · exact Or.inl hf

/-- Whoever a server owes a reply after an entry is in use. -/
theorem Obliged.owed_enters (h : Obliged reqType k) {call : Option (Request Int Int μ)}
    {delivery : Option (Delivery Int μ)} (hm : Moved k call delivery k') {server : Int}
    (hserver : IsServer server) (hfree : waitingOf k'.procSet server = none)
    (howing : Owing reqType server (k'.area server)) :
    InUse k'.procSet (k'.area server).sender := by
  obtain ⟨hstep, ⟨a, harea, hsame⟩, huse⟩ := hm
  rw [huse.inUse_iff]
  have hcall := hsame server
  rw [← hcall.owing_iff] at howing
  rw [← hcall.sender]
  by_cases hparty : Party delivery server
  · obtain ⟨d, rfl, hd⟩ := hparty
    have hfits := hstep.fits rfl
    rcases hd with rfl | rfl
    · -- the server has sent, so its record is no receive
      have hmirror := h.mirror_issue hfits.send
      rw [harea.1] at howing
      have htype : ((k.stores call).area d.sender).type = .recv := howing.1
      rw [requestOf_recv htype] at hmirror
      cases hmirror
    · -- the server has received from a process that was waiting
      rw [harea.2.1.2.1]
      exact h.ordered.inUse_issue hfits.send
  · have hsame' := harea.of_not_party hparty
    rw [hstep.of_not_party hparty] at hfree
    have hbefore : waitingOf k.procSet server = none ∧ (k.stores call).area server = k.area server := by
      cases call with
      | none => exact ⟨hfree, rfl⟩
      | some c =>
        have hne : server ≠ k.curr.pid := by
          rintro rfl
          rw [issue, Function.update_self] at hfree
          cases hfree
        rw [issue, Function.update_of_ne hne] at hfree
        exact ⟨hfree, stores_area_of_ne h.ordered _ hne⟩
    rw [hsame', hbefore.2] at howing ⊢
    exact h.owed server hserver hbefore.1 howing

theorem Obliged.enters (h : Obliged reqType k) {e : Entry μ} (hp : Protocol reqType k (.entry e))
    (he : Enters k e k') : Obliged reqType k' := by
  obtain ⟨hordered, hcaller, delivery, hm⟩ := h.ordered.enters he
  have hstep := hm.step
  refine ⟨hordered, fun i hi => (hm.use.loaded_iff i).mpr (h.system i hi), ?_, ?_, ?_⟩
  · intro pid c hc
    obtain ⟨a, harea, hsame⟩ := hm.area
    have hparty : ¬ Party delivery pid := fun hp => by
      rw [hstep.of_party hp] at hc
      cases hc
    rw [← (hsame pid).requestOf_eq, harea.of_not_party hparty]
    exact h.mirror_issue (hstep.issued hc)
  · intro sender receiver msg hc
    rw [hm.use.inUse_iff]
    rcases hstep.waiting hc with hold | ⟨hsender, hnew⟩
    · exact h.sends sender receiver msg hold
    · dsimp only at hsender hnew
      rw [hsender]
      exact h.follows_send (hp _ hnew)
  · exact fun server hs hfree howing => h.owed_enters hm hs hfree howing

/-! ## Process management -/

/-- System processes are never released. -/
theorem Protocol.not_releases {ev : Event μ} (h : Protocol reqType k ev) {pid : Int}
    (hpid : IsSystem pid) : ¬ Releases ev pid := by
  obtain ⟨_, hle⟩ := hpid
  rw [gpidShell] at hle
  rintro (rfl | ⟨_, huser⟩)
  · rcases h.2 with hall | huser
    · rw [gpidAll] at hall
      rw [gpidProcess] at *
      omega
    · rw [gpidUserStart] at huser
      omega
  · rw [gpidUserStart] at huser
    omega

theorem Obliged.not_isLoading (h : Obliged reqType k) {pid : Int} (hpid : IsSystem pid) :
    ¬ IsLoading k pid := by
  rintro ⟨i, hi, hloading⟩
  have hval := h.ordered.table.named i (by rw [hloading]; decide)
  rw [← hi, hval] at hpid
  exact (h.system i hpid).2 hloading

/-- A server is left alone by process management. -/
theorem Obliged.server_stays (h : Obliged reqType k) {ev : Event μ} (he : Serves reqType k ev k')
    (hnot : ∀ e, ev ≠ .entry e) {server : Int} (hserver : IsServer server) :
    waitingOf k'.procSet server = waitingOf k.procSet server ∧ k'.area server = k.area server := by
  have hsystem := hserver.isSystem
  have harea := he.2.area_eq hnot (h.not_isLoading hsystem)
  obtain ⟨i, hlt, hpid, hused⟩ := h.inUse_system hsystem
  rw [h.ordered.table.named i hused] at hpid
  subst hpid
  have hslot := h.ordered.slot_stays he.2 hnot (h.system i hsystem) (he.1.not_releases hsystem)
  rw [waitingOf_val hlt, waitingOf_val hlt, hslot]
  exact ⟨rfl, harea⟩

theorem Obliged.manages (h : Obliged reqType k) {ev : Event μ} (he : ServesUnowed reqType k ev k')
    (hnot : ∀ e, ev ≠ .entry e) : Obliged reqType k' := by
  obtain ⟨hunowed, hserves⟩ := he
  obtain ⟨hprotocol, hevolves⟩ := hserves
  obtain ⟨hm, _⟩ := h.ordered.managed_of_evolves hevolves hnot
  refine ⟨h.ordered.evolves hevolves, ?_, ?_, ?_, ?_⟩
  · intro i hi
    rw [Loaded, h.ordered.slot_stays hevolves hnot (h.system i hi) (hprotocol.not_releases hi)]
    exact h.system i hi
  · intro pid c hc
    have hbefore := hm.waiting hc
    have hloading : ¬ IsLoading k pid := fun hl => by
      rw [hl.waitingOf_eq_none h.ordered.table] at hbefore
      cases hbefore
    rw [hevolves.area_eq hnot hloading]
    exact h.mirror pid c hbefore
  · intro sender receiver msg hc
    have hbefore := hm.waiting hc
    rcases h.sends sender receiver msg hbefore with hsystem | ⟨hserver, huse⟩
    · exact Or.inl hsystem
    · -- the server owes the receiver this message
      have howes : Owes reqType k sender receiver := ⟨hserver, Or.inr ⟨msg, hbefore⟩⟩
      exact Or.inr ⟨hserver, h.ordered.inUse_stays hevolves huse
        fun hrel => hunowed sender receiver hrel howes⟩
  · intro server hserver hfree howing
    obtain ⟨hwaiting, harea⟩ := h.server_stays ⟨hprotocol, hevolves⟩ hnot hserver
    rw [hwaiting] at hfree
    rw [harea] at howing ⊢
    have howes : Owes reqType k server (k.area server).sender :=
      ⟨hserver, Or.inl ⟨hfree, howing, rfl⟩⟩
    exact h.ordered.inUse_stays hevolves (h.owed server hserver hfree howing)
      fun hrel => hunowed server _ hrel howes

theorem Obliged.step (h : Obliged reqType k) {ev : Event μ} (he : ServesUnowed reqType k ev k') :
    Obliged reqType k' := by
  by_cases hentry : ∃ e, ev = .entry e
  · obtain ⟨e, rfl⟩ := hentry
    cases he.2.2 with
    | entry henters => exact h.enters he.2.1 henters
  · exact h.manages he fun e heq => hentry ⟨e, heq⟩

/-- No send, pending or made by a program, names a process that is not in use. -/
theorem Obliged.not_badTarget (h : Obliged reqType k) {call : Option (Request Int Int μ)}
    (hcall : ∀ c ∈ call, Follows reqType k.curr.pid (k.area k.curr.pid) c) {pid : Int} :
    ¬ BadTarget k call pid := by
  have hfound : ∀ sender, IsSystem pid ∨ (IsServer sender ∧ InUse k.procSet pid) →
      InUse k.procSet pid := by
    rintro sender (hsystem | ⟨_, huse⟩)
    · exact h.inUse_system hsystem
    · exact huse
  rintro ⟨hnot, ⟨sender, msg, hsend⟩ | ⟨msg, rfl⟩⟩
  · exact hnot (hfound sender (h.sends sender pid msg hsend))
  · exact hnot (hfound _ (h.follows_send (hcall _ rfl)))

/-- Killing a client does not crash the kernel while no server owes it a reply. In every
    state that is reached from a quiet start with the system processes up, by processes that
    make the calls of their programs and by `sys_proc`, if `proc_free` releases only user
    processes that no server owes a reply: neither a call of the running process nor a timer
    interrupt makes `proc_try_send` stop the machine for an unknown receiver. -/
theorem unowed_kills_never_crash {events : List (Event μ)} (hstart : Start k₀)
    (hup : ServersUp reqType k₀) (hrun : Run (ServesUnowed reqType) k₀ events k)
    (passes : Nat) (key : Option UInt8) (ctx : Context) (pid : Int) :
    (∀ call, Follows reqType k.curr.pid (k.area k.curr.pid) call →
      Kernel.kernelEntry passes 0x80000003 key ctx (k.request call) ≠
        .error (.fatal (.unknownReceiver pid))) ∧
    Kernel.kernelEntry passes 0x80000007 key ctx k ≠ .error (.fatal (.unknownReceiver pid)) := by
  have hobliged : Obliged reqType k :=
    hrun.invariant (P := Obliged reqType) (hstart.obliged hup) fun _ _ _ h he => h.step he
  refine ⟨fun call hcall hentry => ?_, fun hentry => ?_⟩
  · cases (hobliged.ordered.wp_call call passes key ctx).of_error hentry with
    | unknownReceiver hbad =>
      refine hobliged.not_badTarget (fun c hc => ?_) hbad
      obtain rfl := Option.some.inj hc
      exact hcall
  · cases (hobliged.ordered.wp_tick passes key ctx).of_error hentry with
    | unknownReceiver hbad => exact hobliged.not_badTarget (fun c hc => by simp at hc) hbad

theorem serversUp_quietKernel : ServersUp id (quietKernel 5) := by
  refine ⟨by decide, fun server _ howing => ?_⟩
  cases howing.1

/-! Whether an event is unowed can be computed: only two servers may owe a reply, each to one
process. -/

instance (ev : Event μ) (pid : Int) : Decidable (Releases ev pid) :=
  match ev with
  | .free freed => decidable_of_iff (freed = pid ∨ freed = gpidAll ∧ pid ≥ gpidUserStart)
      (by simp [Releases])
  | .entry _ | .alloc _ | .load _ | .ready _ => isFalse (by simp [Releases])

/-- The receiver of a send. -/
def sendsTo : Option (Request Int Int μ) → Option Int
  | some (.send receiver _) => some receiver
  | _ => none

theorem sendsTo_eq_some {call : Option (Request Int Int μ)} {pid : Int} :
    sendsTo call = some pid ↔ ∃ msg, call = some (.send pid msg) := by
  rcases call with _ | _ | _ <;> simp [sendsTo]

theorem unowed_iff {ev : Event μ} : Unowed reqType k ev ↔
    ∀ server ∈ [gpidTerminal, gpidFile],
      (waitingOf k.procSet server = none → Owing reqType server (k.area server) →
        ¬ Releases ev (k.area server).sender) ∧
      ∀ client ∈ sendsTo (waitingOf k.procSet server), ¬ Releases ev client := by
  constructor
  · intro h server hserver
    have hs : IsServer server := by simpa [IsServer] using hserver
    refine ⟨fun hnone howing hrel => ?_, fun client hclient hrel => ?_⟩
    · exact h server _ hrel ⟨hs, .inl ⟨hnone, howing, rfl⟩⟩
    · exact h server client hrel ⟨hs, .inr (sendsTo_eq_some.mp hclient)⟩
  · rintro h server client hrel ⟨hs, howes⟩
    obtain ⟨hrequest, hreply⟩ := h server (by simpa [IsServer] using hs)
    rcases howes with ⟨hnone, howing, rfl⟩ | hsend
    · exact hrequest hnone howing hrel
    · exact hreply client (sendsTo_eq_some.mpr hsend) hrel

/-- Only `proc_free` releases a process, so the table is looked at for no other event. -/
instance (ev : Event μ) : Decidable (Unowed reqType k ev) :=
  match ev with
  | .free _ => decidable_of_iff' _ unowed_iff
  | .entry _ | .alloc _ | .load _ | .ready _ => isTrue (by simp [Unowed, Releases])

/-- Process 5 sends a `FILE_READ` to the file server and gets its reply; then `sys_proc` frees it,
    and the file server has its turn. -/
def killServed : List (Command Nat) :=
  [.tick, .tick, .tick, .tick, .call (.send gpidFile fileRead), .tick, .tick,
    .call (.recv gpidAll), .tick, .call (.recv gpidFile), .tick, .tick, .call (.send 5 9), .tick,
    .tick, .free 5, .tick, .tick]

/-- The events of the kill, and the state after it. Irreducible: no conversion should run through
    it. -/
@[irreducible] def servedKilled : List (Event Nat) × Kernel Nat :=
  executed (checked (fun k ev => decide (Unowed id k ev ∧ Protocol id k ev)) Kernel.perform)
    killServed (quietKernel 5)

theorem run_servedKilled : Run (ServesUnowed id) (quietKernel 5) servedKilled.1 servedKilled.2 := by
  unfold servedKilled
  refine (run_checked (by decide +kernel)).mono fun _ _ _ h => ?_
  obtain ⟨hunowed, hprotocol⟩ := of_decide_eq_true h.1
  exact ⟨hunowed, hprotocol, h.2⟩

/-- A client that was answered is killed. The file server goes on to its next request. -/
theorem unowed_kills_never_crash_served :
    servedKilled.2.curr.pid = gpidFile ∧ (servedKilled.2.procSet 5).status = .unused ∧
      ∀ pid, Kernel.kernelEntry 2 0x80000003 none ⟨0, fun _ => 0⟩
          (servedKilled.2.request (.recv gpidAll)) ≠ .error (.fatal (.unknownReceiver pid)) ∧
        Kernel.kernelEntry 2 0x80000007 none ⟨0, fun _ => 0⟩ servedKilled.2 ≠
          .error (.fatal (.unknownReceiver pid)) := by
  have hstate : servedKilled.2.curr.pid = gpidFile ∧ (servedKilled.2.procSet 5).status = .unused ∧
      Follows id servedKilled.2.curr.pid (servedKilled.2.area servedKilled.2.curr.pid)
        (.recv gpidAll) := by
    decide +kernel
  obtain ⟨hcurr, hfreed, hfollows⟩ := hstate
  refine ⟨hcurr, hfreed, fun pid => ?_⟩
  obtain ⟨hcall, htick⟩ := unowed_kills_never_crash start_fiveProcesses serversUp_quietKernel
    run_servedKilled 2 none ⟨0, fun _ => 0⟩ pid
  exact ⟨hcall _ hfollows, htick⟩

/-! A process is killed between its request and the reply. -/

/-- Process 5 sends a `FILE_READ` to the file server, which takes it, and receives from the
    file server; `sys_proc` frees process 5. Then the file server has its turn. -/
def killClient : List (Command Nat) :=
  [.tick, .tick, .tick, .tick, .call (.send gpidFile fileRead), .tick, .tick,
    .call (.recv gpidAll), .tick, .call (.recv gpidFile), .free 5, .tick, .tick]

/-- The events of the kill, and the state after it. -/
def clientKilled : List (Event Nat) × Kernel Nat :=
  executed (checked (fun k ev => decide (Protocol id k ev)) Kernel.perform) killClient
    (quietKernel 5)

/-- The reply of the file server stops the machine. -/
theorem reply_to_killed :
    Start (quietKernel 5) ∧ ServersUp id (quietKernel 5) ∧
      Run (Serves id) (quietKernel 5) clientKilled.1 clientKilled.2 ∧
      clientKilled.2.curr.pid = gpidFile ∧
      Follows id gpidFile (clientKilled.2.area gpidFile) (.send 5 9) ∧
      Kernel.kernelEntry 2 0x80000003 none ⟨0, fun _ => 0⟩ (clientKilled.2.request (.send 5 9)) =
        .error (.fatal (.unknownReceiver 5)) := by
  have hrun : Run (Serves id) (quietKernel 5) clientKilled.1 clientKilled.2 :=
    (run_checked (by decide +kernel)).mono fun _ _ _ h => ⟨of_decide_eq_true h.1, h.2⟩
  exact ⟨start_fiveProcesses, serversUp_quietKernel, hrun, by decide +kernel, by decide +kernel,
    Ends.eq_error (by decide +kernel)⟩

end Egos.Grass
