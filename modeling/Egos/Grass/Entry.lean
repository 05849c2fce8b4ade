import Egos.Grass.Delivery

/-!
# The Grass Kernel: One Entry

From a trap of the running process to the return to user code. `Inv` is what holds while
user code runs. `Inv.wp_call` and `Inv.wp_tick` say what a system call and a timer
interrupt do: the kernel takes a turn of the rendezvous machine (`Turned`), notes what it
did, and hands the message over in user space.
-/

namespace Egos.Grass

open Egos.Lib Egos.Lib.Rendezvous

variable {μ : Type} {k k' : Kernel μ} {i : Slot}

/-! ## The invariant -/

/-- What holds while user code runs. -/
structure Inv (k : Kernel μ) : Prop where
  calm : Calm k.procSet
  running : (k.procSet k.currProcIdx).status = .running
  only : ∀ i, (k.procSet i).status = .running → i = k.currProcIdx
  switched : k.currVmPid = (k.procSet k.currProcIdx).pid

theorem Inv.loaded (h : Inv k) : Loaded k.procSet k.currProcIdx := by
  constructor <;> rw [h.running] <;> decide

theorem Inv.lt (h : Inv k) : k.currProcIdx.val < 16 := h.calm.table.lt_of_loaded h.loaded

theorem Inv.pid (h : Inv k) : (k.procSet k.currProcIdx).pid = k.currProcIdx.val :=
  h.calm.table.named _ h.loaded.1

theorem Inv.waiting_curr (h : Inv k) : waitingOf k.procSet k.currProcIdx.val = none := by
  rw [waitingOf_val h.lt, pendingCall, h.running, if_neg (by decide)]

/-- The two tables agree in everything but the saved contexts. -/
def SameCore (t t' : Slot → Process μ) : Prop :=
  ∀ i, (t' i).pid = (t i).pid ∧ (t' i).syscall = (t i).syscall ∧ (t' i).status = (t i).status

theorem sameCore_update {t : Slot → Process μ} {p : Process μ} (hpid : p.pid = (t i).pid)
    (hsyscall : p.syscall = (t i).syscall) (hstatus : p.status = (t i).status) :
    SameCore t (Function.update t i p) := by
  intro j
  rw [Function.update_apply]
  split_ifs with hj
  · rw [hj]
    exact ⟨hpid, hsyscall, hstatus⟩
  · exact ⟨rfl, rfl, rfl⟩

theorem SameCore.waitingOf_eq {t t' : Slot → Process μ} (h : SameCore t t') :
    waitingOf t' = waitingOf t := waitingOf_congr (fun i => (h i).2.1) fun i => (h i).2.2

theorem Calm.congr {t t' : Slot → Process μ} (h : Calm t) (hcore : SameCore t t') : Calm t' := by
  refine ⟨h.table.congr (fun i => (hcore i).1) fun i => (hcore i).2.2, fun i => ?_, fun i => ?_, ?_⟩
  · rw [RecordOk, (hcore i).2.1, (hcore i).2.2]
    exact h.record i
  · rw [IdleOk, (hcore i).2.1, (hcore i).2.2]
    exact h.idle i
  · rw [hcore.waitingOf_eq]
    exact h.settled

theorem Inv.congr (h : Inv k) (hcore : SameCore k.procSet k'.procSet)
    (hidx : k'.currProcIdx = k.currProcIdx) (hvm : k'.currVmPid = k.currVmPid) : Inv k' := by
  refine ⟨h.calm.congr hcore, ?_, ?_, ?_⟩
  · rw [hidx, (hcore _).2.2]
    exact h.running
  · intro i hi
    rw [hidx]
    exact h.only i ((hcore i).2.2.symm.trans hi)
  · rw [hidx, hvm, (hcore _).1]
    exact h.switched

/-- A slot that does not wait may change its status to another such one. -/
theorem Calm.update {t : Slot → Process μ} (h : Calm t) (hi : Loaded t i)
    (hnot : (t i).status ≠ .pendingSyscall) {p : Process μ} (hpid : p.pid = (t i).pid)
    (hsyscall : p.syscall = (t i).syscall) (hp : p.status ≠ .pendingSyscall) :
    Calm (Function.update t i p) ∧ waitingOf (Function.update t i p) = waitingOf t := by
  have hwaiting : waitingOf (Function.update t i p) = waitingOf t := by
    have hlt := h.table.lt_of_loaded hi
    rw [waitingOf_update hlt, pendingCall, if_neg hp]
    apply Function.update_eq_self_iff.mpr
    rw [waitingOf_val hlt, pendingCall, if_neg hnot]
  refine ⟨⟨h.table.update hi hpid, fun j => ?_, fun j => ?_, ?_⟩, hwaiting⟩
  · rw [Function.update_apply]
    split_ifs
    · exact fun hpending => absurd hpending hp
    · exact h.record j
  · rw [Function.update_apply]
    split_ifs
    · intro _ _
      rw [hsyscall]
      exact h.idle i hi.1 hnot
    · exact h.idle j
  · rw [hwaiting]
    exact h.settled

/-! ## The frame of an entry -/

/-- No process comes or goes. -/
structure SameUse (t t' : Slot → Process μ) : Prop where
  pid : ∀ i, (t' i).pid = (t i).pid
  unused : ∀ i, (t' i).status = .unused ↔ (t i).status = .unused
  loading : ∀ i, (t' i).status = .loading ↔ (t i).status = .loading

theorem SameUse.refl (t : Slot → Process μ) : SameUse t t :=
  ⟨fun _ => rfl, fun _ => Iff.rfl, fun _ => Iff.rfl⟩

theorem SameUse.trans {t t' t'' : Slot → Process μ} (h : SameUse t t') (h' : SameUse t' t'') :
    SameUse t t'' :=
  ⟨fun i => (h'.pid i).trans (h.pid i), fun i => (h'.unused i).trans (h.unused i),
    fun i => (h'.loading i).trans (h.loading i)⟩

theorem SameUse.loaded_iff {t t' : Slot → Process μ} (h : SameUse t t') (i : Slot) :
    Loaded t' i ↔ Loaded t i := by
  exact and_congr (not_congr (h.unused i)) (not_congr (h.loading i))

theorem SameUse.inUse_iff {t t' : Slot → Process μ} (h : SameUse t t') (pid : Int) :
    InUse t' pid ↔ InUse t pid := by
  constructor
  · exact fun hu => hu.congr (fun i => (h.pid i).symm) fun i hi heq => hi ((h.unused i).mpr heq)
  · exact fun hu => hu.congr h.pid fun i hi heq => hi ((h.unused i).mp heq)

theorem sameUse_update {t : Slot → Process μ} {p : Process μ} (hi : Loaded t i)
    (hpid : p.pid = (t i).pid) (hp : p.status ≠ .unused ∧ p.status ≠ .loading) :
    SameUse t (Function.update t i p) := by
  constructor
  · intro j
    rw [Function.update_apply]
    split_ifs with hj
    · rw [hpid, hj]
    · rfl
  · intro j
    rw [Function.update_apply]
    split_ifs with hj
    · rw [hj]
      exact iff_of_false hp.1 hi.1
    · rfl
  · intro j
    rw [Function.update_apply]
    split_ifs with hj
    · rw [hj]
      exact iff_of_false hp.2 hi.2
    · rfl

theorem SameCore.sameUse {t t' : Slot → Process μ} (h : SameCore t t') : SameUse t t' :=
  ⟨fun i => (h i).1, fun i => by rw [(h i).2.2], fun i => by rw [(h i).2.2]⟩

/-! ## Scheduling -/

/-- The rule for the loop of `clear_pending_syscalls`: it keeps what every call that it tries
    keeps. -/
theorem ends_clearPendingSyscalls {P : Kernel μ → Prop}
    (htry : ∀ k i, P k → (k.procSet i).status = .pendingSyscall →
      Ends (k.procTrySyscall i) P fun _ => True) (h : P k) (passes : Nat) :
    Ends (k.clearPendingSyscalls passes) P fun _ => True := by
  have hturn : ∀ (kp : Kernel μ × Nat) (i : Slot), P kp.1 →
      Ends (Kernel.trySlot kp i) (fun kp' => P kp'.1) fun _ => True := by
    rintro ⟨k, progress⟩ i hk
    unfold Kernel.trySlot
    dsimp only
    split_ifs with hi
    · rw [ends_bind]
      refine (htry k i hk hi).mono (fun k' hk' => ?_) fun _ _ => trivial
      split_ifs <;> exact hk'
    · exact hk
  induction passes generalizing k with
  | zero => trivial
  | succ passes ih =>
    rw [Kernel.clearPendingSyscalls, ends_bind]
    refine (ends_foldlM hturn _ h).mono (fun kp hkp => ?_) fun _ _ => trivial
    obtain ⟨k', progress⟩ := kp
    dsimp only
    split
    · exact ih hkp
    · exact hkp

/-- `round_robin` returns a slot that is ready to run, or `MAX_NPROCESS`. -/
theorem roundRobin_spec (k : Kernel μ) :
    (k.roundRobin.val < 16 ∧ ((k.procSet k.roundRobin).status = .ready ∨
      (k.procSet k.roundRobin).status = .runnable)) ∨ k.roundRobin.val = 16 := by
  rw [Kernel.roundRobin]
  cases hfind : (Kernel.cyclicOrder k.currProcIdx).find? fun i =>
      decide ((k.procSet i).status = .ready ∨ (k.procSet i).status = .runnable) with
  | none => exact Or.inr rfl
  | some i =>
    have hi := List.find?_some hfind
    simp only [decide_eq_true_eq] at hi
    exact Or.inl ⟨lt_of_mem_cyclicOrder (List.mem_of_find?_eq_some hfind), hi⟩

theorem firstRun_pid (p : Process μ) : (Kernel.firstRun p).pid = p.pid := by
  unfold Kernel.firstRun
  split_ifs <;> rfl

theorem firstRun_syscall (p : Process μ) : (Kernel.firstRun p).syscall = p.syscall := by
  unfold Kernel.firstRun
  split_ifs <;> rfl

theorem firstRun_status (p : Process μ) : (Kernel.firstRun p).status = p.status := by
  unfold Kernel.firstRun
  split_ifs <;> rfl

/-- The state after the switch to slot `i`. -/
def Kernel.switchTo (k : Kernel μ) (i : Slot) : Kernel μ :=
  { k with
    procSet := Function.update k.procSet i { Kernel.firstRun (k.procSet i) with status := .running }
    currProcIdx := i
    currVmPid := (k.procSet i).pid }

theorem yieldIn_eq (h : Table k.procSet) (hlt : k.roundRobin.val < 16)
    (hi : Loaded k.procSet k.roundRobin) : k.yieldIn = .ok (k.switchTo k.roundRobin) := by
  have hcheck : ¬ ¬ k.roundRobin.val < maxNprocess := not_not.mpr hlt
  rw [Kernel.yieldIn, if_neg hcheck]
  generalize k.roundRobin = i at hlt hi
  have htable := h.update hi (firstRun_pid (k.procSet i))
  have huse : (Function.update k.procSet i (Kernel.firstRun (k.procSet i)) i).status ≠ .unused := by
    rw [Function.update_self, firstRun_status]
    exact hi.1
  have hstatus := htable.withStatus_eq huse hlt .running
  rw [Function.update_idem, Function.update_self] at hstatus
  simp only [Kernel.curr, Kernel.mmuSwitch, Kernel.setProc, Kernel.procSetRunning,
    Kernel.procSetStatus, Function.update_self, hstatus]
  rfl

/-- The scheduling decision and the switch to the process it selects. -/
theorem wp_yieldIn (h : Calm k.procSet) (hnone : ∀ i, (k.procSet i).status ≠ .running) :
    Ends k.yieldIn
      (fun k' => Inv k' ∧ waitingOf k'.procSet = waitingOf k.procSet ∧ k'.area = k.area ∧
        k'.actions = k.actions ∧ SameUse k.procSet k'.procSet)
      (· = .fatal .noProcessToRun) := by
  rcases roundRobin_spec k with ⟨hlt, hready⟩ | hnot
  · have hloaded : Loaded k.procSet k.roundRobin := by
      constructor <;> rcases hready with hs | hs <;> rw [hs] <;> decide
    have hpending : (k.procSet k.roundRobin).status ≠ .pendingSyscall := by
      rcases hready with hs | hs <;> rw [hs] <;> decide
    rw [yieldIn_eq h.table hlt hloaded, ends_ok]
    generalize k.roundRobin = i at hloaded hpending
    have hself : (k.switchTo i).procSet i =
        { Kernel.firstRun (k.procSet i) with status := .running } := Function.update_self _ _ _
    obtain ⟨hcalm, hwaiting⟩ := h.update hloaded hpending
      (p := { Kernel.firstRun (k.procSet i) with status := .running })
      (firstRun_pid _) (firstRun_syscall _) ProcStatus.noConfusion
    refine ⟨⟨hcalm, ?_, fun j hj => ?_, ?_⟩, hwaiting, rfl, rfl,
      sameUse_update hloaded (firstRun_pid _) ⟨ProcStatus.noConfusion, ProcStatus.noConfusion⟩⟩
    · exact congrArg Process.status hself
    · by_contra hji
      have hother : (k.switchTo i).procSet j = k.procSet j := Function.update_of_ne hji _ _
      rw [hother] at hj
      exact hnone j hj
    · exact ((congrArg Process.pid hself).trans (firstRun_pid _)).symm
  · have hge : ¬ k.roundRobin.val < maxNprocess := by
      rw [hnot, maxNprocess]
      decide
    rw [Kernel.yieldIn, if_pos hge]
    rfl

/-! ## The stores of a call -/

/-- The stores of a process that makes a call. -/
def Kernel.request (k : Kernel μ) : Request Int Int μ → Kernel μ
  | .send receiver content => k.sysSend receiver content
  | .recv source => k.sysRecv source

/-- The stores of a process before it enters the kernel, with or without a call. -/
def Kernel.stores (k : Kernel μ) : Option (Request Int Int μ) → Kernel μ
  | none => k
  | some c => k.request c

theorem request_procSet (k : Kernel μ) (c : Request Int Int μ) :
    (k.request c).procSet = k.procSet := by
  cases c <;> rfl

theorem request_currProcIdx (k : Kernel μ) (c : Request Int Int μ) :
    (k.request c).currProcIdx = k.currProcIdx := by
  cases c <;> rfl

theorem request_currVmPid (k : Kernel μ) (c : Request Int Int μ) :
    (k.request c).currVmPid = k.currVmPid := by
  cases c <;> rfl

/-- The call can be read back from the area of the process that is switched in. -/
theorem requestOf_request (k : Kernel μ) (c : Request Int Int μ) :
    requestOf ((k.request c).area k.currVmPid) = some c := by
  cases c <;> simp [Kernel.request, Kernel.sysSend, Kernel.sysRecv, Kernel.setSyscallArg, requestOf]

theorem Inv.request (h : Inv k) (c : Request Int Int μ) : Inv (k.request c) := by
  refine ⟨?_, ?_, ?_, ?_⟩
  · rw [request_procSet]
    exact h.calm
  · rw [request_procSet, request_currProcIdx]
    exact h.running
  · rw [request_procSet, request_currProcIdx]
    exact h.only
  · rw [request_procSet, request_currProcIdx, request_currVmPid]
    exact h.switched

/-! ## What an entry does -/

/-- The actions of an entry that makes this delivery. -/
def actionsOf : Option (Delivery Int μ) → List (Action μ)
  | none => []
  | some d => [.marked d.sender d.receiver .pendingSyscall, .copied d.sender d.receiver d.content,
      .woken d.receiver, .woken d.sender]

/-- The user-space areas after an entry that makes this delivery. -/
def AreaAfter (a a' : Int → Syscall μ) : Option (Delivery Int μ) → Prop
  | none => a' = a
  | some d => a' d.sender = { a d.sender with status := .done } ∧
      ((a' d.receiver).type = .recv ∧ (a' d.receiver).sender = d.sender ∧
        (a' d.receiver).content = d.content ∧ (a' d.receiver).status = .done) ∧
      ∀ pid, pid ≠ d.sender → pid ≠ d.receiver → a' pid = a pid

/-- One entry of the kernel as a turn of the rendezvous machine; `k` is the state before the
    stores of the call. -/
structure Turned (k : Kernel μ) (call : Option (Request Int Int μ))
    (delivery : Option (Delivery Int μ)) (k' : Kernel μ) : Prop where
  step : Step accepts (waitingOf k.procSet) ⟨k.curr.pid, call, delivery⟩ (waitingOf k'.procSet)
  actions : k'.actions = actionsOf delivery
  area : AreaAfter (k.stores call).area k'.area delivery
  use : SameUse k.procSet k'.procSet

/-- A send that is pending, or that is being made, names a pid that is not in use. -/
def BadTarget (k : Kernel μ) (call : Option (Request Int Int μ)) (pid : Int) : Prop :=
  ¬ InUse k.procSet pid ∧
    ((∃ sender content, waitingOf k.procSet sender = some (.send pid content)) ∨
      ∃ content, call = some (.send pid content))

/-- Why an entry may not return. -/
inductive EntryStop (k : Kernel μ) (call : Option (Request Int Int μ)) (passes : Nat) :
    Stop → Prop where
  | unknownReceiver {pid : Int} (hbad : BadTarget k call pid) :
      EntryStop k call passes (.fatal (.unknownReceiver pid))
  | unfinished (hfew : passes < 2) : EntryStop k call passes .unfinished
  | noProcessToRun : EntryStop k call passes (.fatal .noProcessToRun)

theorem Deliverable.fits {t : Slot → Process μ} {s r : Slot} (h : Table t)
    (hd : Deliverable t s r) :
    Fits accepts (waitingOf t) ⟨s.val, r.val, (t s).syscall.content⟩ :=
  h.fits_of_takes hd.sender hd.send hd.receiver hd.target hd.takes

theorem Half.sameUse_release {s r : Slot} (h : Half k.procSet s r) :
    SameUse k.procSet (k.release s r).procSet := by
  have hr := sameUse_update (loaded_of_pending h.receiver)
    (p := { k.procSet r with status := .runnable }) rfl ⟨ProcStatus.noConfusion, ProcStatus.noConfusion⟩
  have hs : Function.update k.procSet r { k.procSet r with status := .runnable } s =
      k.procSet s := Function.update_of_ne h.ne _ _
  refine hr.trans (sameUse_update ?_ (by rw [hs]) ⟨ProcStatus.noConfusion, ProcStatus.noConfusion⟩)
  rw [Loaded, hs]
  exact loaded_of_pending h.sender

/-- What a stretch of the loop does, in terms of the rendezvous machine. -/
theorem Delivers.effect {k₂ : Kernel μ} (h : Delivers k k₂) (htable : Table k.procSet) :
    Calm k₂.procSet ∧ SameUse k.procSet k₂.procSet ∧
      ((∀ i, (k.procSet i).status ≠ .running) → ∀ i, (k₂.procSet i).status ≠ .running) ∧
      ∃ delivery, k₂.actions = k.actions ++ actionsOf delivery ∧
        AreaAfter k.area k₂.area delivery ∧
        match delivery with
        | none => Settled accepts (waitingOf k.procSet) ∧ waitingOf k₂.procSet = waitingOf k.procSet
        | some d => Fits accepts (waitingOf k.procSet) d ∧
            waitingOf k₂.procSet = finish (waitingOf k.procSet) d := by
  cases h with
  | nothing hcalm =>
    exact ⟨hcalm, SameUse.refl _, id, none, (List.append_nil _).symm, rfl, hcalm.settled, rfl⟩
  | @one s r hd hhalf =>
    have hspid := htable.pid_of_pending hd.sender
    have hrpid := htable.pid_of_pending hd.receiver
    have hltr := htable.lt_of_pending hd.receiver
    have hs : (k.handOver s r).procSet s = k.procSet s := Function.update_of_ne hd.ne _ _
    have hr : (k.handOver s r).procSet r = Kernel.filled (k.procSet s) (k.procSet r) :=
      Function.update_self _ _ _
    have hsr : (s.val : Int) ≠ r.val := fun heq => hd.ne (Fin.ext (Int.ofNat_inj.mp heq))
    have hhand : SameUse k.procSet (k.handOver s r).procSet :=
      sameUse_update (loaded_of_pending hd.receiver) rfl (loaded_of_pending hd.receiver)
    refine ⟨hhalf.calm_release, hhand.trans hhalf.sameUse_release, fun hnone i => ?_,
      some ⟨s.val, r.val, (k.procSet s).syscall.content⟩, ?_, ⟨?_, ⟨?_, ?_, ?_, ?_⟩, ?_⟩,
      hd.fits htable, ?_⟩
    · rw [Kernel.release_procSet, Kernel.handOver_procSet]
      simp only [Function.update_apply]
      split_ifs with his hir
      all_goals first | exact ProcStatus.noConfusion | exact hnone i
    · simp only [Kernel.release, hs, hr, Kernel.filled, actionsOf]
      simp only [Kernel.handOver, hspid, hrpid, hd.receiver, List.append_assoc,
        List.cons_append, List.nil_append]
    · simp only [Kernel.release, hr, Kernel.filled, hrpid, Function.update_of_ne hsr]
      simp only [Kernel.handOver, hspid, Function.update_self]
    · simp only [Kernel.release, hr, Kernel.filled, hrpid, Function.update_self]
      exact hd.takes.1
    · simp only [Kernel.release, hr, Kernel.filled, hrpid, Function.update_self, hspid]
    · simp only [Kernel.release, hr, Kernel.filled, hrpid, Function.update_self]
    · simp only [Kernel.release, hr, Kernel.filled, hrpid, Function.update_self]
    · intro pid hps hpr
      simp only [Kernel.release, hr, Kernel.filled, hrpid, Function.update_of_ne hpr]
      simp only [Kernel.handOver, hspid, Function.update_of_ne hps]
    · rw [hhalf.waitingOf_release, Kernel.handOver_procSet, waitingOf_update hltr,
        Function.update_idem, finish, Function.update_comm hsr]

/-! ## System calls -/

/-- The state in which the system call of the current process is tried for the first
    time. -/
def Kernel.issueCall (k : Kernel μ) : Kernel μ :=
  { k with
    procSet := Function.update k.procSet k.currProcIdx { k.curr with
      syscall := { k.area k.curr.pid with status := .pending }
      status := .pendingSyscall
      mepc := k.curr.mepc + 4 }
    currVmPid := k.curr.pid }

theorem takeSyscall_eq (h : Table k.procSet) (hi : Loaded k.procSet k.currProcIdx) :
    k.takeSyscall = k.issueCall.procTrySyscall k.currProcIdx := by
  have hlt := h.lt_of_loaded hi
  have htable := h.update hi
    (p := { k.curr with syscall := { k.area k.curr.pid with status := .pending } }) rfl
  have huse : (Function.update k.procSet k.currProcIdx { k.curr with
      syscall := { k.area k.curr.pid with status := .pending } } k.currProcIdx).status ≠
        .unused := by
    rw [Function.update_self]
    exact hi.1
  have hstatus := htable.withStatus_eq huse hlt .pendingSyscall
  rw [Function.update_idem, Function.update_self] at hstatus
  rw [Kernel.takeSyscall]
  simp only [Kernel.curr, Kernel.mmuSwitch, Kernel.setProc, Kernel.syscallArg,
    Kernel.procSetPending, Kernel.procSetStatus, Function.update_self] at hstatus ⊢
  rw [hstatus]
  simp only [Function.update_self, Function.update_idem]
  rfl

/-- Right after a call was taken, it is the only one that may fit another. -/
theorem issued_issueCall (hcalm : Calm k.procSet)
    (hrunning : (k.procSet k.currProcIdx).status = .running) {c : Request Int Int μ}
    (hcall : requestOf (k.area k.curr.pid) = some c) :
    Issued k.issueCall.procSet k.currProcIdx ∧
      waitingOf k.issueCall.procSet =
        Function.update (waitingOf k.procSet) k.currProcIdx.val (some c) := by
  have hloaded : Loaded k.procSet k.currProcIdx := by
    constructor <;> rw [hrunning] <;> decide
  have hlt := hcalm.table.lt_of_loaded hloaded
  have hrequest : requestOf { k.area k.curr.pid with status := .pending } = some c := hcall
  have hwaiting : waitingOf k.issueCall.procSet =
      Function.update (waitingOf k.procSet) k.currProcIdx.val (some c) := by
    rw [Kernel.issueCall, waitingOf_update hlt, pendingCall, if_pos rfl, hrequest]
  refine ⟨⟨hcalm.table.update hloaded rfl, fun i => ?_, fun i => ?_, ?_, ?_⟩, hwaiting⟩
  · rw [Kernel.issueCall]
    simp only [Function.update_apply]
    split_ifs
    · exact fun _ => ⟨rfl, c, hrequest⟩
    · exact hcalm.record i
  · rw [Kernel.issueCall]
    simp only [Function.update_apply]
    split_ifs
    · exact fun _ hnot => absurd rfl hnot
    · exact hcalm.idle i
  · rw [Kernel.issueCall]
    simp only [Function.update_self]
  · rw [hwaiting, Function.update_idem]
    apply hcalm.settled.mono
    intro p c' hp
    rw [Function.update_apply] at hp
    split_ifs at hp
    exact hp

/-- The state in which a trap is handled. -/
def Kernel.trapped (k : Kernel μ) (c : Context) : Kernel μ := { k with actions := [] }.saveContext c

theorem sameCore_trapped (k : Kernel μ) (c : Context) : SameCore k.procSet (k.trapped c).procSet :=
  sameCore_update rfl rfl rfl

theorem Inv.trapped (h : Inv k) (c : Context) : Inv (k.trapped c) :=
  h.congr (sameCore_trapped k c) rfl rfl

theorem Orphan.waiting {t : Slot → Process μ} (h : Table t) {pid : Int} (ho : Orphan t pid) :
    ∃ sender content, waitingOf t sender = some (.send pid content) := by
  obtain ⟨_, i, content, hpending⟩ := ho
  have hi : (t i).status = .pendingSyscall := by
    by_contra hne
    rw [pendingCall, if_neg hne] at hpending
    cases hpending
  exact ⟨i.val, content, (waitingOf_val (h.lt_of_pending hi)).trans hpending⟩

/-- The state in which a call of the running process is tried for the first time. -/
def Kernel.called (k : Kernel μ) (call : Request Int Int μ) (ctx : Context) : Kernel μ :=
  ((k.request call).trapped ctx).issueCall

section Called

variable (h : Inv k) (call : Request Int Int μ) (ctx : Context)

theorem called_currProcIdx : (k.called call ctx).currProcIdx = k.currProcIdx :=
  request_currProcIdx k call

theorem called_area : (k.called call ctx).area = (k.request call).area := rfl

theorem called_actions : (k.called call ctx).actions = [] := rfl

include h

theorem Inv.issued_called : Issued (k.called call ctx).procSet k.currProcIdx ∧
    waitingOf (k.called call ctx).procSet =
      issue (waitingOf k.procSet) k.curr.pid (some call) := by
  have hinv := (h.request call).trapped ctx
  have hidx : ((k.request call).trapped ctx).currProcIdx = k.currProcIdx :=
    request_currProcIdx k call
  have hpid : ((k.request call).trapped ctx).curr.pid = k.currVmPid := by
    rw [← request_currVmPid k call]
    exact hinv.switched.symm
  have hcall : requestOf (((k.request call).trapped ctx).area
      ((k.request call).trapped ctx).curr.pid) = some call := by
    rw [hpid]
    exact requestOf_request k call
  obtain ⟨hissued, hwaiting⟩ := issued_issueCall hinv.calm hinv.running hcall
  rw [hidx] at hissued hwaiting
  refine ⟨hissued, ?_⟩
  rw [Kernel.called, hwaiting, (sameCore_trapped _ ctx).waitingOf_eq, request_procSet, issue,
    Kernel.curr, h.pid]

theorem Inv.sameUse_called : SameUse k.procSet (k.called call ctx).procSet := by
  have hinv := (h.request call).trapped ctx
  have htrap := (sameCore_trapped (k.request call) ctx).sameUse
  rw [request_procSet] at htrap
  exact htrap.trans (sameUse_update hinv.loaded rfl ⟨ProcStatus.noConfusion, ProcStatus.noConfusion⟩)

theorem Inv.called_not_running (i : Slot) : ((k.called call ctx).procSet i).status ≠ .running := by
  have hinv := (h.request call).trapped ctx
  simp only [Kernel.called, Kernel.issueCall, Function.update_apply]
  split_ifs with hi
  · exact ProcStatus.noConfusion
  · exact fun hrunning => hi (hinv.only i hrunning)

theorem Inv.badTarget_of_orphan {pid : Int} (ho : Orphan (k.called call ctx).procSet pid) :
    BadTarget k (some call) pid := by
  obtain ⟨hissued, hwaiting⟩ := h.issued_called call ctx
  refine ⟨fun huse => ho.1 (((h.sameUse_called call ctx).inUse_iff pid).mpr huse), ?_⟩
  obtain ⟨sender, content, hsend⟩ := ho.waiting hissued.table
  rw [hwaiting, issue, Function.update_apply] at hsend
  split_ifs at hsend
  · exact Or.inr ⟨content, hsend⟩
  · exact Or.inl ⟨sender, content, hsend⟩

end Called

/-- A turn of the kernel, from the state after the call to the return to user code. -/
theorem wp_turn {k₁ : Kernel μ} (call : Option (Request Int Int μ)) {x : Except Stop (Kernel μ)}
    {E : Stop → Prop} (hx : Ends x (Delivers k₁) E) (htable : Table k₁.procSet)
    (hnone : ∀ i, (k₁.procSet i).status ≠ .running)
    (hwaiting : waitingOf k₁.procSet = issue (waitingOf k.procSet) k.curr.pid call)
    (hfree : call ≠ none → waitingOf k.procSet k.curr.pid = none) (hactions : k₁.actions = [])
    (harea₁ : k₁.area = (k.stores call).area) (huse : SameUse k.procSet k₁.procSet) :
    Ends (x >>= Kernel.yieldIn)
      (fun k' => Inv k' ∧ ∃ delivery, Turned k call delivery k')
      (fun e => E e ∨ e = .fatal .noProcessToRun) := by
  rw [ends_bind]
  apply hx.mono _ fun _ he => Or.inl he
  intro k₂ hdelivers
  obtain ⟨hcalm, huse₂, hnone₂, delivery, hactions₂, harea, hmachine⟩ := hdelivers.effect htable
  apply (wp_yieldIn hcalm (hnone₂ hnone)).mono _ fun _ he => Or.inr he
  rintro k' ⟨hinv, hwaiting', harea', hactions', huse'⟩
  refine ⟨hinv, delivery, ?_, ?_, ?_, huse.trans (huse₂.trans huse')⟩
  · rw [hwaiting']
    cases delivery with
    | none =>
      rw [hmachine.2, hwaiting]
      apply Step.wait hfree
      rw [← hwaiting]
      exact hmachine.1
    | some d =>
      rw [hmachine.2, hwaiting]
      apply Step.deliver hfree
      rw [← hwaiting]
      exact hmachine.1
  · rw [hactions', hactions₂, hactions, List.nil_append]
  · rw [harea', ← harea₁]
    exact harea

/-- A system call of the running process. -/
theorem Inv.wp_call (h : Inv k) (call : Request Int Int μ) (passes : Nat) (key : Option UInt8)
    (ctx : Context) :
    Ends (Kernel.kernelEntry passes 0x80000003 key ctx (k.request call))
      (fun kc => Inv kc.1 ∧ ∃ delivery, Turned k (some call) delivery kc.1)
      (EntryStop k (some call) passes) := by
  have hinv := (h.request call).trapped ctx
  obtain ⟨hissued, hwaiting⟩ := h.issued_called call ctx
  have hidx := called_currProcIdx (k := k) call ctx
  have hclear := Issued.wp_clear (k := k.called call ctx) (hidx ▸ hissued) passes
  have hfree : some call ≠ none → waitingOf k.procSet k.curr.pid = none := by
    intro _
    rw [Kernel.curr, h.pid]
    exact h.waiting_curr
  have hturn := wp_turn (some call) hclear hissued.table (h.called_not_running call ctx) hwaiting hfree
    (called_actions call ctx) (called_area call ctx) (h.sameUse_called call ctx)
  have htake := takeSyscall_eq hinv.calm.table hinv.loaded
  have hentry : Kernel.kernelEntry passes 0x80000003 key ctx (k.request call) =
      (((k.request call).trapped ctx).takeSyscall >>= fun k => k.procYield passes) >>=
        fun k => .ok (k, ⟨k.curr.mepc, k.curr.savedRegisters⟩) := rfl
  rw [bind_assoc] at hturn
  rw [hentry, ends_bind, htake]
  apply hturn.mono fun _ hk => hk
  rintro e ((⟨pid, ho, rfl⟩ | ⟨rfl, hfew⟩) | rfl)
  · exact .unknownReceiver (h.badTarget_of_orphan call ctx ho)
  · exact .unfinished hfew
  · exact .noProcessToRun

/-! ## Timer interrupts -/

/-- A process that is interrupted stays ready to run. -/
theorem Inv.yieldOut (h : Inv k) :
    Calm k.yieldOut.procSet ∧ waitingOf k.yieldOut.procSet = waitingOf k.procSet ∧
      SameUse k.procSet k.yieldOut.procSet ∧ (∀ i, (k.yieldOut.procSet i).status ≠ .running) ∧
      k.yieldOut.area = k.area ∧ k.yieldOut.actions = k.actions := by
  have hproc : k.yieldOut.procSet =
      Function.update k.procSet k.currProcIdx { k.curr with status := .runnable } := by
    rw [Kernel.yieldOut, Kernel.curr, if_pos h.running]
    exact h.calm.table.withStatus_eq h.loaded.1 h.lt .runnable
  have hrest : k.yieldOut.area = k.area ∧ k.yieldOut.actions = k.actions := by
    rw [Kernel.yieldOut, Kernel.curr, if_pos h.running]
    exact ⟨rfl, rfl⟩
  have hnot : (k.procSet k.currProcIdx).status ≠ .pendingSyscall := by
    rw [h.running]
    decide
  obtain ⟨hcalm, hwaiting⟩ := h.calm.update h.loaded hnot
    (p := { k.curr with status := .runnable }) rfl rfl ProcStatus.noConfusion
  rw [hproc]
  refine ⟨hcalm, hwaiting,
    sameUse_update h.loaded rfl ⟨ProcStatus.noConfusion, ProcStatus.noConfusion⟩, fun i => ?_, hrest⟩
  rw [Function.update_apply]
  split_ifs with hi
  · exact ProcStatus.noConfusion
  · exact fun hrunning => hi (h.only i hrunning)

theorem Inv.turned_idle (h : Inv k) (huse : SameUse k.procSet k'.procSet)
    (hwaiting : waitingOf k'.procSet = waitingOf k.procSet) (hactions : k'.actions = [])
    (harea : k'.area = k.area) : Turned k none none k' := by
  refine ⟨?_, hactions, harea, huse⟩
  rw [hwaiting]
  exact Step.wait (c := none) (fun hne => absurd rfl hne) h.calm.settled

/-- A timer interrupt of the running process. -/
theorem Inv.wp_tick (h : Inv k) (passes : Nat) (key : Option UInt8) (ctx : Context) :
    Ends (Kernel.kernelEntry passes 0x80000007 key ctx k)
      (fun kc => Inv kc.1 ∧ ∃ delivery, Turned k none delivery kc.1)
      (EntryStop k none passes) := by
  have hinv := h.trapped ctx
  have htrap := sameCore_trapped k ctx
  have hentry : Kernel.kernelEntry passes 0x80000007 key ctx k =
      (if (k.trapped ctx).curr.pid ≥ gpidUserStart ∧ key = some 0x03 then
        .ok ((k.trapped ctx).setProc (k.trapped ctx).currProcIdx
          { (k.trapped ctx).curr with mepc := appsEntry + 0xC })
      else (k.trapped ctx).procYield passes) >>=
        fun k => .ok (k, ⟨k.curr.mepc, k.curr.savedRegisters⟩) := rfl
  rw [hentry, ends_bind]
  split_ifs with hkill
  · -- ctrl+c only redirects the program counter
    have hcore : SameCore (k.trapped ctx).procSet ((k.trapped ctx).setProc
        (k.trapped ctx).currProcIdx { (k.trapped ctx).curr with mepc := appsEntry + 0xC }).procSet :=
      sameCore_update rfl rfl rfl
    exact ⟨hinv.congr hcore rfl rfl, none, h.turned_idle (htrap.sameUse.trans hcore.sameUse)
      (hcore.waitingOf_eq.trans htrap.waitingOf_eq) rfl rfl⟩
  · obtain ⟨hcalm, hwaiting, huse, hnone, harea, hactions⟩ := hinv.yieldOut
    have hclear : Ends ((k.trapped ctx).yieldOut.clearPendingSyscalls passes)
        (Delivers (k.trapped ctx).yieldOut)
        (ClearStop (k.trapped ctx).yieldOut.procSet passes 1) := by
      apply (hcalm.wp_clear passes).mono _ fun _ he => he
      rintro _ rfl
      exact .nothing hcalm
    have hturn := wp_turn (k := k) none hclear hcalm.table hnone
      (hwaiting.trans htrap.waitingOf_eq) (fun hne => absurd rfl hne) hactions
      harea (htrap.sameUse.trans huse)
    apply hturn.mono fun _ hk => hk
    rintro e ((⟨pid, ho, rfl⟩ | ⟨rfl, hfew⟩) | rfl)
    · refine .unknownReceiver ⟨fun hin => ho.1 (((htrap.sameUse.trans huse).inUse_iff pid).mpr hin),
        Or.inl ?_⟩
      rw [← htrap.waitingOf_eq, ← hwaiting]
      exact ho.waiting hcalm.table
    · exact .unfinished (by omega)
    · exact .noProcessToRun

end Egos.Grass
