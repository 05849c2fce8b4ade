import Egos.Grass.Entry
import Egos.Lib.Execute

/-!
# The Grass Kernel: Message Passing over Whole Runs

Runs of kernel entries among processes that come from a quiet start and are never killed.
`Sound` is the invariant of such runs, and `run_refines` says that the kernel refines the
rendezvous machine of `Egos.Lib.Rendezvous`. Two results follow.

- `ipc_exactly_once`: every completed receive is matched with one send, in one entry, and
  user space sees the message before anybody is woken.
- `clear_pending_ends_settled`: `clear_pending_syscalls` always ends after at most two
  passes, with nothing left that could be completed.
-/

namespace Egos.Grass

open Egos.Lib Egos.Lib.Rendezvous

variable {μ : Type} {k k' k₀ : Kernel μ}

/-! ## Runs -/

/-- One entry of the kernel: the process that was running, its call if it made one, and what
    the kernel did. -/
structure Entry (μ : Type) where
  caller : Int
  call : Option (Request Int Int μ)
  actions : List (Action μ)

/-- The kernel is entered by a call or by a timer interrupt of the running process, and
    returns to user code. -/
inductive Enters (k : Kernel μ) : Entry μ → Kernel μ → Prop where
  | call {c : Request Int Int μ} {passes : Nat} {key : Option UInt8} {ctx ctx' : Context}
      {k' : Kernel μ}
      (h : Kernel.kernelEntry passes 0x80000003 key ctx (k.request c) = .ok (k', ctx')) :
      Enters k ⟨k.curr.pid, some c, k'.actions⟩ k'
  | tick {passes : Nat} {key : Option UInt8} {ctx ctx' : Context} {k' : Kernel μ}
      (h : Kernel.kernelEntry passes 0x80000007 key ctx k = .ok (k', ctx')) :
      Enters k ⟨k.curr.pid, none, k'.actions⟩ k'

/-- An entry with the cause `mcause`, from a blank context. -/
def Kernel.enter (k : Kernel μ) (mcause : UInt32) : Option (Kernel μ) :=
  match Kernel.kernelEntry 2 mcause none ⟨0, fun _ => 0⟩ k with
  | .ok (k', _) => some k'
  | .error _ => none

theorem enter_ok {mcause : UInt32} (h : k.enter mcause = some k') :
    ∃ ctx', Kernel.kernelEntry 2 mcause none ⟨0, fun _ => 0⟩ k = .ok (k', ctx') := by
  unfold Kernel.enter at h
  split at h
  case h_1 k₁ ctx' hentry =>
    obtain rfl := Option.some.inj h
    exact ⟨ctx', hentry⟩
  case h_2 => cases h

theorem enter_getD {mcause : UInt32} (k' : Kernel μ) (h : (k.enter mcause).isSome = true) :
    k.enter mcause = some ((k.enter mcause).getD k') :=
  (Option.getD_of_ne_none (Option.isSome_iff_ne_none.mp h) k').symm

/-- One entry: by a call of the running process, or by the timer. -/
def Kernel.act (k : Kernel μ) : Option (Request Int Int μ) → Option (Entry μ × Kernel μ)
  | some c => ((k.request c).enter 0x80000003).map fun k' => (⟨k.curr.pid, some c, k'.actions⟩, k')
  | none => (k.enter 0x80000007).map fun k' => (⟨k.curr.pid, none, k'.actions⟩, k')

theorem enters_of_enter {c : Request Int Int μ} (h : (k.request c).enter 0x80000003 = some k') :
    Enters k ⟨k.curr.pid, some c, k'.actions⟩ k' := by
  obtain ⟨_, hentry⟩ := enter_ok h
  exact .call hentry

theorem call_of_act {call : Option (Request Int Int μ)} {e : Entry μ}
    (h : k.act call = some (e, k')) : e.call = call := by
  cases call <;>
  · obtain ⟨k₁, _, heq⟩ := Option.map_eq_some_iff.mp h
    rw [← (Prod.mk.inj heq).1]

theorem enters_of_act {call : Option (Request Int Int μ)} {e : Entry μ}
    (h : k.act call = some (e, k')) : Enters k e k' := by
  cases call with
  | some c =>
    obtain ⟨k₁, henter, heq⟩ := Option.map_eq_some_iff.mp h
    obtain ⟨rfl, rfl⟩ := Prod.mk.inj heq
    exact enters_of_enter henter
  | none =>
    obtain ⟨k₁, henter, heq⟩ := Option.map_eq_some_iff.mp h
    obtain ⟨rfl, rfl⟩ := Prod.mk.inj heq
    obtain ⟨_, hentry⟩ := enter_ok henter
    exact .tick hentry

/-! Between entries, the state of the kernel is evaluated as far as its next steps depend on it. -/

instance : Force ProcStatus where
  force s f := match s with
    | .unused => f .unused
    | .loading => f .loading
    | .ready => f .ready
    | .running => f .running
    | .runnable => f .runnable
    | .pendingSyscall => f .pendingSyscall
    | .sleeping => f .sleeping
  force_eq s f := by cases s <;> rfl

instance : Force SyscallStatus where
  force s f := match s with
    | .unset => f .unset
    | .pending => f .pending
    | .done => f .done
  force_eq s f := by cases s <;> rfl

instance : Force SyscallType where
  force t f := match t with
    | .recv => f .recv
    | .send => f .send
    | .other value => Force.force value fun value => f (.other value)
  force_eq t f := by cases t <;> simp

instance [Force μ] : Force (Syscall μ) where
  force sc f :=
    Force.force sc.type fun type => Force.force sc.sender fun sender =>
    Force.force sc.receiver fun receiver => Force.force sc.content fun content =>
    Force.force sc.status fun status => f ⟨type, sender, receiver, content, status⟩
  force_eq sc f := by simp

instance [Force μ] : Force (Process μ) where
  force p f :=
    Force.force p.pid fun pid => Force.force p.syscall fun sc =>
    Force.force p.status fun status => f { p with pid := pid, syscall := sc, status := status }
  force_eq p f := by simp

instance [Force μ] : Force (Kernel μ) where
  force k f :=
    Force.force k.procSet fun procSet => Force.force k.currProcIdx fun currProcIdx =>
    Force.force k.currVmPid fun currVmPid => forceBelow 17 k.area fun area =>
      f ⟨procSet, currProcIdx, currVmPid, area, k.actions⟩
  force_eq k f := by simp [forceBelow_eq]

/-- The call, if it is a send, names a process that is in use. -/
def LiveCall (k : Kernel μ) (call : Option (Request Int Int μ)) : Prop :=
  ∀ receiver content, call = some (.send receiver content) → InUse k.procSet receiver

instance (t : Slot → Process μ) (pid : Int) : Decidable (InUse t pid) :=
  inferInstanceAs (Decidable (∃ _ : Slot, _))

instance (k : Kernel μ) (call : Option (Request Int Int μ)) : Decidable (LiveCall k call) :=
  match call with
  | some (.send receiver _) => decidable_of_iff (InUse k.procSet receiver)
      ⟨fun h _ _ heq => (Request.send.inj (Option.some.inj heq)).1 ▸ h, fun h => h _ _ rfl⟩
  | some (.recv _) => isTrue fun _ _ heq => nomatch Option.some.inj heq
  | none => isTrue fun _ _ heq => nomatch heq

/-- An entry whose call names a process in use. -/
def EntersLive (k : Kernel μ) (e : Entry μ) (k' : Kernel μ) : Prop :=
  LiveCall k e.call ∧ Enters k e k'

/-- A state in which no process waits: some processes are in use, one of them is running and
    switched in, and no record holds an open receive. -/
structure Start (k : Kernel μ) : Prop where
  table : Table k.procSet
  quiet : ∀ i, (k.procSet i).status ≠ .pendingSyscall
  closed : ∀ i, (k.procSet i).status ≠ .unused →
    ¬ ((k.procSet i).syscall.type = .recv ∧ (k.procSet i).syscall.status = .pending)
  running : (k.procSet k.currProcIdx).status = .running
  only : ∀ i, (k.procSet i).status = .running → i = k.currProcIdx
  switched : k.currVmPid = (k.procSet k.currProcIdx).pid

theorem Start.waitingOf_eq (h : Start k) (pid : Int) : waitingOf k.procSet pid = none := by
  cases hpid : waitingOf k.procSet pid with
  | none => rfl
  | some c =>
    obtain ⟨i, _, _, hpending, _⟩ := waitingOf_eq_some hpid
    exact absurd hpending (h.quiet i)

theorem Start.inv (h : Start k) : Inv k := by
  refine ⟨⟨h.table, fun i hi => absurd hi (h.quiet i), fun i hi _ => h.closed i hi, ?_⟩,
    h.running, h.only, h.switched⟩
  intro d hfits
  have hsend := hfits.send
  rw [h.waitingOf_eq] at hsend
  cases hsend

/-- The delivery noted among the actions of an entry. -/
def deliveryIn (actions : List (Action μ)) : Option (Delivery Int μ) :=
  actions.findSome? fun a => match a with
    | .copied sender receiver content => some ⟨sender, receiver, content⟩
    | _ => none

theorem deliveryIn_actionsOf (d : Option (Delivery Int μ)) : deliveryIn (actionsOf d) = d := by
  cases d <;> rfl

/-- The entry as a turn of the rendezvous machine. -/
def Entry.turn (e : Entry μ) : Turn Int Int μ := ⟨e.caller, e.call, deliveryIn e.actions⟩

/-! ## One entry -/

/-- What an entry does, whichever way it comes about. -/
theorem Inv.enters (h : Inv k) {e : Entry μ} (he : Enters k e k') :
    Inv k' ∧ ∃ delivery, Turned k e.call delivery k' ∧ e.actions = actionsOf delivery ∧
      e.turn = ⟨k.curr.pid, e.call, delivery⟩ := by
  have hturn : ∀ {call : Option (Request Int Int μ)} {delivery : Option (Delivery Int μ)},
      Turned k call delivery k' →
      Entry.turn ⟨k.curr.pid, call, k'.actions⟩ = ⟨k.curr.pid, call, delivery⟩ := by
    intro call delivery ht
    rw [Entry.turn, ht.actions, deliveryIn_actionsOf]
  cases he with
  | @call c passes key ctx ctx' _ hentry =>
    obtain ⟨hinv, delivery, ht⟩ := (h.wp_call c passes key ctx).of_ok hentry
    exact ⟨hinv, delivery, ht, ht.actions, hturn ht⟩
  | @tick passes key ctx ctx' _ hentry =>
    obtain ⟨hinv, delivery, ht⟩ := (h.wp_tick passes key ctx).of_ok hentry
    exact ⟨hinv, delivery, ht, ht.actions, hturn ht⟩

/-- Every send that waits names a process in use. -/
def LiveTargets (k : Kernel μ) : Prop :=
  ∀ sender receiver content, waitingOf k.procSet sender = some (.send receiver content) →
    InUse k.procSet receiver

/-- The invariant of runs without kills. -/
structure Sound (k : Kernel μ) : Prop where
  inv : Inv k
  targets : LiveTargets k

theorem Start.sound (h : Start k) : Sound k := by
  refine ⟨h.inv, fun sender receiver content hsend => ?_⟩
  rw [h.waitingOf_eq] at hsend
  cases hsend

theorem Sound.entersLive (h : Sound k) {e : Entry μ} (he : EntersLive k e k') :
    Sound k' ∧ Step accepts (waitingOf k.procSet) e.turn (waitingOf k'.procSet) := by
  obtain ⟨hinv, delivery, ht, _, hturn⟩ := h.inv.enters he.2
  have hstep := ht.step
  refine ⟨⟨hinv, fun sender receiver content hsend => ?_⟩, hturn ▸ hstep⟩
  rw [ht.use.inUse_iff]
  rcases hstep.waiting hsend with hold | ⟨_, hnew⟩
  · exact h.targets sender receiver content hold
  · exact he.1 receiver content hnew

/-- The kernel refines the rendezvous machine. -/
theorem run_refines {entries : List (Entry μ)} (hstart : Start k₀)
    (hrun : Run EntersLive k₀ entries k) :
    Sound k ∧ Run (Step accepts) (waitingOf k₀.procSet) (entries.map Entry.turn)
      (waitingOf k.procSet) :=
  hrun.map (f := fun k : Kernel μ => waitingOf k.procSet) hstart.sound
    fun _ _ _ hsound he => hsound.entersLive he

/-! ## What user space sees -/

/-- What the area of a process says, given its unfinished call and its last delivery. While
    the process waits it says so. Otherwise it says that the last call is done, and after a
    receive it holds the sender and the message. -/
structure Reported (pid : Int) (waiting : Option (Request Int Int μ)) (sc : Syscall μ)
    (last : Option (Delivery Int μ)) : Prop where
  pending : waiting ≠ none → sc.status = .pending
  done : ∀ d, waiting = none → last = some d → sc.status = .done ∧
    (d.receiver = pid → sc.sender = d.sender ∧ sc.content = d.content)

theorem request_area_status (k : Kernel μ) (c : Request Int Int μ) :
    ((k.request c).area k.currVmPid).status = .pending := by
  cases c <;> simp [Kernel.request, Kernel.sysSend, Kernel.sysRecv, Kernel.setSyscallArg]

theorem request_area_of_ne (k : Kernel μ) (c : Request Int Int μ) {pid : Int}
    (hpid : pid ≠ k.currVmPid) : (k.request c).area pid = k.area pid := by
  cases c <;> exact Function.update_of_ne hpid _ _

/-- The last delivery of a process after one more turn. -/
theorem getLast?_deliveriesOf (pid : Int) (turns : List (Turn Int Int μ)) (caller : Int)
    (call : Option (Request Int Int μ)) (delivery : Option (Delivery Int μ)) :
    (deliveriesOf pid (turns ++ [⟨caller, call, delivery⟩])).getLast? =
      match delivery with
      | none => (deliveriesOf pid turns).getLast?
      | some d => if d.sender = pid ∨ d.receiver = pid then some d
          else (deliveriesOf pid turns).getLast? := by
  have happ : deliveriesOf pid (turns ++ [⟨caller, call, delivery⟩]) =
      deliveriesOf pid turns ++ deliveriesOf pid [⟨caller, call, delivery⟩] :=
    List.filterMap_append
  rw [happ]
  cases delivery with
  | none => simp [deliveriesOf]
  | some d =>
    rw [deliveriesOf_deliver]
    by_cases hd : d.sender = pid ∨ d.receiver = pid
    · simp [if_pos hd]
    · simp [if_neg hd]

/-- The stores of a call concern the caller only. -/
theorem Reported.stores (hinv : Inv k) (call : Option (Request Int Int μ)) {w : Waiting Int Int μ}
    {pid : Int} {last : Option (Delivery Int μ)}
    (h : Reported pid (w pid) (k.area pid) last) :
    Reported pid (issue w k.curr.pid call pid) ((k.stores call).area pid) last := by
  have hvm : k.currVmPid = k.curr.pid := hinv.switched
  cases call with
  | none => exact h
  | some c =>
    rw [Kernel.stores, issue, Function.update_apply]
    split_ifs with hpid
    · refine ⟨fun _ => ?_, fun d hnone => by cases hnone⟩
      rw [hpid, ← hvm]
      exact request_area_status k c
    · rw [request_area_of_ne k c (hvm ▸ hpid)]
      exact h

theorem Reported.turned (hinv : Inv k) {call : Option (Request Int Int μ)}
    {delivery : Option (Delivery Int μ)} (ht : Turned k call delivery k')
    {turns : List (Turn Int Int μ)} {pid : Int}
    (h : Reported pid (waitingOf k.procSet pid) (k.area pid) (deliveriesOf pid turns).getLast?) :
    Reported pid (waitingOf k'.procSet pid) (k'.area pid)
      (deliveriesOf pid (turns ++ [⟨k.curr.pid, call, delivery⟩])).getLast? := by
  have hissued := h.stores hinv call
  have hstep := ht.step
  have harea := ht.area
  rw [getLast?_deliveriesOf]
  generalize hw' : waitingOf k'.procSet = w' at hstep ⊢
  cases hstep with
  | wait hfree hsettled =>
    rw [harea]
    exact hissued
  | @deliver _ _ d hfree hfits =>
    obtain ⟨hsender, ⟨_, hfrom, hcontent, hdone⟩, hother⟩ := harea
    dsimp only
    by_cases hs : d.sender = pid
    · subst hs
      rw [finish_sender, if_pos (Or.inl rfl)]
      refine ⟨fun hne => absurd rfl hne, fun d' _ hd' => ?_⟩
      obtain rfl := Option.some.inj hd'
      rw [hsender]
      exact ⟨rfl, fun hr => absurd hr.symm hfits.ne⟩
    · by_cases hr : d.receiver = pid
      · subst hr
        rw [finish_receiver, if_pos (Or.inr rfl)]
        refine ⟨fun hne => absurd rfl hne, fun d' _ hd' => ?_⟩
        obtain rfl := Option.some.inj hd'
        exact ⟨hdone, fun _ => ⟨hfrom, hcontent⟩⟩
      · rw [finish_of_ne (Ne.symm hs) (Ne.symm hr), if_neg (not_or.mpr ⟨hs, hr⟩),
          hother pid (Ne.symm hs) (Ne.symm hr)]
        exact hissued

/-! ## Exactly once -/

/-- The area of every process says what it should. -/
theorem run_reports {entries : List (Entry μ)} (hstart : Start k₀)
    (hrun : Run EntersLive k₀ entries k) (pid : Int) :
    Reported pid (waitingOf k.procSet pid) (k.area pid)
      (deliveriesOf pid (entries.map Entry.turn)).getLast? := by
  refine (hrun.invariant_log (P := fun entries k => Sound k ∧
    Reported pid (waitingOf k.procSet pid) (k.area pid)
      (deliveriesOf pid (entries.map Entry.turn)).getLast?) ⟨hstart.sound, ?_⟩ ?_).2
  · exact ⟨fun hne => absurd (hstart.waitingOf_eq pid) hne, fun d _ hd => by cases hd⟩
  · rintro entries k e k' ⟨hsound, hreported⟩ he
    obtain ⟨_, delivery, ht, _, hturn⟩ := hsound.inv.enters he.2
    refine ⟨(hsound.entersLive he).1, ?_⟩
    rw [List.map_append, List.map_singleton, hturn]
    exact hreported.turned hsound.inv ht

/-- Every entry notes nothing, or one whole delivery. -/
theorem run_actions {entries : List (Entry μ)} (hstart : Start k₀)
    (hrun : Run EntersLive k₀ entries k) :
    ∀ e ∈ entries, e.actions = actionsOf (deliveryIn e.actions) := by
  refine (hrun.invariant_log (P := fun entries k => Sound k ∧
    ∀ e ∈ entries, e.actions = actionsOf (deliveryIn e.actions)) ⟨hstart.sound, ?_⟩ ?_).2
  · intro e he
    cases he
  · rintro entries k e k' ⟨hsound, hactions⟩ he
    obtain ⟨_, delivery, _, hact, _⟩ := hsound.inv.enters he.2
    refine ⟨(hsound.entersLive he).1, fun e' he' => ?_⟩
    rcases List.mem_append.mp he' with he' | he'
    · exact hactions e' he'
    · rw [List.mem_singleton.mp he', hact, deliveryIn_actionsOf]

/-- A process waits in the machine exactly if its slot is pending. -/
theorem Calm.waiting_iff {t : Slot → Process μ} (h : Calm t) {i : Slot} (hlt : i.val < 16) :
    waitingOf t i.val ≠ none ↔ (t i).status = .pendingSyscall := by
  rw [waitingOf_val hlt, pendingCall]
  constructor
  · intro hne
    by_contra hnot
    exact hne (if_neg hnot)
  · intro hi
    obtain ⟨_, c, hcall⟩ := h.record i hi
    rw [if_pos hi, hcall]
    exact Option.some_ne_none c

/-- Exactly-once message passing. In every run from a quiet start, without kills and with
    every send naming a process in use:

    - an entry does nothing to the processes that wait, or it delivers one message: it marks
      the receive, copies the message into the area of the receiver, and only then wakes the
      receiver and the sender, in this order;
    - the calls of each process are completed in the order in which it made them, each by one
      delivery that satisfies it, and the last one is unfinished exactly if the slot of the
      process is pending;
    - the area of a process that waits says so, and otherwise that its last call is done, with
      the sender and the message of the delivery if it was a receive. -/
theorem ipc_exactly_once {entries : List (Entry μ)} (hstart : Start k₀)
    (hrun : Run EntersLive k₀ entries k) :
    (∀ e ∈ entries, e.actions = [] ∧ e.turn.delivery = none ∨
      ∃ d, e.turn.delivery = some d ∧ e.actions =
        [.marked d.sender d.receiver .pendingSyscall, .copied d.sender d.receiver d.content,
          .woken d.receiver, .woken d.sender]) ∧
    ∀ (i : Slot) (pid : Int), i.val < 16 → pid = i.val →
      ∃ (done : List (Request Int Int μ)) (unfinished : Option (Request Int Int μ)),
        callsOf pid (entries.map Entry.turn) = done ++ unfinished.toList ∧
        List.Forall₂ (fun d c => Satisfies accepts pid d c)
          (deliveriesOf pid (entries.map Entry.turn)) done ∧
        (unfinished ≠ none ↔ (k.procSet i).status = .pendingSyscall) ∧
        (unfinished ≠ none → (k.area pid).status = .pending) ∧
        ∀ d, unfinished = none → (deliveriesOf pid (entries.map Entry.turn)).getLast? = some d →
          (k.area pid).status = .done ∧
            (d.receiver = pid → (k.area pid).sender = d.sender ∧ (k.area pid).content = d.content) := by
  obtain ⟨hsound, hmachine⟩ := run_refines hstart hrun
  refine ⟨fun e he => ?_, fun i pid hlt hpid => ?_⟩
  · have hactions := run_actions hstart hrun e he
    cases hd : deliveryIn e.actions with
    | none =>
      rw [hd] at hactions
      exact Or.inl ⟨hactions, hd⟩
    | some d =>
      rw [hd] at hactions
      exact Or.inr ⟨d, hd, hactions⟩
  · obtain ⟨done, hcalls, hsat⟩ := exactly_once hmachine pid
    rw [hstart.waitingOf_eq, Option.toList_none, List.nil_append] at hcalls
    obtain ⟨hpending, hdone⟩ := run_reports hstart hrun pid
    refine ⟨done, waitingOf k.procSet pid, hcalls, hsat, ?_, hpending, hdone⟩
    rw [hpid]
    exact hsound.inv.calm.waiting_iff hlt

/-! Two processes; the first sends a message, the second receives it. -/

/-- A record that was never filled. -/
def blankSyscall : Syscall Nat := ⟨.other 0, 0, 0, 0, .unset⟩

/-- The processes `1..n`, the first one running and the others ready to run. -/
def quietKernel (n : Nat) : Kernel Nat where
  procSet i :=
    { pid := if 0 < i.val ∧ i.val ≤ n then i.val else 0
      syscall := blankSyscall
      status := if i.val = 1 then .running
        else if 0 < i.val ∧ i.val ≤ n then .runnable else .unused
      mepc := 0
      savedRegisters := fun _ => 0 }
  currProcIdx := 1
  currVmPid := 1
  area := fun _ => blankSyscall
  actions := []

theorem start_quietKernel {n : Nat} (hpos : 0 < n) (hlt : n < 16) : Start (quietKernel n) where
  table := by
    refine ⟨fun i => ?_, fun i => ?_, rfl, ?_⟩
    · simp only [quietKernel]
      split_ifs
      · exact Or.inr rfl
      · exact Or.inl rfl
    · simp only [quietKernel]
      split_ifs <;> first | omega | simp
    · simp only [quietKernel]
      split_ifs <;> first | omega | simp
  quiet := by
    intro i
    simp only [quietKernel]
    split_ifs <;> simp
  closed := fun _ _ h => nomatch h.1
  running := rfl
  only := by
    intro i
    simp only [quietKernel]
    split_ifs with hi
    · exact fun _ => Fin.ext hi
    all_goals exact fun h => nomatch h
  switched := (if_pos ⟨Nat.zero_lt_one, hpos⟩).symm

theorem start_pair : Start (quietKernel 2) := start_quietKernel (by decide) (by decide)

theorem start_fiveProcesses : Start (quietKernel 5) := start_quietKernel (by decide) (by decide)

/-- Process 1 has sent 7 to process 2, and waits. -/
def sentKernel : Kernel Nat :=
  (((quietKernel 2).request (.send 2 7)).enter 0x80000003).getD (quietKernel 2)

/-- Process 2 has received. -/
def receivedKernel : Kernel Nat :=
  ((sentKernel.request (.recv gpidAll)).enter 0x80000003).getD sentKernel

/-- The entry of process 1. -/
def sendEntry : Entry Nat := ⟨(quietKernel 2).curr.pid, some (.send 2 7), sentKernel.actions⟩

/-- The entry of process 2. -/
def recvEntry : Entry Nat := ⟨sentKernel.curr.pid, some (.recv gpidAll), receivedKernel.actions⟩

theorem run_quietKernel :
    Run EntersLive (quietKernel 2) [sendEntry, recvEntry] receivedKernel := by
  have hsend : EntersLive (quietKernel 2) sendEntry sentKernel := by
    refine ⟨?_, enters_of_enter (enter_getD _ (by decide +kernel))⟩
    intro receiver content heq
    obtain ⟨rfl, _⟩ := Request.send.inj (Option.some.inj heq)
    exact ⟨2, by decide, by decide, by decide⟩
  have hrecv : EntersLive sentKernel recvEntry receivedKernel := by
    refine ⟨?_, enters_of_enter (enter_getD _ (by decide +kernel))⟩
    intro receiver content heq
    cases heq
  exact .snoc (.snoc .nil hsend) hrecv

theorem ipc_exactly_once_pair :
    Start (quietKernel 2) ∧ Run EntersLive (quietKernel 2) [sendEntry, recvEntry] receivedKernel ∧
      recvEntry.turn.delivery = some ⟨1, 2, 7⟩ ∧
      recvEntry.actions = [.marked 1 2 .pendingSyscall, .copied 1 2 7, .woken 2, .woken 1] := by
  have hdelivery : recvEntry.turn.delivery = some ⟨1, 2, 7⟩ := by decide +kernel
  obtain ⟨hactions, _⟩ := ipc_exactly_once start_pair run_quietKernel
  refine ⟨start_pair, run_quietKernel, hdelivery, ?_⟩
  rcases hactions recvEntry (by simp) with ⟨_, hnone⟩ | ⟨d, hd, hlist⟩
  · rw [hdelivery] at hnone
    cases hnone
  · rw [hdelivery] at hd
    obtain rfl := Option.some.inj hd
    exact hlist

/-! ## Clearing the pending system calls -/

/-- No message is half delivered, and no pending send fits a pending receive. -/
structure NothingCompletable (t : Slot → Process μ) : Prop where
  notHalf : ∀ i, ¬ ((t i).status = .pendingSyscall ∧ (t i).syscall.status = .done)
  noPair : ∀ s r, (t s).status = .pendingSyscall → (t r).status = .pendingSyscall →
    (t s).syscall.type = .send → (t s).syscall.receiver = (t r).pid →
    (t r).syscall.type = .recv → ¬ accepts (t r).syscall.sender (t s).pid

theorem Calm.nothingCompletable {t : Slot → Process μ} (h : Calm t) : NothingCompletable t := by
  refine ⟨?_, ?_⟩
  · rintro i ⟨hi, hdone⟩
    rw [(h.record i hi).1] at hdone
    cases hdone
  · intro s r hs hr hsend htarget hrecv haccepts
    have htakes : Takes t s r := ⟨hrecv, (h.record r hr).1, haccepts⟩
    exact h.settled _ (h.table.fits_of_takes hs hsend hr htarget.symm htakes)

/-- More passes do not change the result of a loop that has ended. -/
theorem clearPendingSyscalls_mono {passes more : Nat} (hle : passes ≤ more)
    (h : k.clearPendingSyscalls passes = .ok k') : k.clearPendingSyscalls more = .ok k' := by
  induction passes generalizing k more with
  | zero => cases h
  | succ passes ih =>
    cases more with
    | zero => exact absurd hle (Nat.not_succ_le_zero _)
    | succ more =>
      rw [Kernel.clearPendingSyscalls] at h ⊢
      cases hpass : (Kernel.cyclicOrder k.currProcIdx).foldlM Kernel.trySlot (k, 0) with
      | error e =>
        rw [hpass] at h
        cases h
      | ok kp =>
        obtain ⟨k₂, progress⟩ := kp
        rw [hpass] at h
        change (if progress ≠ 0 then k₂.clearPendingSyscalls passes else .ok k₂) = .ok k' at h
        change (if progress ≠ 0 then k₂.clearPendingSyscalls more else .ok k₂) = .ok k'
        split_ifs at h ⊢ with hprogress
        · exact ih (Nat.le_of_succ_le_succ hle) h
        · exact h

theorem LiveTargets.not_badTarget (h : LiveTargets k) {pid : Int}
    {call : Option (Request Int Int μ)} (hcall : LiveCall k call) : ¬ BadTarget k call pid := by
  rintro ⟨hnot, ⟨sender, content, hsend⟩ | ⟨content, rfl⟩⟩
  · exact hnot (h sender pid content hsend)
  · exact hnot (hcall pid content rfl)

/-- The loop after a call of the running process. -/
theorem Sound.clear_call (h : Sound k) {call : Request Int Int μ} (hcall : LiveCall k (some call))
    (ctx : Context) :
    ∃ k₁ k₂, ((k.request call).trapped ctx).takeSyscall = .ok k₁ ∧
      k₁.yieldOut.clearPendingSyscalls 2 = .ok k₂ ∧ Calm k₂.procSet := by
  have hinv := (h.inv.request call).trapped ctx
  obtain ⟨hissued, _⟩ := h.inv.issued_called call ctx
  have hidx := called_currProcIdx (k := k) call ctx
  have hclear := Issued.wp_clear (k := k.called call ctx) (hidx ▸ hissued) 2
  obtain ⟨k₂, hok, hdelivers⟩ := hclear.exists_ok (by
    rintro e (⟨pid, ho, _⟩ | ⟨_, hfew⟩)
    · exact h.targets.not_badTarget hcall (h.inv.badTarget_of_orphan call ctx ho)
    · omega)
  have htake := takeSyscall_eq hinv.calm.table hinv.loaded
  cases hfirst : ((k.request call).trapped ctx).takeSyscall with
  | error e =>
    rw [htake] at hfirst
    change (k.called call ctx).procTrySyscall (k.called call ctx).currProcIdx = _ at hfirst
    rw [hfirst] at hok
    cases hok
  | ok k₁ =>
    rw [htake] at hfirst
    change (k.called call ctx).procTrySyscall (k.called call ctx).currProcIdx = _ at hfirst
    rw [hfirst] at hok
    exact ⟨k₁, k₂, rfl, hok, (hdelivers.effect hissued.table).1⟩

/-- The loop after a timer interrupt. -/
theorem Sound.clear_tick (h : Sound k) (ctx : Context) :
    ∃ k₂, (k.trapped ctx).yieldOut.clearPendingSyscalls 2 = .ok k₂ ∧ Calm k₂.procSet := by
  have htrap := sameCore_trapped k ctx
  obtain ⟨hcalm, hwaiting, huse, _⟩ := (h.inv.trapped ctx).yieldOut
  obtain ⟨k₂, hok, rfl⟩ := (hcalm.wp_clear 2).exists_ok (by
    rintro e (⟨pid, ho, _⟩ | ⟨_, hfew⟩)
    · obtain ⟨sender, content, hsend⟩ := ho.waiting hcalm.table
      rw [hwaiting, htrap.waitingOf_eq] at hsend
      exact ho.1 (((htrap.sameUse.trans huse).inUse_iff pid).mpr
        (h.targets sender pid content hsend))
    · omega)
  exact ⟨_, hok, hcalm⟩

/-- `clear_pending_syscalls` always ends. In every state that is reached from a quiet start,
    without kills and with every send naming a process in use, and for every call or timer
    interrupt of the running process: two passes of the loop are enough, and when it ends no
    message is half delivered and no two pending calls fit. -/
theorem clear_pending_ends_settled {entries : List (Entry μ)} (hstart : Start k₀)
    (hrun : Run EntersLive k₀ entries k) (ctx : Context) :
    (∀ call, LiveCall k (some call) →
      ∃ k₁ k₂, ((k.request call).trapped ctx).takeSyscall = .ok k₁ ∧
        (∀ passes ≥ 2, k₁.yieldOut.clearPendingSyscalls passes = .ok k₂) ∧
        NothingCompletable k₂.procSet) ∧
    ∃ k₂, (∀ passes ≥ 2, (k.trapped ctx).yieldOut.clearPendingSyscalls passes = .ok k₂) ∧
      NothingCompletable k₂.procSet := by
  obtain ⟨hsound, _⟩ := run_refines hstart hrun
  refine ⟨fun call hcall => ?_, ?_⟩
  · obtain ⟨k₁, k₂, htake, hclear, hcalm⟩ := hsound.clear_call hcall ctx
    exact ⟨k₁, k₂, htake, fun passes hge => clearPendingSyscalls_mono hge hclear,
      hcalm.nothingCompletable⟩
  · obtain ⟨k₂, hclear, hcalm⟩ := hsound.clear_tick ctx
    exact ⟨k₂, fun passes hge => clearPendingSyscalls_mono hge hclear, hcalm.nothingCompletable⟩

theorem clear_pending_ends_settled_pair :
    Start (quietKernel 2) ∧ Run EntersLive (quietKernel 2) [sendEntry, recvEntry] receivedKernel ∧
      ∃ k₂, (∀ passes ≥ 2, (receivedKernel.trapped ⟨0, fun _ => 0⟩).yieldOut.clearPendingSyscalls
        passes = .ok k₂) ∧ NothingCompletable k₂.procSet :=
  ⟨start_pair, run_quietKernel,
    (clear_pending_ends_settled start_pair run_quietKernel ⟨0, fun _ => 0⟩).2⟩

end Egos.Grass
