import Egos.Grass.Lifecycle
import Egos.Trap.Registers

/-!
# Trap Entry: Contexts of Processes

The context of a process is in the registers while it runs and in its slot while it does not.
Here is what an entry of the kernel does to the contexts in the table.

- `Between`: how the table may look between the trap and the scheduling decision, compared
  to the table `t` right after the trap. Contexts are the same, and so is the set of slots
  that are ready for their first run: no call that is completed wakes one of them.
- `Resumed`: what an entry does to contexts. The context of the trapped process is saved, and
  that of the selected process is resumed, or set up if this is its first run.
-/

namespace Egos.Trap

open Egos.Lib Egos.Lib.Rendezvous Egos.Grass

variable {μ : Type} {k k' : Kernel μ} {t t' : Slot → Process μ} {i : Slot} {pid : Int}

/-- The context in a slot. -/
def contextOf (p : Process μ) : Context := ⟨p.mepc, p.savedRegisters⟩

/-! ## Between the trap and the scheduling decision -/

/-- A slot with this pid waits for its first run. -/
def ReadyPid (t : Slot → Process μ) (pid : Int) : Prop :=
  ∃ j, (t j).pid = pid ∧ (t j).status = .ready

/-- The second table is a later one of the same entry. -/
structure Between (t t' : Slot → Process μ) : Prop where
  pid : ∀ i, (t' i).pid = (t i).pid
  context : ∀ i, contextOf (t' i) = contextOf (t i)
  ready : ∀ i, (t' i).status = .ready ↔ (t i).status = .ready
  running : ∀ i, (t' i).status = .running → (t i).status = .running
  /-- Processes that wait in a call have run. -/
  apart : ∀ i, (t' i).status = .pendingSyscall → ¬ ReadyPid t (t i).pid
  /-- So have those whose message a process is about to get. -/
  sender : ∀ i, (t' i).status = .pendingSyscall → (t' i).syscall.type = .recv →
    (t' i).syscall.status ≠ .pending → ¬ ReadyPid t (t' i).syscall.sender

theorem not_readyPid (h : Table t) (huse : (t i).status ≠ .unused)
    (hi : (t i).status ≠ .ready) : ¬ ReadyPid t (t i).pid := by
  rintro ⟨j, hpid, hready⟩
  rw [h.eq_of_pid huse hpid] at hready
  exact hi hready

theorem between_refl (h : Table t)
    (hrecord : ∀ i, (t i).status = .pendingSyscall → (t i).syscall.status = .pending) :
    Between t t where
  pid _ := rfl
  context _ := rfl
  ready _ := Iff.rfl
  running _ hi := hi
  apart i hi := by
    apply not_readyPid h <;> rw [hi] <;> decide
  sender i hi _ hdone := absurd (hrecord i hi) hdone

theorem contextOf_withStatus (t : Slot → Process μ) (pid : Int) (status : ProcStatus) (i : Slot) :
    contextOf (Kernel.withStatus t pid status i) = contextOf (t i) := by
  unfold Kernel.withStatus
  split_ifs <;> rfl

/-- A process that has run may be set runnable. -/
theorem Between.runnable (h : Between t t') (hpid : ¬ ReadyPid t pid) :
    Between t (Kernel.withStatus t' pid .runnable) := by
  refine ⟨fun i => ?_, fun i => ?_, fun i => ?_, fun i => ?_, fun i => ?_, fun i => ?_⟩
  · unfold Kernel.withStatus
    split_ifs <;> exact h.pid i
  · rw [contextOf_withStatus]
    exact h.context i
  · unfold Kernel.withStatus
    split_ifs with hi
    · -- no slot with this pid was ready, so none becomes `PROC_RUNNABLE` before its first run
      have hnot : (t i).status ≠ .ready := fun hready => hpid ⟨i, (h.pid i).symm.trans hi.2, hready⟩
      exact iff_of_false (by decide) hnot
    · exact h.ready i
  · unfold Kernel.withStatus
    split_ifs
    · exact fun hc => absurd hc (by decide)
    · exact h.running i
  · unfold Kernel.withStatus
    split_ifs
    · exact fun hc => absurd hc (by decide)
    · exact h.apart i
  · unfold Kernel.withStatus
    split_ifs
    · exact fun hc => absurd hc (by decide)
    · exact h.sender i

theorem Between.procTrySend (h : Between t k.procSet)
    (hi : (k.procSet i).status = .pendingSyscall) :
    Ends (k.procTrySend i) (fun k' => Between t k'.procSet) fun _ => True := by
  rw [Kernel.procTrySend_eq]
  cases k.findReceiver (k.procSet i).syscall.receiver with
  | none => trivial
  | some j =>
    dsimp only
    split_ifs
    · rw [ends_ok, Kernel.handOver_procSet]
      -- only the `syscall` field of the receiver changes
      refine ⟨fun l => ?_, fun l => ?_, fun l => ?_, fun l => ?_, fun l => ?_, fun l => ?_⟩
      all_goals
        rw [Function.update_apply]
        split_ifs with hl
      · rw [hl]
        exact h.pid j
      · exact h.pid l
      · rw [hl]
        exact h.context j
      · exact h.context l
      · rw [hl]
        exact h.ready j
      · exact h.ready l
      · rw [hl]
        exact h.running j
      · exact h.running l
      · rw [hl]
        exact h.apart j
      · exact h.apart l
      · -- the sender waits in its call
        intro _ _ _
        show ¬ ReadyPid t (k.procSet i).pid
        rw [h.pid]
        exact h.apart i hi
      · exact h.sender l
    · exact h

theorem Between.procTryRecv (h : Between t k.procSet)
    (hi : (k.procSet i).status = .pendingSyscall) (hrecv : (k.procSet i).syscall.type = .recv) :
    Between t (k.procTryRecv i).procSet := by
  unfold Kernel.procTryRecv
  dsimp only
  split_ifs with hpending
  · exact h
  · have hself : ¬ ReadyPid t (k.procSet i).pid := by
      rw [h.pid]
      exact h.apart i hi
    exact (h.runnable hself).runnable (h.sender i hi hrecv hpending)

theorem Between.procTrySyscall (h : Between t k.procSet)
    (hi : (k.procSet i).status = .pendingSyscall) :
    Ends (k.procTrySyscall i) (fun k' => Between t k'.procSet) fun _ => True := by
  unfold Kernel.procTrySyscall
  split
  case h_1 hrecv => exact h.procTryRecv hi hrecv
  case h_2 => exact h.procTrySend hi
  case h_3 => trivial

theorem Between.yieldOut (h : Between t k.procSet) (htable : Table t) :
    Between t k.yieldOut.procSet := by
  unfold Kernel.yieldOut
  split_ifs with hcurr
  · have hrunning : (t k.currProcIdx).status = .running := h.running _ hcurr
    have hnot : ¬ ReadyPid t (t k.currProcIdx).pid := by
      apply not_readyPid htable <;> rw [hrunning] <;> decide
    rw [← h.pid] at hnot
    exact h.runnable hnot
  · exact h

/-! ## The scheduling decision -/

/-- The effect of an entry on the contexts, compared to the table right after the trap. -/
structure Selected (t : Slot → Process μ) (k' : Kernel μ) : Prop where
  first : (t k'.currProcIdx).status = .ready → k'.curr.mepc = appsEntry ∧
    k'.curr.savedRegisters 0 = appsArg ∧ k'.curr.savedRegisters 1 = appsArg + 4
  again : (t k'.currProcIdx).status ≠ .ready → contextOf k'.curr = contextOf (t k'.currProcIdx)
  others : ∀ i, i ≠ k'.currProcIdx → contextOf (k'.procSet i) = contextOf (t i) ∧
    ((k'.procSet i).status = .ready ↔ (t i).status = .ready)
  running : k'.curr.status = .running

theorem firstRun_of_ready {p : Process μ} (h : p.status = .ready) :
    (Kernel.firstRun p).mepc = appsEntry ∧ (Kernel.firstRun p).savedRegisters 0 = appsArg ∧
      (Kernel.firstRun p).savedRegisters 1 = appsArg + 4 := by
  unfold Kernel.firstRun
  rw [if_pos h]
  exact ⟨rfl, rfl, rfl⟩

theorem firstRun_of_ne {p : Process μ} (h : p.status ≠ .ready) : Kernel.firstRun p = p :=
  if_neg h

theorem Between.yieldIn (h : Between t k.procSet) (htable : Table t) :
    Ends k.yieldIn (Selected t) fun _ => True := by
  have hyield : k.yieldIn = if ¬ k.roundRobin.val < maxNprocess then .error (.fatal .noProcessToRun)
      else .ok { k with
        procSet := Kernel.withStatus
          (Function.update k.procSet k.roundRobin (Kernel.firstRun (k.procSet k.roundRobin)))
          (Function.update k.procSet k.roundRobin (Kernel.firstRun (k.procSet k.roundRobin))
            k.roundRobin).pid .running
        currProcIdx := k.roundRobin
        currVmPid := (k.procSet k.roundRobin).pid } := rfl
  rw [hyield]
  split
  · trivial
  generalize k.roundRobin = c at *
  have hlt : c.val < maxNprocess := not_not.mp ‹_›
  have hcontext : contextOf (Kernel.withStatus
      (Function.update k.procSet c (Kernel.firstRun (k.procSet c)))
      (Function.update k.procSet c (Kernel.firstRun (k.procSet c)) c).pid .running c) =
        contextOf (Kernel.firstRun (k.procSet c)) := by
    rw [contextOf_withStatus, Function.update_self]
  refine ⟨fun hready => ?_, fun hready => ?_, fun i hi => ⟨?_, ?_⟩, ?_⟩
  · -- a slot that was ready gets the context of a first run
    obtain ⟨hmepc, h0, h1⟩ := firstRun_of_ready ((h.ready c).mpr hready)
    refine ⟨(congrArg Context.mepc hcontext).trans hmepc, ?_, ?_⟩
    · exact (congrFun (congrArg Context.registers hcontext) 0).trans h0
    · exact (congrFun (congrArg Context.registers hcontext) 1).trans h1
  · -- any other keeps its own
    refine (hcontext.trans ?_).trans (h.context c)
    rw [firstRun_of_ne fun hc => hready ((h.ready c).mp hc)]
  · rw [← h.context i]
    refine (contextOf_withStatus ..).trans ?_
    rw [Function.update_of_ne hi]
  · rw [← h.ready i]
    show (Kernel.withStatus _ _ _ i).status = _ ↔ _
    rw [Function.update_self, firstRun_pid]
    unfold Kernel.withStatus
    rw [Function.update_of_ne hi]
    split_ifs with hpid
    · -- a slot that is ready shares its pid with no other
      refine iff_of_false (by decide) fun hready => hi ?_
      have hti := (h.ready i).mp hready
      refine (htable.eq_of_pid (i := i) (by rw [hti]; decide) ?_).symm
      rw [← h.pid, ← h.pid]
      exact hpid.2.symm
    · rfl
  · show (Kernel.withStatus _ _ _ c).status = _
    unfold Kernel.withStatus
    rw [if_pos ⟨hlt, rfl⟩]

/-! ## An entry -/

/-- The scheduler, from a table that is the one right after the trap. -/
theorem Between.procYield (h : Between t k.procSet) (htable : Table t) (passes : Nat) :
    Ends (k.procYield passes) (Selected t) fun _ => True := by
  rw [Kernel.procYield, ends_bind]
  refine (ends_clearPendingSyscalls (P := fun k => Between t k.procSet)
    (fun _ _ hk hi => hk.procTrySyscall hi) (h.yieldOut htable) passes).mono ?_ fun _ he => he
  exact fun _ hk => hk.yieldIn htable

/-- What an entry does to contexts; `saved` is what it saves of the trapped process. -/
structure Resumed (k : Kernel μ) (saved : Context) (k' : Kernel μ) (c : Context) : Prop where
  context : c = contextOf k'.curr
  first : (k.procSet k'.currProcIdx).status = .ready →
    c.mepc = appsEntry ∧ c.registers 0 = appsArg ∧ c.registers 1 = appsArg + 4
  own : k'.currProcIdx = k.currProcIdx → c = saved
  again : k'.currProcIdx ≠ k.currProcIdx → (k.procSet k'.currProcIdx).status ≠ .ready →
    c = contextOf (k.procSet k'.currProcIdx)
  saved : k'.currProcIdx ≠ k.currProcIdx → contextOf (k'.procSet k.currProcIdx) = saved
  others : ∀ i, i ≠ k'.currProcIdx → i ≠ k.currProcIdx →
    contextOf (k'.procSet i) = contextOf (k.procSet i)
  ready : ∀ i, (k'.procSet i).status = .ready → (k.procSet i).status = .ready

/-- From the table right after the trap to the one before it. -/
theorem Selected.resumed {saved : Context} (h : Selected t k')
    (hrunning : (k.procSet k.currProcIdx).status = .running)
    (hother : ∀ i, i ≠ k.currProcIdx → t i = k.procSet i)
    (hself : contextOf (t k.currProcIdx) = saved) (hnot : (t k.currProcIdx).status ≠ .ready) :
    Resumed k saved k' ⟨k'.curr.mepc, k'.curr.savedRegisters⟩ where
  context := rfl
  first hready := by
    refine h.first ?_
    rw [hother]
    · exact hready
    · intro heq
      rw [heq, hrunning] at hready
      cases hready
  own heq := by
    refine (h.again ?_).trans ?_
    · rw [heq]
      exact hnot
    · rw [heq]
      exact hself
  again hne hready := by
    rw [← hother _ hne] at hready ⊢
    exact h.again hready
  saved hne := (h.others _ hne.symm).1.trans hself
  others i hi hik := by
    rw [← hother i hik]
    exact (h.others i hi).1
  ready i hready := by
    -- the slot selected is running and the trapped one was
    have hi : i ≠ k'.currProcIdx := by
      rintro rfl
      exact ProcStatus.noConfusion (hready.symm.trans h.running)
    have hti := (h.others i hi).2.mp hready
    have hik : i ≠ k.currProcIdx := by
      rintro rfl
      exact hnot hti
    rw [← hother i hik]
    exact hti

section Entry

variable {passes : Nat} {key : Option UInt8} {ctx c : Context}

theorem contextOf_trapped (k : Kernel μ) (ctx : Context) :
    contextOf ((k.trapped ctx).procSet k.currProcIdx) = ctx := by
  have hself : (k.trapped ctx).procSet k.currProcIdx =
      { k.curr with mepc := ctx.mepc, savedRegisters := ctx.registers } := Function.update_self ..
  rw [hself]
  rfl

theorem trapped_of_ne (hi : i ≠ k.currProcIdx) : (k.trapped ctx).procSet i = k.procSet i :=
  Function.update_of_ne hi ..

/-- The end of `kernel_entry`. -/
theorem Selected.of_entry {x : Except Stop (Kernel μ)} (h : Ends x (Selected t) fun _ => True)
    (hentry : (x >>= fun k => .ok (k, ⟨k.curr.mepc, k.curr.savedRegisters⟩)) = .ok (k', c)) :
    Selected t k' ∧ c = ⟨k'.curr.mepc, k'.curr.savedRegisters⟩ := by
  cases x with
  | error e => cases hentry
  | ok k₁ =>
    obtain ⟨rfl, rfl⟩ := Prod.mk.inj (Except.ok.inj hentry)
    exact ⟨h, rfl⟩

/-- A timer interrupt, other than one that ends the process. -/
theorem Resumed.tick (h : Ordered k) (hkey : ¬ (k.curr.pid ≥ gpidUserStart ∧ key = some 0x03))
    (hentry : Kernel.kernelEntry passes 0x80000007 key ctx k = .ok (k', c)) :
    Resumed k ctx k' c := by
  have hunfold : Kernel.kernelEntry passes 0x80000007 key ctx k =
      (if (k.trapped ctx).curr.pid ≥ gpidUserStart ∧ key = some 0x03 then
        .ok ((k.trapped ctx).setProc (k.trapped ctx).currProcIdx
          { (k.trapped ctx).curr with mepc := appsEntry + 0xC })
      else (k.trapped ctx).procYield passes) >>=
        fun k => .ok (k, ⟨k.curr.mepc, k.curr.savedRegisters⟩) := rfl
  have hpid : (k.trapped ctx).curr.pid = k.curr.pid := (sameCore_trapped k ctx _).1
  have htrapped := h.trapped ctx
  rw [hunfold, hpid, if_neg hkey] at hentry
  have hyield := (between_refl htrapped.table fun i hi => (htrapped.record i hi).1).procYield
    htrapped.table passes
  obtain ⟨hselected, rfl⟩ := Selected.of_entry hyield hentry
  refine hselected.resumed h.running (fun i hi => trapped_of_ne hi) (contextOf_trapped k ctx) ?_
  exact fun hready => ProcStatus.noConfusion (hready.symm.trans htrapped.running)

/-- A system call: the process continues behind the instruction. -/
theorem Resumed.call {call : Request Int Int μ} (h : Ordered k)
    (hentry : Kernel.kernelEntry passes 0x80000003 key ctx (k.request call) = .ok (k', c)) :
    Resumed k ⟨ctx.mepc + 4, ctx.registers⟩ k' c := by
  have hunfold : Kernel.kernelEntry passes 0x80000003 key ctx (k.request call) =
      (((k.request call).trapped ctx).takeSyscall >>= fun k => k.procYield passes) >>=
        fun k => .ok (k, ⟨k.curr.mepc, k.curr.savedRegisters⟩) := rfl
  have htrapped := (h.request call).trapped ctx
  have hidx : ((k.request call).trapped ctx).currProcIdx = k.currProcIdx :=
    request_currProcIdx k call
  rw [hunfold, takeSyscall_eq htrapped.table htrapped.loaded] at hentry
  generalize hk : (k.request call).trapped ctx = k₁ at htrapped hidx hentry
  -- the table in which the call is tried
  have hself : k₁.issueCall.procSet k₁.currProcIdx = { k₁.curr with
      syscall := { k₁.area k₁.curr.pid with status := .pending }
      status := .pendingSyscall
      mepc := k₁.curr.mepc + 4 } := Function.update_self ..
  have hothers : ∀ i, i ≠ k₁.currProcIdx → k₁.issueCall.procSet i = k₁.procSet i :=
    fun i hi => Function.update_of_ne hi ..
  have htable : Table k₁.issueCall.procSet := htrapped.table.update htrapped.loaded rfl
  have hbetween : Between k₁.issueCall.procSet k₁.issueCall.procSet := by
    refine between_refl htable fun i hi => ?_
    by_cases hcurr : i = k₁.currProcIdx
    · rw [hcurr, hself]
    · rw [hothers i hcurr] at hi ⊢
      exact (htrapped.record i hi).1
  have htry := hbetween.procTrySyscall (i := k₁.currProcIdx) (by rw [hself])
  have hyield : Ends (k₁.issueCall.procTrySyscall k₁.currProcIdx >>= fun k => k.procYield passes)
      (Selected k₁.issueCall.procSet) fun _ => True := by
    rw [ends_bind]
    exact htry.mono (fun _ h => h.procYield htable passes) fun _ he => he
  obtain ⟨hselected, rfl⟩ := Selected.of_entry hyield hentry
  have hcontext : contextOf k₁.curr = ctx := by
    rw [← hk]
    exact contextOf_trapped (k.request call) ctx
  refine hselected.resumed h.running (fun i hi => ?_) ?_ ?_
  · rw [← hidx] at hi
    rw [hothers i hi, ← hk]
    refine (trapped_of_ne ?_).trans (congrFun (request_procSet k call) i)
    rw [← hk] at hi
    exact hi
  · rw [← hidx, hself, ← hcontext]
    rfl
  · rw [← hidx, hself]
    exact ProcStatus.noConfusion

end Entry

end Egos.Trap
