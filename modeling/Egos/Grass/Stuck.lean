import Egos.Grass.Lifecycle

/-!
# The Grass Kernel: No Process to Run

`proc_yield` stops the machine with "no process to run" if it finds no process that is ready or
runnable. Here is what this means for the processes: every one of them waits in a call, after
everything that could be delivered has been delivered (`Stuck`).

- `Awake`: no process sleeps. The status exists, but nothing in the kernel sets it.
- `Ordered.stuck_of_call`, `Ordered.stuck_of_tick`: an entry that ends this way leaves the
  rendezvous machine stuck.
-/

namespace Egos.Grass

open Egos.Lib Egos.Lib.Rendezvous

variable {μ : Type} {k k' k₁ k₂ : Kernel μ} {t : Slot → Process μ} {i : Slot}

/-! ## No process sleeps -/

/-- No slot is `PROC_SLEEPING`. -/
def Awake (t : Slot → Process μ) : Prop := ∀ i, (t i).status ≠ .sleeping

theorem Awake.update (h : Awake t) {p : Process μ} (hp : p.status ≠ .sleeping) :
    Awake (Function.update t i p) := by
  intro j
  rw [Function.update_apply]
  split_ifs
  · exact hp
  · exact h j

theorem Awake.withStatus (h : Awake t) (pid : Int) {status : ProcStatus}
    (hstatus : status ≠ .sleeping) : Awake (Kernel.withStatus t pid status) := by
  intro j
  unfold Kernel.withStatus
  split_ifs
  · exact hstatus
  · exact h j

theorem Awake.procTrySyscall (h : Awake k.procSet) (i : Slot) :
    Ends (k.procTrySyscall i) (fun k' => Awake k'.procSet) fun _ => True := by
  unfold Kernel.procTrySyscall
  split
  case h_1 =>
    -- `proc_try_recv` sets nothing but `PROC_RUNNABLE`
    rw [ends_ok]
    unfold Kernel.procTryRecv
    dsimp only
    split_ifs
    · exact h
    · exact (h.withStatus _ ProcStatus.noConfusion).withStatus _ ProcStatus.noConfusion
  case h_2 =>
    rw [Kernel.procTrySend_eq]
    cases k.findReceiver (k.procSet i).syscall.receiver with
    | none => trivial
    | some j =>
      dsimp only
      split_ifs
      · rw [ends_ok, Kernel.handOver_procSet]
        exact h.update (h j)
      · exact h
  case h_3 => trivial

theorem Awake.yieldOut (h : Awake k.procSet) : Awake k.yieldOut.procSet := by
  unfold Kernel.yieldOut
  split_ifs
  · exact h.withStatus _ ProcStatus.noConfusion
  · exact h

theorem Awake.yieldIn (h : Awake k.procSet) :
    Ends k.yieldIn (fun k' => Awake k'.procSet) fun _ => True := by
  unfold Kernel.yieldIn
  dsimp only
  split_ifs
  · rw [ends_ok]
    refine Awake.withStatus (h.update ?_) _ (fun h => ProcStatus.noConfusion h)
    rw [firstRun_status]
    exact h _
  · trivial

theorem Awake.procYield (h : Awake k.procSet) (passes : Nat) :
    Ends (k.procYield passes) (fun k' => Awake k'.procSet) fun _ => True := by
  rw [Kernel.procYield, ends_bind]
  exact (ends_clearPendingSyscalls (P := fun k => Awake k.procSet)
    (fun _ i hk _ => hk.procTrySyscall i) h.yieldOut passes).mono (fun _ hk => hk.yieldIn)
    fun _ he => he

theorem Awake.takeSyscall (h : Awake k.procSet) :
    Ends k.takeSyscall (fun k' => Awake k'.procSet) fun _ => True := by
  unfold Kernel.takeSyscall
  dsimp only
  apply Awake.procTrySyscall
  have hrecord := h.update (i := k.currProcIdx)
    (p := { k.curr with syscall := { k.area k.curr.pid with status := .pending } }) (h _)
  have hpending := hrecord.withStatus k.curr.pid (show ProcStatus.pendingSyscall ≠ _ from nofun)
  simp only [Kernel.curr, Kernel.mmuSwitch, Kernel.setProc, Kernel.syscallArg,
    Kernel.procSetPending, Kernel.procSetStatus, Function.update_self] at hpending ⊢
  exact hpending.update (hpending _)

/-- Every entry keeps the processes awake. -/
theorem Awake.kernelEntry (h : Awake k.procSet) (passes : Nat) (mcause : UInt32)
    (key : Option UInt8) (ctx : Context) :
    Ends (Kernel.kernelEntry passes mcause key ctx k) (fun kc => Awake kc.1.procSet)
      fun _ => True := by
  have htrapped : Awake (k.trapped ctx).procSet := h.update (h _)
  unfold Kernel.kernelEntry
  split_ifs
  · rw [ends_bind]
    suffices hintr : Ends ((k.trapped ctx).intrEntry passes (mcause &&& 0x3FF) key)
        (fun k' => Awake k'.procSet) fun _ => True from
      hintr.mono (fun k' hk => by rw [ends_ok]; exact hk) fun _ he => he
    unfold Kernel.intrEntry
    split_ifs
    · exact htrapped.update (htrapped _)
    · exact htrapped.procYield passes
    · rw [ends_bind]
      exact htrapped.takeSyscall.mono (fun _ hk => hk.procYield passes) fun _ he => he
    · trivial
  · trivial

/-- So does process management. -/
theorem Awake.managed (h : Awake k.procSet) (hm : Managed k.procSet k'.procSet) :
    Awake k'.procSet := by
  intro i
  have hchange := hm i
  generalize k'.procSet i = q at hchange ⊢
  cases hchange with
  | same => exact h i
  | alloc => exact ProcStatus.noConfusion
  | ready => exact ProcStatus.noConfusion
  | free => exact ProcStatus.noConfusion

/-! ## Nothing to schedule -/

/-- After a turn of the rendezvous machine, with this call of the running process, every
    process that is loaded waits. -/
def Stuck (k : Kernel μ) (call : Option (Request Int Int μ)) : Prop :=
  ∃ delivery w', Step accepts (waitingOf k.procSet) ⟨k.curr.pid, call, delivery⟩ w' ∧
    ∀ i, Loaded k.procSet i → w' i.val ≠ none

/-- If `round_robin` finds nobody, no slot that it looks at is ready or runnable. -/
theorem roundRobin_none (h : ¬ k.roundRobin.val < 16) (hi : i.val < 16) :
    (k.procSet i).status ≠ .ready ∧ (k.procSet i).status ≠ .runnable := by
  unfold Kernel.roundRobin at h
  cases hfind : (Kernel.cyclicOrder k.currProcIdx).find? fun i =>
      decide ((k.procSet i).status = .ready ∨ (k.procSet i).status = .runnable) with
  | none =>
    have hnone := List.find?_eq_none.mp hfind i (mem_cyclicOrder _ hi)
    simpa using hnone
  | some j =>
    rw [hfind] at h
    exact absurd (lt_of_mem_cyclicOrder (List.mem_of_find?_eq_some hfind)) h

/-- A scheduling decision that fails finds every loaded process waiting. -/
theorem waiting_of_yieldIn_error (hcalm : Calm k.procSet) (hawake : Awake k.procSet)
    (hnone : ∀ i, (k.procSet i).status ≠ .running) {e : Stop} (h : k.yieldIn = .error e)
    (hi : Loaded k.procSet i) : waitingOf k.procSet i.val ≠ none := by
  have hlt := hcalm.table.lt_of_loaded hi
  have hrobin : ¬ k.roundRobin.val < 16 := by
    intro hfound
    unfold Kernel.yieldIn at h
    dsimp only at h
    split_ifs at h with hcheck
    exact hcheck hfound
  obtain ⟨hready, hrunnable⟩ := roundRobin_none hrobin hlt
  have hpending : (k.procSet i).status = .pendingSyscall := by
    cases hs : (k.procSet i).status with
    | unused => exact absurd hs hi.1
    | loading => exact absurd hs hi.2
    | ready => exact absurd hs hready
    | running => exact absurd hs (hnone i)
    | runnable => exact absurd hs hrunnable
    | pendingSyscall => rfl
    | sleeping => exact absurd hs (hawake i)
  obtain ⟨_, c, hc⟩ := hcalm.record i hpending
  rw [waitingOf_val hlt, pendingCall, if_pos hpending, hc]
  exact Option.some_ne_none c

theorem Delivers.awake (h : Delivers k₁ k₂) (hawake : Awake k₁.procSet) : Awake k₂.procSet := by
  cases h with
  | nothing => exact hawake
  | @one s r =>
    rw [Kernel.release_procSet, Kernel.handOver_procSet]
    have hfilled := hawake.update (i := r) (p := Kernel.filled (k₁.procSet s) (k₁.procSet r))
      (hawake r)
    refine Awake.update (Awake.update hfilled ?_) ?_ <;> exact fun h => ProcStatus.noConfusion h

/-- A turn of the kernel that ends in the scheduler, from the state after the call. -/
theorem stuck_of_turn {call : Option (Request Int Int μ)} {x : Except Stop (Kernel μ)}
    {E : Stop → Prop} (hx : Ends x (Delivers k₁) E) (hE : ¬ E (.fatal .noProcessToRun))
    (htable : Table k₁.procSet) (hawake : Awake k₁.procSet)
    (hnone : ∀ i, (k₁.procSet i).status ≠ .running)
    (hwaiting : waitingOf k₁.procSet = issue (waitingOf k.procSet) k.curr.pid call)
    (hfree : call ≠ none → waitingOf k.procSet k.curr.pid = none)
    (huse : SameUse k.procSet k₁.procSet)
    (herror : (x >>= Kernel.yieldIn) = .error (.fatal .noProcessToRun)) : Stuck k call := by
  cases x with
  | error e =>
    obtain rfl : e = .fatal .noProcessToRun := Except.error.inj herror
    exact absurd hx hE
  | ok k₂ =>
    have hdelivers : Delivers k₁ k₂ := hx
    obtain ⟨hcalm, huse₂, hnone₂, delivery, _, _, hmachine⟩ := hdelivers.effect htable
    refine ⟨delivery, waitingOf k₂.procSet, ?_, fun i hi => ?_⟩
    · cases delivery with
      | none =>
        rw [hmachine.2, hwaiting]
        exact .wait hfree (hwaiting ▸ hmachine.1)
      | some d =>
        rw [hmachine.2, hwaiting]
        exact .deliver hfree (hwaiting ▸ hmachine.1)
    · apply waiting_of_yieldIn_error hcalm (hdelivers.awake hawake) (hnone₂ hnone) herror
      exact ((huse.trans huse₂).loaded_iff i).mpr hi

/-! ## Entries -/

theorem not_clearStop {passes n : Nat} : ¬ ClearStop t passes n (.fatal .noProcessToRun) := by
  rintro (⟨_, _, h⟩ | ⟨h, _⟩) <;> cases h

theorem Inv.stuck_of_call (h : Inv k) (hawake : Awake k.procSet) {call : Request Int Int μ}
    {passes : Nat} {key : Option UInt8} {ctx : Context}
    (herror : Kernel.kernelEntry passes 0x80000003 key ctx (k.request call) =
      .error (.fatal .noProcessToRun)) : Stuck k (some call) := by
  have hinv := (h.request call).trapped ctx
  obtain ⟨hissued, hwaiting⟩ := h.issued_called call ctx
  have hidx := called_currProcIdx (k := k) call ctx
  have hclear := Issued.wp_clear (k := k.called call ctx) (hidx ▸ hissued) passes
  have hcalled : Awake (k.called call ctx).procSet := by
    unfold Kernel.called Kernel.issueCall
    refine Awake.update (Awake.update ?_ ?_) ProcStatus.noConfusion
    · rw [request_procSet]
      exact hawake
    · show ((k.request call).procSet _).status ≠ _
      rw [request_procSet]
      exact hawake _
  refine stuck_of_turn hclear not_clearStop hissued.table hcalled (h.called_not_running call ctx)
    hwaiting (fun _ => ?_) (h.sameUse_called call ctx) ?_
  · rw [Kernel.curr, h.pid]
    exact h.waiting_curr
  · have hentry : Kernel.kernelEntry passes 0x80000003 key ctx (k.request call) =
        (((k.request call).trapped ctx).takeSyscall >>= fun k => k.procYield passes) >>=
          fun k => .ok (k, ⟨k.curr.mepc, k.curr.savedRegisters⟩) := rfl
    rw [hentry, takeSyscall_eq hinv.calm.table hinv.loaded] at herror
    rw [bind_assoc]
    generalize hy : ((((k.request call).trapped ctx).issueCall.procTrySyscall
      ((k.request call).trapped ctx).currProcIdx) >>= fun k => k.procYield passes) = y at herror
    cases y with
    | error e =>
      obtain rfl : e = .fatal .noProcessToRun := Except.error.inj herror
      exact hy
    | ok k' => cases herror

theorem Inv.stuck_of_tick (h : Inv k) (hawake : Awake k.procSet) {passes : Nat}
    {key : Option UInt8} {ctx : Context}
    (herror : Kernel.kernelEntry passes 0x80000007 key ctx k = .error (.fatal .noProcessToRun)) :
    Stuck k none := by
  have hinv := h.trapped ctx
  have htrap := sameCore_trapped k ctx
  have hentry : Kernel.kernelEntry passes 0x80000007 key ctx k =
      (if (k.trapped ctx).curr.pid ≥ gpidUserStart ∧ key = some 0x03 then
        .ok ((k.trapped ctx).setProc (k.trapped ctx).currProcIdx
          { (k.trapped ctx).curr with mepc := appsEntry + 0xC })
      else (k.trapped ctx).procYield passes) >>=
        fun k => .ok (k, ⟨k.curr.mepc, k.curr.savedRegisters⟩) := rfl
  rw [hentry] at herror
  split_ifs at herror with hkill
  · cases herror
  · obtain ⟨hcalm, hwaiting, huse, hnone, _, _⟩ := hinv.yieldOut
    have hclear : Ends ((k.trapped ctx).yieldOut.clearPendingSyscalls passes)
        (Delivers (k.trapped ctx).yieldOut)
        (ClearStop (k.trapped ctx).yieldOut.procSet passes 1) := by
      apply (hcalm.wp_clear passes).mono _ fun _ he => he
      rintro _ rfl
      exact .nothing hcalm
    have hout : Awake (k.trapped ctx).yieldOut.procSet :=
      Awake.yieldOut (hawake.update (hawake _))
    refine stuck_of_turn hclear not_clearStop hcalm.table hout hnone
      (hwaiting.trans htrap.waitingOf_eq) (fun hne => absurd rfl hne) (htrap.sameUse.trans huse) ?_
    generalize hy : (k.trapped ctx).procYield passes = y at herror
    cases y with
    | error e =>
      obtain rfl : e = .fatal .noProcessToRun := Except.error.inj herror
      exact hy
    | ok k' => cases herror

/-! ## Whatever the idle slots hold -/

theorem awake_closeIdle (h : Awake k.procSet) : Awake k.closeIdle.procSet := by
  intro i
  rw [((alike_closeIdle k).slot i).status]
  exact h i

theorem Stuck.of_closeIdle {call : Option (Request Int Int μ)} (h : Stuck k.closeIdle call) :
    Stuck k call := by
  obtain ⟨delivery, w', hstep, hwait⟩ := h
  rw [(alike_closeIdle k).waitingOf_eq, closeIdle_curr_pid] at hstep
  exact ⟨delivery, w', hstep, fun i hi =>
    hwait i (((closeIdle_sameUse k).loaded_iff i).mpr hi)⟩

/-- A call that ends with "no process to run". -/
theorem Ordered.stuck_of_call (h : Ordered k) (hawake : Awake k.procSet)
    {call : Request Int Int μ} {passes : Nat} {key : Option UInt8} {ctx : Context}
    (herror : Kernel.kernelEntry passes 0x80000003 key ctx (k.request call) =
      .error (.fatal .noProcessToRun)) : Stuck k (some call) :=
  .of_closeIdle (h.inv_closeIdle.stuck_of_call (awake_closeIdle hawake)
    ((h.related_call call passes key ctx).error_eq herror))

/-- A timer interrupt that ends with "no process to run". -/
theorem Ordered.stuck_of_tick (h : Ordered k) (hawake : Awake k.procSet) {passes : Nat}
    {key : Option UInt8} {ctx : Context}
    (herror : Kernel.kernelEntry passes 0x80000007 key ctx k = .error (.fatal .noProcessToRun)) :
    Stuck k none :=
  .of_closeIdle (h.inv_closeIdle.stuck_of_tick (awake_closeIdle hawake)
    ((related_tick k passes key ctx).error_eq herror))

end Egos.Grass
