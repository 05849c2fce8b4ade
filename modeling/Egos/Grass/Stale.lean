import Egos.Grass.Entry

/-!
# The Grass Kernel: Stale Records

`proc_alloc` and `proc_free` leave the record of the last system call in the slot. A process
that was killed while it was receiving therefore leaves an open receive behind, and
`proc_try_send` looks at the record alone. So `Inv`, which says that such records do not
occur, is lost once a slot is used again.

What is left is `Ordered`: the invariant without its part about idle slots. A stale record
changes what a sender is told, and nothing else: `Alike` relates a kernel to the one in which
the stale records are closed (`Kernel.closeIdle`), and every function of the kernel keeps it.
`Ordered.wp_call` and `Ordered.wp_tick` follow from this and the results of `Entry`.
-/

namespace Egos.Grass

open Egos.Lib Egos.Lib.Rendezvous

variable {μ : Type} {k k' c c' : Kernel μ} {i j : Slot}

/-! ## Alike kernels -/

/-- The two records are equal but for their status. -/
structure SameCall (sc sc' : Syscall μ) : Prop where
  type : sc'.type = sc.type
  sender : sc'.sender = sc.sender
  receiver : sc'.receiver = sc.receiver
  content : sc'.content = sc.content

theorem SameCall.refl (sc : Syscall μ) : SameCall sc sc := ⟨rfl, rfl, rfl, rfl⟩

theorem SameCall.withStatus {sc sc' : Syscall μ} (h : SameCall sc sc') (s s' : SyscallStatus) :
    SameCall { sc with status := s } { sc' with status := s' } :=
  ⟨h.type, h.sender, h.receiver, h.content⟩

/-- Both records with the same status. -/
theorem SameCall.status_eq {sc sc' : Syscall μ} (h : SameCall sc sc') (s : SyscallStatus) :
    { sc' with status := s } = { sc with status := s } := by
  obtain ⟨htype, hsender, hreceiver, hcontent⟩ := h
  rw [htype, hsender, hreceiver, hcontent]

/-- The record is no open receive. -/
def Closed (sc : Syscall μ) : Prop := ¬ (sc.type = .recv ∧ sc.status = .pending)

/-- The slots are equal, but if the slot is not pending the second one may be closed
    instead. -/
structure AlikeSlot (p q : Process μ) : Prop where
  pid : q.pid = p.pid
  status : q.status = p.status
  record : q.syscall = p.syscall ∨ (p.status ≠ .pendingSyscall ∧ Closed q.syscall)

/-- The second kernel is the first one with some stale records closed. -/
structure Alike (k c : Kernel μ) : Prop where
  slot : ∀ i, AlikeSlot (k.procSet i) (c.procSet i)
  idx : c.currProcIdx = k.currProcIdx
  area : ∀ pid, SameCall (k.area pid) (c.area pid)

theorem Alike.record_eq (h : Alike k c) (hi : (k.procSet i).status = .pendingSyscall) :
    (c.procSet i).syscall = (k.procSet i).syscall := by
  rcases (h.slot i).record with heq | ⟨hne, _⟩
  · exact heq
  · exact absurd hi hne

/-- Equal assignments to one slot. -/
theorem Alike.update_slot (h : Alike k c) {p q : Process μ} (hpq : AlikeSlot p q) (j : Slot) :
    AlikeSlot (Function.update k.procSet i p j) (Function.update c.procSet i q j) := by
  rw [Function.update_apply, Function.update_apply]
  split_ifs with hj
  · exact hpq
  · exact h.slot j

theorem Alike.update_area (h : Alike k c) {sc sc' : Syscall μ} (hsc : SameCall sc sc')
    (pid pid' : Int) :
    SameCall (Function.update k.area pid sc pid') (Function.update c.area pid sc' pid') := by
  rw [Function.update_apply, Function.update_apply]
  split_ifs
  · exact hsc
  · exact h.area pid'

/-- A status other than pending may be set everywhere. -/
theorem alikeSlot_withStatus {t u : Slot → Process μ} (h : ∀ i, AlikeSlot (t i) (u i)) (pid : Int)
    {s : ProcStatus} (hs : s ≠ .pendingSyscall) (j : Slot) :
    AlikeSlot (Kernel.withStatus t pid s j) (Kernel.withStatus u pid s j) := by
  obtain ⟨hpid, hstatus, hrecord⟩ := h j
  rw [Kernel.withStatus, Kernel.withStatus, hpid]
  split_ifs
  · exact ⟨hpid, rfl, hrecord.imp_right fun hc => ⟨hs, hc.2⟩⟩
  · exact ⟨hpid, hstatus, hrecord⟩

theorem Alike.procSetStatus (h : Alike k c) (pid : Int) {s : ProcStatus}
    (hs : s ≠ .pendingSyscall) : Alike (k.procSetStatus pid s) (c.procSetStatus pid s) :=
  ⟨alikeSlot_withStatus h.slot pid hs, h.idx, h.area⟩

/-! ## Message passing -/

theorem Alike.findReceiver_eq (h : Alike k c) (pid : Int) :
    c.findReceiver pid = k.findReceiver pid := by
  unfold Kernel.findReceiver
  congr 1
  funext i
  rw [(h.slot i).pid, (h.slot i).status]

/-- A message is handed over in both kernels, or only to a stale record of the first. -/
theorem Alike.procTrySend (h : Alike k c) (hi : (c.procSet i).syscall = (k.procSet i).syscall) :
    Related Alike (k.procTrySend i) (c.procTrySend i) := by
  rw [Kernel.procTrySend_eq, Kernel.procTrySend_eq, h.findReceiver_eq, hi]
  cases hfind : k.findReceiver (k.procSet i).syscall.receiver with
  | none => exact .error _
  | some j =>
    dsimp only
    have hpid := (h.slot i).pid
    have hsrc : SameCall (k.area (k.procSet i).pid) (c.area (c.procSet i).pid) := by
      rw [hpid]
      exact h.area _
    by_cases hequal : (c.procSet j).syscall = (k.procSet j).syscall
    · -- equal records: the same happens on both sides
      have htakes : Takes c.procSet i j ↔ Takes k.procSet i j := by
        rw [Takes, Takes, hequal, hpid]
      by_cases ht : Takes k.procSet i j
      · rw [if_pos ht, if_pos (htakes.mpr ht)]
        refine .ok ⟨fun l => ?_, h.idx, fun pid => ?_⟩
        · apply h.update_slot
          refine ⟨(h.slot j).pid, (h.slot j).status, Or.inl ?_⟩
          simp only [Kernel.filled, hequal, hi, hpid]
        · simp only [Kernel.handOver, hpid]
          exact h.update_area ((h.area _).withStatus _ _) _ _
      · rw [if_neg ht, if_neg fun hc => ht (htakes.mp hc)]
        exact .ok h
    · -- the second record is closed, so only the first kernel may hand over
      obtain ⟨hidle, hclosed⟩ := (h.slot j).record.resolve_left hequal
      have hnot : ¬ Takes c.procSet i j := fun ht => hclosed ⟨ht.1, ht.2.1⟩
      rw [if_neg hnot]
      by_cases ht : Takes k.procSet i j
      · rw [if_pos ht]
        refine .ok ⟨fun l => ?_, h.idx, fun pid => ?_⟩
        · rw [Kernel.handOver_procSet, Function.update_apply]
          split_ifs with hl
          · subst hl
            exact ⟨(h.slot l).pid, (h.slot l).status, Or.inr ⟨hidle, hclosed⟩⟩
          · exact h.slot l
        · simp only [Kernel.handOver, Function.update_apply]
          split_ifs with hp
          · subst hp
            exact ⟨(h.area _).type, (h.area _).sender, (h.area _).receiver, (h.area _).content⟩
          · exact h.area pid
      · rw [if_neg ht]
        exact .ok h

theorem Alike.procTryRecv (h : Alike k c) (hi : (c.procSet i).syscall = (k.procSet i).syscall) :
    Alike (k.procTryRecv i) (c.procTryRecv i) := by
  have hpid := (h.slot i).pid
  unfold Kernel.procTryRecv
  simp only [hi, hpid]
  split_ifs with hpending
  · exact h
  · -- two processes become runnable, and the record is copied to the same area
    have hrunnable : ProcStatus.runnable ≠ .pendingSyscall := by decide
    refine ⟨alikeSlot_withStatus (alikeSlot_withStatus h.slot _ hrunnable) _ hrunnable, h.idx,
      fun pid => ?_⟩
    simp only [Kernel.setSyscallArg, Kernel.mmuSwitch, Kernel.note, Kernel.procSetRunnable,
      Kernel.procSetStatus, Kernel.syscallArg, Function.update_idem, Function.update_self]
    exact h.update_area (SameCall.refl _) _ _

theorem Alike.procTrySyscall (h : Alike k c)
    (hi : (c.procSet i).syscall = (k.procSet i).syscall) :
    Related Alike (k.procTrySyscall i) (c.procTrySyscall i) := by
  unfold Kernel.procTrySyscall
  rw [hi]
  cases (k.procSet i).syscall.type with
  | recv => exact .ok (h.procTryRecv hi)
  | send => exact h.procTrySend hi
  | other value => exact .error _

/-- Trying a call does not change the record of the caller. -/
theorem procTrySyscall_record (k : Kernel μ) (i : Slot) :
    Ends (k.procTrySyscall i) (fun k₁ => (k₁.procSet i).syscall = (k.procSet i).syscall)
      fun _ => True := by
  unfold Kernel.procTrySyscall
  cases htype : (k.procSet i).syscall.type with
  | other value => trivial
  | recv =>
    rw [ends_ok]
    unfold Kernel.procTryRecv
    dsimp only
    split_ifs
    · rfl
    · simp only [Kernel.setSyscallArg, Kernel.mmuSwitch, Kernel.note, Kernel.procSetRunnable,
        Kernel.procSetStatus, Kernel.withStatus]
      split_ifs <;> rfl
  | send =>
    dsimp only
    rw [Kernel.procTrySend_eq]
    cases k.findReceiver (k.procSet i).syscall.receiver with
    | none => trivial
    | some j =>
      dsimp only
      split_ifs with ht
      · -- a receive takes the message, so it is another slot
        have hij : i ≠ j := by
          rintro rfl
          rw [ht.1] at htype
          cases htype
        rw [ends_ok, Kernel.handOver_procSet, Function.update_of_ne hij]
      · rfl

/-! ## The loop and the scheduler -/

theorem Alike.trySlot (h : Alike k c) (n : Nat) (i : Slot) :
    Related (fun a b => Alike a.1 b.1 ∧ b.2 = a.2) (Kernel.trySlot (k, n) i)
      (Kernel.trySlot (c, n) i) := by
  unfold Kernel.trySlot
  dsimp only
  rw [(h.slot i).status]
  split_ifs with hpending
  · have hi := h.record_eq hpending
    have hk := procTrySyscall_record k i
    have hc := procTrySyscall_record c i
    have hrel := h.procTrySyscall hi
    generalize k.procTrySyscall i = x at hk hrel ⊢
    generalize c.procTrySyscall i = y at hc hrel ⊢
    cases hrel with
    | error e => exact .error e
    | @ok k₁ c₁ halike =>
      -- progress is read off the record of the slot itself
      rw [ends_ok] at hk hc
      have hstatus : (c₁.procSet i).syscall.status = (k₁.procSet i).syscall.status := by
        rw [hk, hc, hi]
      show Related _ (if (k₁.procSet i).syscall.status = .done then .ok (k₁, n + 1) else .ok (k₁, n))
        (if (c₁.procSet i).syscall.status = .done then .ok (c₁, n + 1) else .ok (c₁, n))
      rw [hstatus]
      split_ifs
      · exact .ok ⟨halike, rfl⟩
      · exact .ok ⟨halike, rfl⟩
  · exact .ok ⟨h, rfl⟩

theorem Alike.clearPendingSyscalls (h : Alike k c) (passes : Nat) :
    Related Alike (k.clearPendingSyscalls passes) (c.clearPendingSyscalls passes) := by
  induction passes generalizing k c with
  | zero => exact .error _
  | succ passes ih =>
    rw [Kernel.clearPendingSyscalls, Kernel.clearPendingSyscalls, h.idx]
    have hpass : Related (fun a b : Kernel μ × Nat => Alike a.1 b.1 ∧ b.2 = a.2)
        ((Kernel.cyclicOrder k.currProcIdx).foldlM Kernel.trySlot (k, 0))
        ((Kernel.cyclicOrder k.currProcIdx).foldlM Kernel.trySlot (c, 0)) := by
      refine Related.foldlM ?_ _ ⟨h, rfl⟩
      rintro ⟨k₁, n⟩ ⟨c₁, m⟩ i ⟨h₁, rfl⟩
      exact h₁.trySlot _ i
    refine hpass.bind ?_
    rintro ⟨k₁, n⟩ ⟨c₁, m⟩ ⟨h₁, rfl⟩
    dsimp only
    split_ifs
    · exact ih h₁
    · exact .ok h₁

theorem Alike.curr (h : Alike k c) : AlikeSlot k.curr c.curr := by
  rw [Kernel.curr, Kernel.curr, h.idx]
  exact h.slot _

theorem Alike.yieldOut (h : Alike k c) : Alike k.yieldOut c.yieldOut := by
  unfold Kernel.yieldOut
  rw [h.curr.status, h.curr.pid]
  split_ifs
  · exact h.procSetStatus _ (by decide)
  · exact h

theorem Alike.roundRobin_eq (h : Alike k c) : c.roundRobin = k.roundRobin := by
  unfold Kernel.roundRobin
  rw [h.idx]
  congr 2
  funext i
  rw [(h.slot i).status]

theorem AlikeSlot.firstRun {p q : Process μ} (h : AlikeSlot p q) :
    AlikeSlot (Kernel.firstRun p) (Kernel.firstRun q) := by
  refine ⟨?_, ?_, ?_⟩
  · rw [firstRun_pid, firstRun_pid, h.pid]
  · rw [firstRun_status, firstRun_status, h.status]
  · rw [firstRun_syscall, firstRun_syscall, firstRun_status]
    exact h.record

/-- Alike, and with the same process switched in. -/
def AlikeIn (k c : Kernel μ) : Prop := Alike k c ∧ c.currVmPid = k.currVmPid

theorem Alike.yieldIn (h : Alike k c) : Related AlikeIn k.yieldIn c.yieldIn := by
  unfold Kernel.yieldIn
  dsimp only
  rw [h.roundRobin_eq]
  generalize k.roundRobin = i
  split_ifs
  case neg => exact .error _
  case pos =>
    have hi := (h.slot i).firstRun
    have hslots := h.update_slot (i := i) hi
    refine .ok ⟨⟨?_, rfl, h.area⟩, ?_⟩
    · simp only [Kernel.procSetRunning, Kernel.procSetStatus, Kernel.setProc, Kernel.curr,
        Kernel.mmuSwitch, Function.update_self]
      rw [hi.pid]
      exact alikeSlot_withStatus hslots _ (by decide)
    · exact (h.slot i).pid

theorem Alike.procYield (h : Alike k c) (passes : Nat) :
    Related AlikeIn (k.procYield passes) (c.procYield passes) :=
  (h.yieldOut.clearPendingSyscalls passes).bind fun _ _ h' => h'.yieldIn

/-! ## The invariant without the idle slots -/

/-- What holds while user code runs, whatever the slots held before. -/
structure Ordered (k : Kernel μ) : Prop where
  table : Table k.procSet
  record : ∀ i, RecordOk (k.procSet i)
  settled : Settled accepts (waitingOf k.procSet)
  running : (k.procSet k.currProcIdx).status = .running
  only : ∀ i, (k.procSet i).status = .running → i = k.currProcIdx
  switched : k.currVmPid = (k.procSet k.currProcIdx).pid

theorem Inv.ordered (h : Inv k) : Ordered k :=
  ⟨h.calm.table, h.calm.record, h.calm.settled, h.running, h.only, h.switched⟩

theorem Ordered.inv (h : Ordered k) (hidle : ∀ i, IdleOk (k.procSet i)) : Inv k :=
  ⟨⟨h.table, h.record, hidle, h.settled⟩, h.running, h.only, h.switched⟩

theorem Ordered.loaded (h : Ordered k) : Loaded k.procSet k.currProcIdx := by
  constructor <;> rw [h.running] <;> decide

theorem Ordered.congr (h : Ordered k) (hcore : SameCore k.procSet k'.procSet)
    (hidx : k'.currProcIdx = k.currProcIdx) (hvm : k'.currVmPid = k.currVmPid) : Ordered k' := by
  refine ⟨h.table.congr (fun i => (hcore i).1) fun i => (hcore i).2.2, fun i => ?_, ?_, ?_,
    fun i hi => ?_, ?_⟩
  · unfold RecordOk
    rw [(hcore i).2.1, (hcore i).2.2]
    exact h.record i
  · rw [hcore.waitingOf_eq]
    exact h.settled
  · rw [hidx, (hcore _).2.2]
    exact h.running
  · rw [hidx]
    exact h.only i ((hcore i).2.2.symm.trans hi)
  · rw [hidx, hvm, (hcore _).1]
    exact h.switched

theorem Ordered.request (h : Ordered k) (call : Request Int Int μ) : Ordered (k.request call) := by
  refine h.congr ?_ (request_currProcIdx k call) (request_currVmPid k call)
  rw [request_procSet]
  exact fun _ => ⟨rfl, rfl, rfl⟩

theorem Ordered.trapped (h : Ordered k) (ctx : Context) : Ordered (k.trapped ctx) :=
  h.congr (sameCore_trapped k ctx) rfl rfl

/-- The process with its record closed, unless it is pending. -/
def closeSlot (p : Process μ) : Process μ :=
  if p.status = .pendingSyscall then p else { p with syscall := { p.syscall with status := .done } }

/-- The kernel with the records of all idle slots closed. -/
def Kernel.closeIdle (k : Kernel μ) : Kernel μ :=
  { k with procSet := fun i => closeSlot (k.procSet i) }

theorem alikeSlot_closeSlot (p : Process μ) : AlikeSlot p (closeSlot p) := by
  unfold closeSlot
  split_ifs with hp
  · exact ⟨rfl, rfl, Or.inl rfl⟩
  · exact ⟨rfl, rfl, Or.inr ⟨hp, fun hopen => nomatch hopen.2⟩⟩

theorem alike_closeIdle (k : Kernel μ) : Alike k k.closeIdle :=
  ⟨fun _ => alikeSlot_closeSlot _, rfl, fun _ => SameCall.refl _⟩

theorem idleOk_closeSlot (p : Process μ) : IdleOk (closeSlot p) := by
  intro _ hidle
  unfold closeSlot at hidle ⊢
  split_ifs at hidle ⊢ with hp
  · exact absurd hp hidle
  · exact fun hopen => nomatch hopen.2

theorem Alike.waitingOf_eq (h : Alike k c) : waitingOf c.procSet = waitingOf k.procSet := by
  have hcall : ∀ i, pendingCall (c.procSet i) = pendingCall (k.procSet i) := by
    intro i
    rw [pendingCall, pendingCall, (h.slot i).status]
    split_ifs with hpending
    · rw [h.record_eq hpending]
    · rfl
  funext pid
  simp only [waitingOf, hcall]

theorem Alike.recordOk_iff (h : Alike k c) (i : Slot) :
    RecordOk (c.procSet i) ↔ RecordOk (k.procSet i) := by
  rw [RecordOk, RecordOk, (h.slot i).status]
  constructor
  · intro hrecord hpending
    rw [← h.record_eq hpending]
    exact hrecord hpending
  · intro hrecord hpending
    rw [h.record_eq hpending]
    exact hrecord hpending

/-- Closing stale records neither makes nor breaks the order. -/
theorem AlikeIn.ordered_iff (h : AlikeIn k c) : Ordered c ↔ Ordered k := by
  obtain ⟨halike, hvm⟩ := h
  have hpid := fun i => (halike.slot i).pid
  have hstatus := fun i => (halike.slot i).status
  constructor
  · rintro ⟨htable, hrecord, hsettled, hrunning, honly, hswitched⟩
    rw [halike.idx] at hrunning honly hswitched
    refine ⟨htable.congr (fun i => (hpid i).symm) fun i => (hstatus i).symm,
      fun i => (halike.recordOk_iff i).mp (hrecord i), ?_, ?_, fun i hi => ?_, ?_⟩
    · rw [← halike.waitingOf_eq]
      exact hsettled
    · rw [← hstatus]
      exact hrunning
    · exact honly i ((hstatus i).trans hi)
    · rw [← hvm, ← hpid]
      exact hswitched
  · rintro ⟨htable, hrecord, hsettled, hrunning, honly, hswitched⟩
    refine ⟨htable.congr hpid hstatus, fun i => (halike.recordOk_iff i).mpr (hrecord i),
      ?_, ?_, fun i hi => ?_, ?_⟩
    · rw [halike.waitingOf_eq]
      exact hsettled
    · rw [halike.idx, hstatus]
      exact hrunning
    · rw [halike.idx]
      exact honly i ((hstatus i).symm.trans hi)
    · rw [hvm, halike.idx, hpid]
      exact hswitched

theorem Ordered.inv_closeIdle (h : Ordered k) : Inv k.closeIdle :=
  ((AlikeIn.ordered_iff ⟨alike_closeIdle k, rfl⟩).mpr h).inv fun _ => idleOk_closeSlot _

theorem Alike.sameUse_right {t : Slot → Process μ} (h : Alike k c)
    (huse : SameUse t c.procSet) : SameUse t k.procSet := by
  refine ⟨fun i => ?_, fun i => ?_, fun i => ?_⟩
  · rw [← (h.slot i).pid]
    exact huse.pid i
  · rw [← (h.slot i).status]
    exact huse.unused i
  · rw [← (h.slot i).status]
    exact huse.loading i

theorem closeIdle_sameUse (k : Kernel μ) : SameUse k.procSet k.closeIdle.procSet := by
  have h := alike_closeIdle k
  exact ⟨fun i => (h.slot i).pid, fun i => by rw [(h.slot i).status],
    fun i => by rw [(h.slot i).status]⟩

/-! ## One entry -/

/-- What an entry does, whatever the idle slots hold: a turn of the rendezvous machine, and
    the areas of user space change as they should but for the status, which a stale record
    may have set. -/
structure Moved (k : Kernel μ) (call : Option (Request Int Int μ))
    (delivery : Option (Delivery Int μ)) (k' : Kernel μ) : Prop where
  step : Step accepts (waitingOf k.procSet) ⟨k.curr.pid, call, delivery⟩ (waitingOf k'.procSet)
  area : ∃ a, AreaAfter (k.stores call).area a delivery ∧ ∀ pid, SameCall (k'.area pid) (a pid)
  use : SameUse k.procSet k'.procSet

theorem stores_closeIdle (k : Kernel μ) (call : Option (Request Int Int μ)) :
    k.closeIdle.stores call = (k.stores call).closeIdle := by
  cases call with
  | none => rfl
  | some r => cases r <;> rfl

theorem closeIdle_curr_pid (k : Kernel μ) : k.closeIdle.curr.pid = k.curr.pid :=
  (alike_closeIdle k).curr.pid

/-- A turn of the kernel with closed records, seen from the one it stands for. -/
theorem Turned.moved {call : Option (Request Int Int μ)} {delivery : Option (Delivery Int μ)}
    (h : Turned k.closeIdle call delivery c') (halike : Alike k' c') :
    Moved k call delivery k' := by
  refine ⟨?_, ⟨c'.area, ?_, halike.area⟩, ?_⟩
  · have hstep := h.step
    rwa [halike.waitingOf_eq, (alike_closeIdle k).waitingOf_eq, closeIdle_curr_pid] at hstep
  · have harea := h.area
    rwa [stores_closeIdle] at harea
  · exact (closeIdle_sameUse k).trans (halike.sameUse_right h.use)

theorem EntryStop.of_closeIdle {call : Option (Request Int Int μ)} {passes : Nat} {e : Stop}
    (h : EntryStop k.closeIdle call passes e) : EntryStop k call passes e := by
  cases h with
  | unknownReceiver hbad =>
    refine .unknownReceiver ⟨fun huse => hbad.1 ?_, ?_⟩
    · exact ((closeIdle_sameUse k).inUse_iff _).mpr huse
    · have hsend := hbad.2
      rwa [(alike_closeIdle k).waitingOf_eq] at hsend
  | unfinished hfew => exact .unfinished hfew
  | noProcessToRun => exact .noProcessToRun

theorem Alike.saveContext (h : Alike k c) (ctx : Context) :
    Alike (k.saveContext ctx) (c.saveContext ctx) := by
  unfold Kernel.saveContext Kernel.setProc
  rw [h.idx]
  exact ⟨h.update_slot ⟨h.curr.pid, h.curr.status, h.curr.record⟩, rfl, h.area⟩

theorem Alike.trapped (h : Alike k c) (ctx : Context) : Alike (k.trapped ctx) (c.trapped ctx) :=
  Alike.saveContext (k := { k with actions := [] }) (c := { c with actions := [] })
    ⟨h.slot, h.idx, h.area⟩ ctx

/-- The record of a new call comes from user space, and is the same in both kernels. -/
theorem Alike.issueCall (h : Alike k c) : Alike k.issueCall c.issueCall := by
  refine ⟨?_, h.idx, h.area⟩
  unfold Kernel.issueCall
  dsimp only
  rw [h.idx]
  apply h.update_slot
  refine ⟨h.curr.pid, rfl, Or.inl ?_⟩
  rw [h.curr.pid]
  exact (h.area _).status_eq _

theorem Alike.takeSyscall (h : Alike k c) (hk : Table k.procSet) (hc : Table c.procSet)
    (hi : Loaded k.procSet k.currProcIdx) : Related Alike k.takeSyscall c.takeSyscall := by
  have hci : Loaded c.procSet c.currProcIdx := by
    rw [Loaded, h.idx, (h.slot _).status]
    exact hi
  rw [takeSyscall_eq hk hi, takeSyscall_eq hc hci, h.idx]
  apply h.issueCall.procTrySyscall
  apply h.issueCall.record_eq
  rw [Kernel.issueCall]
  simp only [Function.update_self]

theorem Alike.request (h : Alike k c) (call : Request Int Int μ)
    (hvm : c.currVmPid = k.currVmPid) : Alike (k.request call) (c.request call) := by
  have hcall := h.area k.currVmPid
  cases call with
  | send receiver content =>
    refine ⟨h.slot, h.idx, fun pid => ?_⟩
    simp only [Kernel.request, Kernel.sysSend, Kernel.setSyscallArg, Kernel.syscallArg, hvm]
    apply h.update_area
    exact ⟨rfl, hcall.sender, rfl, rfl⟩
  | recv source =>
    refine ⟨h.slot, h.idx, fun pid => ?_⟩
    simp only [Kernel.request, Kernel.sysRecv, Kernel.setSyscallArg, Kernel.syscallArg, hvm]
    apply h.update_area
    exact ⟨rfl, rfl, hcall.receiver, hcall.content⟩

/-- What the last step of an entry returns. -/
theorem related_resume {x y : Except Stop (Kernel μ)} (h : Related AlikeIn x y) :
    Related (fun a b : Kernel μ × Context => AlikeIn a.1 b.1)
      (x >>= fun k => .ok (k, ⟨k.curr.mepc, k.curr.savedRegisters⟩))
      (y >>= fun k => .ok (k, ⟨k.curr.mepc, k.curr.savedRegisters⟩)) :=
  h.bind fun _ _ hin => .ok hin

/-- A turn of the kernel with closed records is one of the kernel it stands for. -/
theorem Ordered.wp_of_closeIdle {call : Option (Request Int Int μ)} {passes : Nat}
    {x y : Except Stop (Kernel μ × Context)}
    (hrel : Related (fun a b => AlikeIn a.1 b.1) x y)
    (hy : Ends y (fun kc => Inv kc.1 ∧ ∃ delivery, Turned k.closeIdle call delivery kc.1)
      (EntryStop k.closeIdle call passes)) :
    Ends x (fun kc => Ordered kc.1 ∧ ∃ delivery, Moved k call delivery kc.1)
      (EntryStop k call passes) := by
  apply (hrel.ends hy).mono _ fun _ he => he.of_closeIdle
  rintro kc ⟨cc, hin, hinv, delivery, hturned⟩
  exact ⟨hin.ordered_iff.mp hinv.ordered, delivery, hturned.moved hin.1⟩

/-- A system call of the running process, and the same call with the stale records closed. -/
theorem Ordered.related_call (h : Ordered k) (call : Request Int Int μ) (passes : Nat)
    (key : Option UInt8) (ctx : Context) :
    Related (fun a b => AlikeIn a.1 b.1)
      (Kernel.kernelEntry passes 0x80000003 key ctx (k.request call))
      (Kernel.kernelEntry passes 0x80000003 key ctx (k.closeIdle.request call)) := by
  have halike := ((alike_closeIdle k).request call rfl).trapped ctx
  have htrapped := (h.request call).trapped ctx
  have htake := halike.takeSyscall htrapped.table
    ((h.inv_closeIdle.request call).trapped ctx).calm.table htrapped.loaded
  exact related_resume (htake.bind fun _ _ h' => h'.procYield passes)

/-- A timer interrupt, and the same interrupt with the stale records closed. -/
theorem related_tick (k : Kernel μ) (passes : Nat) (key : Option UInt8) (ctx : Context) :
    Related (fun a b => AlikeIn a.1 b.1) (Kernel.kernelEntry passes 0x80000007 key ctx k)
      (Kernel.kernelEntry passes 0x80000007 key ctx k.closeIdle) := by
  have halike := (alike_closeIdle k).trapped ctx
  have hentry : ∀ k : Kernel μ, Kernel.kernelEntry passes 0x80000007 key ctx k =
      (if (k.trapped ctx).curr.pid ≥ gpidUserStart ∧ key = some 0x03 then
        .ok ((k.trapped ctx).setProc (k.trapped ctx).currProcIdx
          { (k.trapped ctx).curr with mepc := appsEntry + 0xC })
      else (k.trapped ctx).procYield passes) >>=
        fun k => .ok (k, ⟨k.curr.mepc, k.curr.savedRegisters⟩) := fun _ => rfl
  rw [hentry, hentry, halike.curr.pid]
  apply related_resume
  split_ifs
  · -- ctrl+c changes the program counter alone
    refine .ok ⟨⟨?_, halike.idx, halike.area⟩, rfl⟩
    rw [halike.idx]
    exact halike.update_slot ⟨halike.curr.pid, halike.curr.status, halike.curr.record⟩
  · exact halike.procYield passes

/-- A system call of the running process. -/
theorem Ordered.wp_call (h : Ordered k) (call : Request Int Int μ) (passes : Nat)
    (key : Option UInt8) (ctx : Context) :
    Ends (Kernel.kernelEntry passes 0x80000003 key ctx (k.request call))
      (fun kc => Ordered kc.1 ∧ ∃ delivery, Moved k (some call) delivery kc.1)
      (EntryStop k (some call) passes) :=
  Ordered.wp_of_closeIdle (h.related_call call passes key ctx)
    (h.inv_closeIdle.wp_call call passes key ctx)

/-- A timer interrupt of the running process. -/
theorem Ordered.wp_tick (h : Ordered k) (passes : Nat) (key : Option UInt8) (ctx : Context) :
    Ends (Kernel.kernelEntry passes 0x80000007 key ctx k)
      (fun kc => Ordered kc.1 ∧ ∃ delivery, Moved k none delivery kc.1)
      (EntryStop k none passes) :=
  Ordered.wp_of_closeIdle (related_tick k passes key ctx)
    (h.inv_closeIdle.wp_tick passes key ctx)

end Egos.Grass
