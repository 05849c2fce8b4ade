import Egos.Machine.Code

/-!
# The Machine: The Kernel over the Software TLB

The model of the kernel gives every process an area for its system call record, and
`mmu_switch` only says whose area is meant. Here the software TLB stands behind it: the areas
are the pages at `SYSCALL_ARG`, each read through the view of its process.

- `Backs`: the memory holds what the kernel believes. The primitives keep it:
  `Backs.mmuSwitch`, `Backs.setSyscallArg`.
- `enters_backed`: every entry of the kernel is made by switches and stores on the memory, at
  the end of which the memory again holds what the kernel believes. So the machine can make
  every step that the kernel can make (`step_of_enters`).
-/

namespace Egos.Machine

open Egos.Grass Egos.Earth Egos.Lib

variable {μ π : Type} {decode : π → Syscall μ} {s s₀ : Tlb π} {k k' : Kernel μ} {i : Slot}
  {p : Int}

/-! ## Areas and pages -/

/-- The process has a page at `SYSCALL_ARG`. -/
def HasPage (s : Tlb π) (p : Int) : Prop := ∃ i, s.pageInfoTable i = ⟨p, syscallArgPage⟩

/-- A receive that is done has a sender. -/
def SenderOk (p : Process μ) : Prop :=
  p.status = .pendingSyscall → p.syscall.type = .recv → p.syscall.status ≠ .pending →
    p.syscall.sender ≠ 0

/-- The memory holds what the kernel believes; `decode` reads a record from a page. -/
structure Backs (decode : π → Syscall μ) (s : Tlb π) (k : Kernel μ) : Prop where
  wellFormed : WellFormed s
  switched : s.currVmPid = k.currVmPid
  area : ∀ p ≠ 0, ∀ c, s.view p syscallArgPage = some c → decode c = k.area p
  table : Table k.procSet
  sender : ∀ i, SenderOk (k.procSet i)
  page : ∀ i, (k.procSet i).status = .pendingSyscall → HasPage s (k.procSet i).pid

theorem Backs.mmuSwitch (h : Backs decode s k) (hp : p ≠ 0) :
    Backs decode (s.softTlbSwitch p) (k.mmuSwitch p) where
  wellFormed := h.wellFormed.congr (softTlbSwitch_pageInfoTable s p)
  switched := softTlbSwitch_currVmPid s p
  area := by
    intro q hq c hc
    rw [h.wellFormed.view_softTlbSwitch hp hq] at hc
    exact h.area q hq c hc
  table := h.table
  sender := h.sender
  page := by
    intro i hi
    unfold HasPage
    rw [softTlbSwitch_pageInfoTable]
    exact h.page i hi

/-- What the kernel reads at `SYSCALL_ARG`. -/
theorem Backs.syscallArg (h : Backs decode s k) (hcurr : k.currVmPid ≠ 0)
    (hpage : HasPage s k.currVmPid) : decode (s.mem syscallArgPage) = k.syscallArg := by
  obtain ⟨i, hi⟩ := hpage
  apply h.area _ hcurr
  unfold Tlb.view
  rw [h.wellFormed.find_eq hcurr hi, Option.map_some, if_pos h.switched.symm]

/-- What the kernel writes there. -/
theorem Backs.setSyscallArg (h : Backs decode s k) (hcurr : k.currVmPid ≠ 0)
    (hpage : HasPage s k.currVmPid) (c : π) :
    Backs decode (s.store syscallArgPage c) (k.setSyscallArg (decode c)) where
  wellFormed := h.wellFormed.store _ c
  switched := h.switched
  area := by
    intro q hq d hd
    obtain ⟨i, hi⟩ := hpage
    have hview := h.wellFormed.view_store_page hcurr hi hq syscallArgPage c
    rw [if_pos h.switched.symm, hd] at hview
    show decode d = Function.update k.area k.currVmPid (decode c) q
    by_cases heq : k.currVmPid = q
    · rw [if_pos ⟨heq, rfl⟩] at hview
      rw [← heq, Function.update_self, Option.some.inj hview]
    · rw [if_neg fun hc => heq hc.1] at hview
      rw [Function.update_of_ne (Ne.symm heq)]
      exact h.area q hq d hview.symm
  table := h.table
  sender := h.sender
  page := h.page

/-! ## Changes of the table -/

section Table

variable {t : Slot → Process μ}

/-- A status may be set for every pid but 0, which is that of the slots never used. -/
theorem table_withStatus (h : Table t) (hp : p ≠ 0) (status : ProcStatus) :
    Table (Kernel.withStatus t p status) := by
  have hslot : ∀ i, (t i).pid = p → (t i).pid = i.val := fun i hi =>
    (h.pid i).resolve_left fun hzero => hp (hi.symm.trans hzero)
  refine ⟨fun i => ?_, fun i => ?_, ?_, ?_⟩
  · unfold Kernel.withStatus
    split_ifs <;> exact h.pid i
  · unfold Kernel.withStatus
    split_ifs with hi
    · exact fun _ => hslot i hi.2
    · exact h.named i
  · unfold Kernel.withStatus
    split_ifs with hi
    · exact absurd (hi.2.symm.trans (hslot 0 hi.2)) hp
    · exact h.zero
  · unfold Kernel.withStatus
    rw [if_neg fun hi => absurd hi.1 (by decide)]
    exact h.last

theorem Backs.ne_zero (h : Backs decode s k) (hi : (k.procSet i).status ≠ .unused) :
    (k.procSet i).pid ≠ 0 := by
  rw [h.table.named i hi]
  intro hzero
  exact h.table.ne_zero hi (Fin.ext (Int.ofNat_eq_zero.mp hzero))

/-- Another table behind the same memory. -/
theorem Backs.procSet (h : Backs decode s k) (htable : Table k'.procSet)
    (hsender : ∀ i, SenderOk (k'.procSet i))
    (hpage : ∀ i, (k'.procSet i).status = .pendingSyscall → HasPage s (k'.procSet i).pid)
    (hvm : k'.currVmPid = k.currVmPid) (harea : k'.area = k.area) : Backs decode s k' where
  wellFormed := h.wellFormed
  switched := h.switched.trans hvm.symm
  area := by
    rw [harea]
    exact h.area
  table := htable
  sender := hsender
  page := hpage

/-- Assignment to a slot. -/
theorem Backs.update (h : Backs decode s k) {q : Process μ}
    (htable : Table (Function.update k.procSet i q)) (hsender : SenderOk q)
    (hpage : q.status = .pendingSyscall → HasPage s q.pid) : Backs decode s (k.setProc i q) := by
  refine h.procSet htable (fun j => ?_) (fun j hj => ?_) rfl rfl
  · by_cases hji : j = i
    · subst hji
      rw [k.setProc_self]
      exact hsender
    · rw [k.setProc_of_ne _ hji]
      exact h.sender j
  · by_cases hji : j = i
    · subst hji
      rw [k.setProc_self] at hj ⊢
      exact hpage hj
    · rw [k.setProc_of_ne _ hji] at hj ⊢
      exact h.page j hj

/-- Assignment to a slot, which keeps its pid and its status. -/
theorem Backs.setProc (h : Backs decode s k) {q : Process μ} (hpid : q.pid = (k.procSet i).pid)
    (hstatus : q.status = (k.procSet i).status) (hsender : SenderOk q) :
    Backs decode s (k.setProc i q) := by
  refine h.update (h.table.congr (fun j => ?_) fun j => ?_) hsender fun hq => ?_
  · rw [Function.update_apply]
    split_ifs with hji
    · rw [hji, hpid]
    · rfl
  · rw [Function.update_apply]
    split_ifs with hji
    · rw [hji, hstatus]
    · rfl
  · rw [hpid]
    exact h.page i (hstatus.symm.trans hq)

/-- A status other than `PROC_PENDING_SYSCALL`. -/
theorem Backs.procSetStatus (h : Backs decode s k) (hp : p ≠ 0) (status : ProcStatus)
    (hstatus : status ≠ .pendingSyscall) : Backs decode s (k.procSetStatus p status) := by
  -- a slot that is pending afterwards has not been touched
  have hkept : ∀ i, ((k.procSetStatus p status).procSet i).status = .pendingSyscall →
      (k.procSetStatus p status).procSet i = k.procSet i := by
    intro i hi
    by_cases htouched : i.val < maxNprocess ∧ (k.procSet i).pid = p
    · have hset : (k.procSetStatus p status).procSet i = { k.procSet i with status := status } :=
        if_pos htouched
      rw [hset] at hi
      exact absurd hi hstatus
    · exact if_neg htouched
  refine h.procSet (table_withStatus h.table hp status) ?_ ?_ rfl rfl
  · intro i hi
    have hsame := hkept i hi
    rw [hsame] at hi ⊢
    exact h.sender i hi
  · intro i hi
    have hsame := hkept i hi
    rw [hsame] at hi ⊢
    exact h.page i hi

end Table

/-! ## Entries -/

/-- Using the memory changes neither the table nor the bitmap. -/
theorem access_table {s s' : Tlb π} (h : Relation.ReflTransGen Access s s') :
    s'.pageInfoTable = s.pageInfoTable ∧ s'.bitmap = s.bitmap := by
  induction h with
  | refl => exact ⟨rfl, rfl⟩
  | tail _ hlast ih =>
    rw [← ih.1, ← ih.2]
    cases hlast with
    | switch pid => exact ⟨softTlbSwitch_pageInfoTable _ pid, softTlbSwitch_bitmap _ pid⟩
    | store v content => exact ⟨rfl, rfl⟩

theorem hasPage_access {s s' : Tlb π} (h : Relation.ReflTransGen Access s s') :
    HasPage s' p ↔ HasPage s p := by
  unfold HasPage
  rw [(access_table h).1]

/-- From `s₀`, switches and stores lead to a memory that holds what the kernel believes. -/
def Backed (decode : π → Syscall μ) (s₀ : Tlb π) (k : Kernel μ) : Prop :=
  ∃ s, Relation.ReflTransGen Access s₀ s ∧ Backs decode s k

theorem Backed.table (h : Backed decode s₀ k) : Table k.procSet := by
  obtain ⟨s, _, hback⟩ := h
  exact hback.table

theorem Backed.ne_zero (h : Backed decode s₀ k) (hi : (k.procSet i).status ≠ .unused) :
    (k.procSet i).pid ≠ 0 := by
  obtain ⟨s, _, hback⟩ := h
  exact hback.ne_zero hi

theorem Backed.sender (h : Backed decode s₀ k) (i : Slot) : SenderOk (k.procSet i) := by
  obtain ⟨s, _, hback⟩ := h
  exact hback.sender i

/-- The pages are those of the start. -/
theorem Backed.page (h : Backed decode s₀ k) (hi : (k.procSet i).status = .pendingSyscall) :
    HasPage s₀ (k.procSet i).pid := by
  obtain ⟨s, hacc, hback⟩ := h
  exact (hasPage_access hacc).mp (hback.page i hi)

/-- What keeps `Backs` for each memory keeps `Backed`. -/
theorem Backed.map (h : Backed decode s₀ k)
    (hmap : ∀ s, Backs decode s k → Backs decode s k') : Backed decode s₀ k' := by
  obtain ⟨s, hacc, hback⟩ := h
  exact ⟨s, hacc, hmap s hback⟩

theorem Backed.note (h : Backed decode s₀ k) (a : Action μ) : Backed decode s₀ (k.note a) :=
  h.map fun _ hback => hback.procSet hback.table hback.sender hback.page rfl rfl

theorem Backed.mmuSwitch (h : Backed decode s₀ k) (hp : p ≠ 0) :
    Backed decode s₀ (k.mmuSwitch p) := by
  obtain ⟨s, hacc, hback⟩ := h
  exact ⟨_, hacc.tail (.switch p), hback.mmuSwitch hp⟩

section Entry

variable (hdecode : Function.Surjective decode)

include hdecode

theorem Backed.setSyscallArg (h : Backed decode s₀ k) (hcurr : k.currVmPid ≠ 0)
    (hpage : HasPage s₀ k.currVmPid) (sc : Syscall μ) : Backed decode s₀ (k.setSyscallArg sc) := by
  obtain ⟨s, hacc, hback⟩ := h
  obtain ⟨c, rfl⟩ := hdecode sc
  have hpage' := (hasPage_access hacc).mpr hpage
  exact ⟨_, hacc.tail (.store _ c), hback.setSyscallArg hcurr hpage' c⟩

theorem Backed.procTrySend (h : Backed decode s₀ k)
    (hi : (k.procSet i).status = .pendingSyscall) :
    Ends (k.procTrySend i) (Backed decode s₀) fun _ => True := by
  have hpid : (k.procSet i).pid ≠ 0 := h.ne_zero (by rw [hi]; decide)
  unfold Kernel.procTrySend
  dsimp only
  cases k.findReceiver (k.procSet i).syscall.receiver with
  | none => trivial
  | some j =>
    dsimp only
    split
    · exact h
    split
    · exact h
    · have hmark := h.map fun _ hback => hback.setProc (i := j)
        (q := { k.procSet j with syscall := { (k.procSet j).syscall with
          status := .done, sender := (k.procSet i).pid,
          content := (k.procSet i).syscall.content } }) rfl rfl fun _ _ _ => hpid
      exact ((hmark.note _).mmuSwitch hpid).setSyscallArg hdecode hpid (h.page hi) _

theorem Backed.procTryRecv (h : Backed decode s₀ k)
    (hi : (k.procSet i).status = .pendingSyscall) (hrecv : (k.procSet i).syscall.type = .recv) :
    Backed decode s₀ (k.procTryRecv i) := by
  have hpid : (k.procSet i).pid ≠ 0 := h.ne_zero (by rw [hi]; decide)
  have hpage := h.page hi
  unfold Kernel.procTryRecv
  dsimp only
  split_ifs with hpending
  · exact h
  · have hsender := h.sender i hi hrecv hpending
    have hcopied := ((h.mmuSwitch hpid).setSyscallArg hdecode hpid hpage
      (k.procSet i).syscall).note (.copied (k.procSet i).syscall.sender (k.procSet i).pid
        (k.procSet i).syscall.content)
    have hreceiver := (hcopied.map fun _ hback =>
      hback.procSetStatus hpid .runnable (by decide)).note (.woken (k.procSet i).pid)
    have hwoken := (hreceiver.map fun _ hback =>
      hback.procSetStatus hsender .runnable (by decide)).note
        (.woken (k.procSet i).syscall.sender)
    exact (hwoken.mmuSwitch hpid).setSyscallArg hdecode hpid hpage _

theorem Backed.procTrySyscall (h : Backed decode s₀ k)
    (hi : (k.procSet i).status = .pendingSyscall) :
    Ends (k.procTrySyscall i) (Backed decode s₀) fun _ => True := by
  unfold Kernel.procTrySyscall
  split
  case h_1 hrecv => exact h.procTryRecv hdecode hi hrecv
  case h_2 => exact h.procTrySend hdecode hi
  case h_3 => trivial

theorem Backed.clearPendingSyscalls (h : Backed decode s₀ k) (passes : Nat) :
    Ends (k.clearPendingSyscalls passes) (Backed decode s₀) fun _ => True :=
  ends_clearPendingSyscalls (fun _ _ hk hi => hk.procTrySyscall hdecode hi) h passes

omit hdecode in
theorem Backed.yieldIn (h : Backed decode s₀ k) :
    Ends k.yieldIn (Backed decode s₀) fun _ => True := by
  rcases roundRobin_spec k with ⟨hlt, hready⟩ | hnot
  · have hloaded : Loaded k.procSet k.roundRobin := by
      constructor <;> rcases hready with hs | hs <;> rw [hs] <;> decide
    rw [yieldIn_eq h.table hlt hloaded, ends_ok]
    generalize k.roundRobin = i at hloaded
    refine (h.mmuSwitch (h.ne_zero hloaded.1)).map fun s hback => ?_
    have hrun := hback.update (i := i)
      (q := { Kernel.firstRun (k.procSet i) with status := .running })
      (h.table.update hloaded (firstRun_pid _)) (fun hq => ProcStatus.noConfusion hq)
      fun hq => ProcStatus.noConfusion hq
    exact hrun.procSet hrun.table hrun.sender hrun.page rfl rfl
  · have hge : ¬ k.roundRobin.val < maxNprocess := by
      rw [hnot, maxNprocess]
      decide
    rw [Kernel.yieldIn, if_pos hge]
    trivial

theorem Backed.procYield (h : Backed decode s₀ k) (passes : Nat) :
    Ends (k.procYield passes) (Backed decode s₀) fun _ => True := by
  have hout : Backed decode s₀ k.yieldOut := by
    unfold Kernel.yieldOut
    split_ifs with hrunning
    · have hpid : k.curr.pid ≠ 0 := h.ne_zero (i := k.currProcIdx) (by
        rw [Kernel.curr] at hrunning
        rw [hrunning]
        decide)
      exact h.map fun _ hback => hback.procSetStatus hpid .runnable (by decide)
    · exact h
  rw [Kernel.procYield, ends_bind]
  exact (hout.clearPendingSyscalls hdecode passes).mono (fun _ hk => hk.yieldIn) fun _ _ => trivial

theorem Backed.takeSyscall (h : Backed decode s₀ k) (hrunning : k.curr.status = .running)
    (hpage : HasPage s₀ k.curr.pid) : Ends k.takeSyscall (Backed decode s₀) fun _ => True := by
  have hloaded : Loaded k.procSet k.currProcIdx := by
    unfold Kernel.curr at hrunning
    constructor <;> rw [hrunning] <;> decide
  rw [takeSyscall_eq h.table hloaded]
  have hissue : Backed decode s₀ k.issueCall := by
    obtain ⟨s, hacc, hback⟩ := h.mmuSwitch (h.ne_zero hloaded.1)
    exact ⟨s, hacc, hback.update
      (q := { k.curr with
        syscall := { k.area k.curr.pid with status := .pending }
        status := .pendingSyscall
        mepc := k.curr.mepc + 4 })
      (h.table.update hloaded rfl) (fun _ _ hne => absurd rfl hne)
      fun _ => (hasPage_access hacc).mpr hpage⟩
  apply hissue.procTrySyscall hdecode
  have hself : k.issueCall.procSet k.currProcIdx = { k.curr with
      syscall := { k.area k.curr.pid with status := .pending }
      status := .pendingSyscall
      mepc := k.curr.mepc + 4 } := Function.update_self ..
  rw [hself]

theorem Backed.intrEntry (h : Backed decode s₀ k) (hrunning : k.curr.status = .running)
    (hpage : HasPage s₀ k.curr.pid) (passes : Nat) (id : UInt32) (key : Option UInt8) :
    Ends (Kernel.intrEntry passes id key k) (Backed decode s₀) fun _ => True := by
  unfold Kernel.intrEntry
  split
  · split
    · exact h.map fun _ hback => hback.setProc rfl rfl (hback.sender k.currProcIdx)
    · exact h.procYield hdecode passes
  split
  · rw [ends_bind]
    exact (h.takeSyscall hdecode hrunning hpage).mono (fun _ hk => hk.procYield hdecode passes)
      fun _ _ => trivial
  · trivial

theorem Backed.kernelEntry (h : Backed decode s₀ k) (hrunning : k.curr.status = .running)
    (hpage : HasPage s₀ k.curr.pid) (passes : Nat) (mcause : UInt32) (key : Option UInt8)
    (ctx : Context) :
    Ends (Kernel.kernelEntry passes mcause key ctx k) (fun r => Backed decode s₀ r.1)
      fun _ => True := by
  have hblank : Backed decode s₀ { k with actions := [] } :=
    h.map fun _ hback => hback.procSet hback.table hback.sender hback.page rfl rfl
  have htrapped : Backed decode s₀ (k.trapped ctx) :=
    hblank.map fun _ hback => hback.setProc rfl rfl (hback.sender k.currProcIdx)
  have hcurr : (k.trapped ctx).curr =
      { k.curr with mepc := ctx.mepc, savedRegisters := ctx.registers } := Function.update_self ..
  unfold Kernel.kernelEntry
  dsimp only
  split
  · rw [ends_bind]
    refine (htrapped.intrEntry hdecode ?_ ?_ passes _ key).mono (fun _ hk => hk) fun _ _ => trivial
    · rw [hcurr]
      exact hrunning
    · rw [hcurr]
      exact hpage
  · trivial

/-- Every entry of the kernel is made by switches and stores on the memory, and leaves it with
    what the kernel believes. The running process has a page at `SYSCALL_ARG`, as every process
    that `elf_load` has loaded. -/
theorem enters_backed (h : Backs decode s k) (hordered : Ordered k) (hpage : HasPage s k.curr.pid)
    {e : Entry μ} (he : Enters k e k') :
    ∃ s', Relation.ReflTransGen Access s s' ∧ s'.currVmPid = k'.currVmPid ∧ Backs decode s' k' := by
  have hstart : Backed decode s k := ⟨s, .refl, h⟩
  have hbacked : Backed decode s k' := by
    cases he with
    | @call c passes key ctx _ _ hentry =>
      -- the process stores its call before it traps
      have hcurr : k.currVmPid ≠ 0 := by
        rw [hordered.switched]
        exact h.ne_zero hordered.loaded.1
      have hrequest : Backed decode s (k.request c) := by
        have hpage' : HasPage s k.currVmPid := by
          rw [hordered.switched]
          exact hpage
        cases c <;> exact hstart.setSyscallArg hdecode hcurr hpage' _
      have hself : (k.request c).curr = k.curr := by
        unfold Kernel.curr
        rw [request_procSet, request_currProcIdx]
      exact (hrequest.kernelEntry hdecode (by rw [hself]; exact hordered.running)
        (by rw [hself]; exact hpage) passes _ key ctx).of_ok hentry
    | @tick passes key ctx _ _ hentry =>
      exact (hstart.kernelEntry hdecode hordered.running hpage passes _ key ctx).of_ok hentry
  obtain ⟨s', hacc, hback⟩ := hbacked
  exact ⟨s', hacc, hback.switched, hback⟩

/-- So whenever the kernel can be entered, the machine can make the step. -/
theorem step_of_enters {s : State μ π} (zero : π) (h : Backs decode s.tlb s.kernel)
    (hordered : Ordered s.kernel) (hpage : HasPage s.tlb s.kernel.curr.pid) {e : Entry μ}
    (he : Enters s.kernel e k')
    (hcall : s.task ≠ .idle → s.kernel.curr.pid = gpidProcess → e.call = none) :
    ∃ tlb', Step zero s (.entry e) { s with kernel := k', tlb := tlb' } ∧
      Backs decode tlb' k' := by
  obtain ⟨tlb', hacc, hvm, hback⟩ := enters_backed hdecode h hordered hpage he
  exact ⟨tlb', .entry he hcall hacc hvm, hback⟩

end Entry

end Egos.Machine
