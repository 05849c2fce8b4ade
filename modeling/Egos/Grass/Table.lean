import Egos.Grass.Code
import Egos.Lib.Ends
import Egos.Lib.Rendezvous

/-!
# The Grass Kernel: Process Table

The slots of `proc_set` as the kernel keeps them: a slot in use holds the pid that is its
own index. `Table.withStatus_eq` turns the searches by pid of `process.c` into
assignments to one slot, and `Table.findReceiver_eq` does the same for `proc_try_send`.

`waitingOf` reads the table as a state of the rendezvous machine: the unfinished call of
each process.
-/

namespace Egos.Grass

open Egos.Lib Egos.Lib.Rendezvous

variable {μ : Type}

/-! ## Assignments -/

namespace Kernel

variable (k : Kernel μ) (i j : Slot) (p : Process μ) (pid : Int) (sc : Syscall μ)

@[simp] theorem setProc_self : (k.setProc i p).procSet i = p := Function.update_self _ _ _

variable {i j} in
theorem setProc_of_ne (h : j ≠ i) : (k.setProc i p).procSet j = k.procSet j :=
  Function.update_of_ne h _ _

@[simp] theorem setProc_currProcIdx : (k.setProc i p).currProcIdx = k.currProcIdx := rfl

@[simp] theorem setProc_currVmPid : (k.setProc i p).currVmPid = k.currVmPid := rfl

@[simp] theorem setProc_area : (k.setProc i p).area = k.area := rfl

@[simp] theorem setProc_actions : (k.setProc i p).actions = k.actions := rfl

@[simp] theorem mmuSwitch_procSet : (k.mmuSwitch pid).procSet = k.procSet := rfl

@[simp] theorem setSyscallArg_procSet : (k.setSyscallArg sc).procSet = k.procSet := rfl

@[simp] theorem note_procSet (a : Action μ) : (k.note a).procSet = k.procSet := rfl

end Kernel

/-! ## Well-formed tables -/

/-- Slots in use hold their own index as pid; slot 0 is a place holder, and the last slot,
    which `proc_set_status` does not reach, never gets further than loading. -/
structure Table (t : Slot → Process μ) : Prop where
  pid : ∀ i, (t i).pid = 0 ∨ (t i).pid = i.val
  named : ∀ i, (t i).status ≠ .unused → (t i).pid = i.val
  zero : (t 0).status = .unused
  last : (t 16).status = .unused ∨ (t 16).status = .loading

/-- A slot whose process has been loaded. -/
def Loaded (t : Slot → Process μ) (i : Slot) : Prop :=
  (t i).status ≠ .unused ∧ (t i).status ≠ .loading

instance (t : Slot → Process μ) (i : Slot) : Decidable (Loaded t i) :=
  inferInstanceAs (Decidable (_ ∧ _))

section Tables

variable {t : Slot → Process μ} {k : Kernel μ} {i j : Slot}

theorem Table.ne_zero (h : Table t) (hi : (t i).status ≠ .unused) : i ≠ 0 := by
  rintro rfl
  exact hi h.zero

theorem Table.lt_of_loaded (h : Table t) (hi : Loaded t i) : i.val < 16 := by
  by_contra hge
  have hbound := i.isLt
  have hlast : i = 16 := Fin.ext (show i.val = 16 by omega)
  subst hlast
  rcases h.last with hs | hs
  · exact hi.1 hs
  · exact hi.2 hs

/-- Two slots with the same pid, one of them in use, are the same. -/
theorem Table.eq_of_pid (h : Table t) (hi : (t i).status ≠ .unused) (hpid : (t j).pid = (t i).pid) :
    j = i := by
  have hne := h.ne_zero hi
  have hi0 : i.val ≠ 0 := fun h0 => hne (Fin.ext h0)
  rw [h.named i hi] at hpid
  apply Fin.ext
  rcases h.pid j with hj | hj
  · omega
  · omega

/-- Only pid, system call and status matter for a table. -/
theorem Table.congr {t' : Slot → Process μ} (h : Table t)
    (hpid : ∀ i, (t' i).pid = (t i).pid) (hstatus : ∀ i, (t' i).status = (t i).status) :
    Table t' := by
  refine ⟨fun i => ?_, fun i hi => ?_, ?_, ?_⟩
  · rw [hpid]
    exact h.pid i
  · rw [hpid]
    rw [hstatus] at hi
    exact h.named i hi
  · rw [hstatus]
    exact h.zero
  · rw [hstatus]
    exact h.last

/-- Setting the status of a pid in use assigns to its slot. -/
theorem Table.withStatus_eq (h : Table t) (hi : (t i).status ≠ .unused) (hlt : i.val < 16)
    (status : ProcStatus) :
    Kernel.withStatus t (t i).pid status = Function.update t i { t i with status := status } := by
  funext j
  rw [Kernel.withStatus]
  by_cases hji : j = i
  · subst hji
    rw [Function.update_self, if_pos ⟨hlt, rfl⟩]
  · rw [Function.update_of_ne hji, if_neg]
    rintro ⟨_, hpid⟩
    exact hji (h.eq_of_pid hi hpid)

/-- A loaded slot may change in everything but its pid. -/
theorem Table.update (h : Table t) (hi : Loaded t i) {p : Process μ} (hpid : p.pid = (t i).pid) :
    Table (Function.update t i p) := by
  have hlt := h.lt_of_loaded hi
  have h0 := h.ne_zero hi.1
  have hlast : (16 : Slot) ≠ i := by
    rintro rfl
    exact absurd hlt (by decide)
  refine ⟨fun j => ?_, fun j hj => ?_, ?_, ?_⟩
  · rw [Function.update_apply]
    split_ifs with hji
    · rw [hpid, hji]
      exact h.pid i
    · exact h.pid j
  · rw [Function.update_apply] at hj ⊢
    split_ifs at hj ⊢ with hji
    · rw [hpid, hji]
      exact h.named i hi.1
    · exact h.named j hj
  · rw [Function.update_of_ne h0.symm]
    exact h.zero
  · rw [Function.update_of_ne hlast]
    exact h.last

/-! ## Finding a receiver -/

theorem mem_scanOrder : i ∈ Kernel.scanOrder ↔ i.val < 16 := by
  simp only [Kernel.scanOrder, List.mem_map, List.mem_finRange, true_and]
  constructor
  · rintro ⟨j, rfl⟩
    exact j.isLt
  · intro hlt
    exact ⟨⟨i.val, hlt⟩, rfl⟩

/-- `proc_try_send` finds the slot of a pid in use. -/
theorem Table.findReceiver_eq (h : Table k.procSet) (hi : (k.procSet i).status ≠ .unused)
    (hlt : i.val < 16) : k.findReceiver i.val = some i := by
  have hpid := h.named i hi
  cases hfind : k.findReceiver i.val with
  | none =>
    have hnone := List.find?_eq_none.mp hfind i (mem_scanOrder.mpr hlt)
    simp [hpid, hi] at hnone
  | some j =>
    have hj := List.find?_some hfind
    simp only [decide_eq_true_eq] at hj
    rw [h.eq_of_pid hi (hj.1.trans hpid.symm)]

/-- What `proc_try_send` finds is in use and has the pid. -/
theorem findReceiver_some {pid : Int} (hfind : k.findReceiver pid = some i) :
    i.val < 16 ∧ (k.procSet i).pid = pid ∧ (k.procSet i).status ≠ .unused := by
  have hmem := List.mem_of_find?_eq_some hfind
  have hi := List.find?_some hfind
  simp only [decide_eq_true_eq] at hi
  exact ⟨mem_scanOrder.mp hmem, hi⟩

/-! ## The unfinished calls -/

/-- The filter of `sys_recv`. -/
def accepts (source sender : Int) : Prop := source = gpidAll ∨ source = sender

/-- The call in a system call record. -/
def requestOf (sc : Syscall μ) : Option (Request Int Int μ) :=
  match sc.type with
  | .send => some (.send sc.receiver sc.content)
  | .recv => some (.recv sc.sender)
  | .other _ => none

/-- The slot with this index, if `proc_try_send` scans it. -/
def slotOf (pid : Int) : Option Slot := Kernel.scanOrder.find? fun i => (i.val : Int) = pid

/-- The unfinished call of a slot. -/
def pendingCall (p : Process μ) : Option (Request Int Int μ) :=
  if p.status = .pendingSyscall then requestOf p.syscall else none

/-- The unfinished call of each process. -/
def waitingOf (t : Slot → Process μ) : Waiting Int Int μ := fun pid =>
  (slotOf pid).bind fun i => pendingCall (t i)

theorem slotOf_val (hlt : i.val < 16) : slotOf i.val = some i := by
  cases hfind : slotOf i.val with
  | none =>
    have hnone := List.find?_eq_none.mp hfind i (mem_scanOrder.mpr hlt)
    simp at hnone
  | some j =>
    have hj := List.find?_some hfind
    simp only [decide_eq_true_eq] at hj
    rw [Fin.ext (Int.ofNat_inj.mp hj)]

theorem slotOf_some {pid : Int} (h : slotOf pid = some i) : i.val < 16 ∧ pid = i.val := by
  have hi := List.find?_some h
  simp only [decide_eq_true_eq] at hi
  exact ⟨mem_scanOrder.mp (List.mem_of_find?_eq_some h), hi.symm⟩

theorem waitingOf_val (hlt : i.val < 16) : waitingOf t i.val = pendingCall (t i) := by
  rw [waitingOf, slotOf_val hlt]
  rfl

/-- An unfinished call belongs to a pending slot. -/
theorem waitingOf_eq_some {pid : Int} {c : Request Int Int μ} (h : waitingOf t pid = some c) :
    ∃ i : Slot, i.val < 16 ∧ pid = i.val ∧ (t i).status = .pendingSyscall ∧
      requestOf (t i).syscall = some c := by
  rw [waitingOf, Option.bind_eq_some_iff] at h
  obtain ⟨i, hslot, hcall⟩ := h
  obtain ⟨hlt, hpid⟩ := slotOf_some hslot
  rw [pendingCall] at hcall
  split_ifs at hcall with hpending
  exact ⟨i, hlt, hpid, hpending, hcall⟩

/-- Assigning to one slot changes the call of one process. -/
theorem waitingOf_update (hlt : i.val < 16) (p : Process μ) :
    waitingOf (Function.update t i p) = Function.update (waitingOf t) i.val (pendingCall p) := by
  funext pid
  by_cases hpid : pid = i.val
  · rw [hpid, waitingOf_val hlt, Function.update_self, Function.update_self]
  · rw [Function.update_of_ne hpid, waitingOf, waitingOf]
    cases hslot : slotOf pid with
    | none => rfl
    | some j =>
      have hji : j ≠ i := by
        rintro rfl
        exact hpid (slotOf_some hslot).2
      simp only [Option.bind_some, Function.update_of_ne hji]

theorem waitingOf_congr {t' : Slot → Process μ} (hsyscall : ∀ i, (t' i).syscall = (t i).syscall)
    (hstatus : ∀ i, (t' i).status = (t i).status) : waitingOf t' = waitingOf t := by
  funext pid
  simp only [waitingOf, pendingCall, hsyscall, hstatus]

end Tables

end Egos.Grass
