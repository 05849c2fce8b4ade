import Mathlib.Algebra.Ring.Int.Defs
import Mathlib.Algebra.Ring.Nat
import Mathlib.Data.List.FinRange
import Mathlib.Logic.Function.Basic

/-!
# The Grass Kernel: Code

The process table (`grass/process.c`), message passing (`grass/ipc.c`), the scheduler
(`grass/scheduler.c`) and the trap handler (`grass/kernel.c`) of one core.

## Reading guide

- `proc_set` has `MAX_NPROCESS + 1` slots, indexed by `Slot`. The loops of the source run
  over different parts of it, and each keeps its own bounds here.
- The type `μ` of message contents stands for `char[SYSCALL_MSG_LEN]`.
- Every process has its own `struct syscall` at the address `SYSCALL_ARG`. `area` holds
  them by pid, and `currVmPid` says whose memory is switched in: after
  `mmu_translate(pid, SYSCALL_ARG)` that address means the area of `pid`.
- `FATAL` stops the machine, so a function that may reach it returns an `Except`.
- `actions` is a ghost: what the kernel did to the processes since its last entry. No
  function reads it.
- The scheduling attributes of a process and the callbacks that would fill them are empty
  in the source and left out.
-/

namespace Egos.Grass

/-! ## Data -/

/-- `enum proc_status` -/
inductive ProcStatus where
  | unused
  | loading
  | ready
  | running
  | runnable
  | pendingSyscall
  | sleeping
  deriving DecidableEq, Repr

/-- `enum syscall_type`; a record that was never filled holds neither of the two. -/
inductive SyscallType where
  | recv
  | send
  | other (value : Nat)
  deriving DecidableEq, Repr

/-- The field `status` of a system call; `unset` is any value but `PENDING` and `DONE`. -/
inductive SyscallStatus where
  | unset
  | pending
  | done
  deriving DecidableEq, Repr

/-- `struct syscall` -/
structure Syscall (μ : Type) where
  type : SyscallType
  sender : Int
  receiver : Int
  content : μ
  status : SyscallStatus
  deriving DecidableEq

/-- `struct process` -/
structure Process (μ : Type) where
  pid : Int
  syscall : Syscall μ
  status : ProcStatus
  mepc : UInt32
  savedRegisters : Fin 32 → UInt32

/-- `MAX_NPROCESS` -/
def maxNprocess : Nat := 16

/-- An index of `proc_set`. -/
abbrev Slot := Fin 17

/-- Literals are slots. -/
instance neZeroSlots : NeZero 17 := ⟨by decide⟩

/-- The registers that a trap saves have indices. -/
instance neZeroRegisters : NeZero 32 := ⟨by decide⟩

/-- `GPID_ALL` -/
def gpidAll : Int := -1

/-- `GPID_PROCESS` -/
def gpidProcess : Int := 1

/-- `GPID_TERMINAL` -/
def gpidTerminal : Int := 2

/-- `GPID_FILE` -/
def gpidFile : Int := 3

/-- `GPID_SHELL` -/
def gpidShell : Int := 4

/-- `GPID_USER_START` -/
def gpidUserStart : Int := 5

/-- `APPS_ARG` -/
def appsArg : UInt32 := 0x80300000

/-- `APPS_ENTRY` -/
def appsEntry : UInt32 := 0x80200000

/-- Ghost: something the kernel did to a process. -/
inductive Action (μ : Type) where
  /-- `proc_try_send` marked the receive of the process `receiver`, whose slot had the
      given status, as done. -/
  | marked (sender receiver : Int) (status : ProcStatus)
  /-- The message was copied into the user-space area of the receiver. -/
  | copied (sender receiver : Int) (content : μ)
  /-- `proc_try_recv` set the process to `PROC_RUNNABLE`. -/
  | woken (pid : Int)
  deriving DecidableEq

/-- The state of the kernel on one core. -/
structure Kernel (μ : Type) where
  procSet : Slot → Process μ
  /-- `curr_proc_idx` -/
  currProcIdx : Slot
  /-- `curr_vm_pid` of the soft TLB. -/
  currVmPid : Int
  area : Int → Syscall μ
  actions : List (Action μ)

/-- What a trap saves of the process: the register `mepc` and the frame on the stack. -/
structure Context where
  mepc : UInt32
  registers : Fin 32 → UInt32

/-- The calls of `FATAL`. -/
inductive Fatal where
  | unknownReceiver (pid : Int)
  | unknownSyscall (type : Nat)
  | noProcessToRun
  | processLimit
  | unknownInterrupt (id : UInt32)
  | exception (id : UInt32)
  deriving DecidableEq, Repr

/-- Why a function does not return: `FATAL`, or a loop that has not ended after the given
    number of turns. -/
inductive Stop where
  | fatal (reason : Fatal)
  | unfinished
  deriving DecidableEq, Repr

variable {μ : Type}

namespace Kernel

/-- `proc_set[curr_proc_idx]` -/
def curr (k : Kernel μ) : Process μ := k.procSet k.currProcIdx

/-- Assignment to `proc_set[i]`. -/
def setProc (k : Kernel μ) (i : Slot) (p : Process μ) : Kernel μ :=
  { k with procSet := Function.update k.procSet i p }

/-- Ghost: note an action. -/
def note (k : Kernel μ) (a : Action μ) : Kernel μ := { k with actions := k.actions ++ [a] }

/-! ## Memory of the processes -/

/-- `earth->mmu_switch(pid)`, and `earth->mmu_translate(pid, _)`, which switches as well. -/
def mmuSwitch (k : Kernel μ) (pid : Int) : Kernel μ := { k with currVmPid := pid }

/-- The `struct syscall` at `SYSCALL_ARG`. -/
def syscallArg (k : Kernel μ) : Syscall μ := k.area k.currVmPid

/-- A store to the `struct syscall` at `SYSCALL_ARG`. -/
def setSyscallArg (k : Kernel μ) (sc : Syscall μ) : Kernel μ :=
  { k with area := Function.update k.area k.currVmPid sc }

/-! ## Process management -/

/-- The loop of `proc_set_status`: every slot `i < MAX_NPROCESS` with this pid gets the
    status. -/
def withStatus (t : Slot → Process μ) (pid : Int) (status : ProcStatus) : Slot → Process μ :=
  fun i => if i.val < maxNprocess ∧ (t i).pid = pid then { t i with status := status } else t i

/-- `proc_set_status` -/
def procSetStatus (k : Kernel μ) (pid : Int) (status : ProcStatus) : Kernel μ :=
  { k with procSet := withStatus k.procSet pid status }

/-- `proc_set_ready` -/
def procSetReady (k : Kernel μ) (pid : Int) : Kernel μ := k.procSetStatus pid .ready

/-- `proc_set_running` -/
def procSetRunning (k : Kernel μ) (pid : Int) : Kernel μ := k.procSetStatus pid .running

/-- `proc_set_runnable` -/
def procSetRunnable (k : Kernel μ) (pid : Int) : Kernel μ := k.procSetStatus pid .runnable

/-- `proc_set_pending` -/
def procSetPending (k : Kernel μ) (pid : Int) : Kernel μ := k.procSetStatus pid .pendingSyscall

/-- The slots `1..MAX_NPROCESS`, in order. -/
def allocOrder : List Slot := (List.finRange 16).map Fin.succ

/-- `proc_alloc`: the new pid. -/
def procAlloc (k : Kernel μ) : Except Stop (Int × Kernel μ) :=
  match allocOrder.find? fun i => (k.procSet i).status = .unused with
  | some i => .ok (i.val, k.setProc i { k.procSet i with pid := i.val, status := .loading })
  | none => .error (.fatal .processLimit)

/-- `proc_free`, up to `mmu_free`, which releases the pages of the process. -/
def procFree (k : Kernel μ) (pid : Int) : Kernel μ :=
  if pid ≠ gpidAll then k.procSetStatus pid .unused
  else
    -- Free all user processes.
    { k with procSet := fun i =>
        if i.val < maxNprocess ∧ (k.procSet i).pid ≥ gpidUserStart ∧ (k.procSet i).status ≠ .unused
        then { k.procSet i with status := .unused } else k.procSet i }

/-! ## Message passing -/

/-- The slots `0..MAX_NPROCESS-1`, in order. -/
def scanOrder : List Slot := (List.finRange 16).map Fin.castSucc

/-- The loop of `proc_try_send`: the first slot in use with this pid. -/
def findReceiver (k : Kernel μ) (pid : Int) : Option Slot :=
  scanOrder.find? fun i => (k.procSet i).pid = pid ∧ (k.procSet i).status ≠ .unused

/-- `proc_try_send` -/
def procTrySend (k : Kernel μ) (sender : Slot) : Except Stop (Kernel μ) :=
  let src := k.procSet sender
  match k.findReceiver src.syscall.receiver with
  | none => .error (.fatal (.unknownReceiver src.syscall.receiver))
  | some i =>
    let dst := k.procSet i
    -- Return if dst is not receiving or not taking msg from sender.
    if ¬ (dst.syscall.type = .recv ∧ dst.syscall.status = .pending) then .ok k
    else if ¬ (dst.syscall.sender = gpidAll ∨ dst.syscall.sender = src.pid) then .ok k
    else
      let k := k.setProc i { dst with syscall :=
        { dst.syscall with status := .done, sender := src.pid, content := src.syscall.content } }
      let k := k.note (.marked src.pid dst.pid dst.status)
      -- Set sender status to DONE in user space.
      let k := k.mmuSwitch src.pid
      .ok (k.setSyscallArg { k.syscallArg with status := .done })

/-- `proc_try_recv` -/
def procTryRecv (k : Kernel μ) (receiver : Slot) : Kernel μ :=
  let dst := k.procSet receiver
  if dst.syscall.status = .pending then k
  else
    -- Copy the system call struct from the kernel back to user space.
    let k := k.mmuSwitch dst.pid
    let k := k.setSyscallArg dst.syscall
    let k := k.note (.copied dst.syscall.sender dst.pid dst.syscall.content)
    -- Set the receiver and sender back to RUNNABLE.
    let k := (k.procSetRunnable dst.pid).note (.woken dst.pid)
    let k := (k.procSetRunnable dst.syscall.sender).note (.woken dst.syscall.sender)
    -- Set receiver status to DONE in user space.
    let k := k.mmuSwitch dst.pid
    k.setSyscallArg { k.syscallArg with status := .done }

/-- `proc_try_syscall` -/
def procTrySyscall (k : Kernel μ) (proc : Slot) : Except Stop (Kernel μ) :=
  match (k.procSet proc).syscall.type with
  | .recv => .ok (k.procTryRecv proc)
  | .send => k.procTrySend proc
  | .other value => .error (.fatal (.unknownSyscall value))

/-! ## The scheduler -/

/-- `(curr_proc_idx + i) % MAX_NPROCESS` for `i` from 1 to `MAX_NPROCESS`. -/
def cyclicOrder (curr : Slot) : List Slot :=
  (List.range maxNprocess).map fun i => Fin.ofNat 17 ((curr.val + (i + 1)) % maxNprocess)

/-- `round_robin`: the next slot, `MAX_NPROCESS` if there is none. -/
def roundRobin (k : Kernel μ) : Slot :=
  ((cyclicOrder k.currProcIdx).find? fun i =>
    (k.procSet i).status = .ready ∨ (k.procSet i).status = .runnable).getD (Fin.ofNat 17 maxNprocess)

/-- One turn of the `for` loop of `clear_pending_syscalls`; the number counts progress. -/
def trySlot (kp : Kernel μ × Nat) (i : Slot) : Except Stop (Kernel μ × Nat) :=
  let (k, progress) := kp
  if (k.procSet i).status = .pendingSyscall then do
    let k ← k.procTrySyscall i
    -- making progress
    if (k.procSet i).syscall.status = .done then .ok (k, progress + 1) else .ok (k, progress)
  else .ok (k, progress)

/-- The `do`-`while` loop of `clear_pending_syscalls`, for up to the given number of
    passes. -/
def clearPendingSyscalls : Nat → Kernel μ → Except Stop (Kernel μ)
  | 0, _ => .error .unfinished
  | passes + 1, k => do
      let (k, progress) ← (cyclicOrder k.currProcIdx).foldlM trySlot (k, 0)
      -- stop when making no progress
      if progress ≠ 0 then clearPendingSyscalls passes k else .ok k

/-- `proc_yield` up to `clear_pending_syscalls`. -/
def yieldOut (k : Kernel μ) : Kernel μ :=
  if k.curr.status = .running then k.procSetRunnable k.curr.pid else k

/-- Setup argc, argv and program counter for a newly created process. -/
def firstRun (p : Process μ) : Process μ :=
  if p.status = .ready then
    { p with
      savedRegisters := Function.update (Function.update p.savedRegisters 0 appsArg) 1 (appsArg + 4)
      mepc := appsEntry }
  else p

/-- `proc_yield` from the scheduling decision on. -/
def yieldIn (k : Kernel μ) : Except Stop (Kernel μ) :=
  let nextIdx := k.roundRobin
  if ¬ nextIdx.val < maxNprocess then .error (.fatal .noProcessToRun)
  else
    let k := { k with currProcIdx := nextIdx }
    let k := k.mmuSwitch k.curr.pid
    let k := k.setProc k.currProcIdx (firstRun k.curr)
    .ok (k.procSetRunning k.curr.pid)

/-- `proc_yield`, with up to `passes` passes of its loop. -/
def procYield (passes : Nat) (k : Kernel μ) : Except Stop (Kernel μ) := do
  let k ← k.yieldOut.clearPendingSyscalls passes
  k.yieldIn

/-! ## Traps -/

/-- The part of `intr_entry` that takes a system call, up to `proc_yield`. -/
def takeSyscall (k : Kernel μ) : Except Stop (Kernel μ) :=
  -- Copy the system call arguments from user space to the kernel.
  let k := k.mmuSwitch k.curr.pid
  let k := k.setProc k.currProcIdx { k.curr with syscall := { k.syscallArg with status := .pending } }
  let k := k.procSetPending k.curr.pid
  let k := k.setProc k.currProcIdx { k.curr with mepc := k.curr.mepc + 4 }
  k.procTrySyscall k.currProcIdx

/-- `intr_entry`; `key` is the next character of the terminal, if there is one. -/
def intrEntry (passes : Nat) (id : UInt32) (key : Option UInt8) (k : Kernel μ) :
    Except Stop (Kernel μ) :=
  if id = 7 then
    -- user process killed by ctrl+c
    if k.curr.pid ≥ gpidUserStart ∧ key = some 0x03 then
      .ok (k.setProc k.currProcIdx { k.curr with mepc := appsEntry + 0xC })
    else k.procYield passes
  else if id = 3 then do
    let k ← k.takeSyscall
    k.procYield passes
  else .error (.fatal (.unknownInterrupt id))

/-- `excp_entry` -/
def excpEntry (id : UInt32) : Except Stop (Kernel μ) := .error (.fatal (.exception id))

/-- Save the process context. -/
def saveContext (k : Kernel μ) (c : Context) : Kernel μ :=
  k.setProc k.currProcIdx { k.curr with mepc := c.mepc, savedRegisters := c.registers }

/-- `kernel_entry` with the cause `mcause` and the context of the trapped process; returns
    the context to resume. -/
def kernelEntry (passes : Nat) (mcause : UInt32) (key : Option UInt8) (c : Context)
    (k : Kernel μ) : Except Stop (Kernel μ × Context) := do
  let k := { k with actions := [] }
  let k := k.saveContext c
  let k ←
    if mcause &&& 0x80000000 ≠ 0 then k.intrEntry passes (mcause &&& 0x3FF) key
    else excpEntry mcause
  -- Restore the process context.
  .ok (k, ⟨k.curr.mepc, k.curr.savedRegisters⟩)

/-! ## System calls of a process -/

/-- The stores of `sys_send`. -/
def sysSend (k : Kernel μ) (receiver : Int) (msg : μ) : Kernel μ :=
  k.setSyscallArg { k.syscallArg with
    type := .send, receiver := receiver, status := .pending, content := msg }

/-- The stores of `sys_recv`. -/
def sysRecv (k : Kernel μ) (source : Int) : Kernel μ :=
  k.setSyscallArg { k.syscallArg with type := .recv, sender := source, status := .pending }

end Kernel

end Egos.Grass
