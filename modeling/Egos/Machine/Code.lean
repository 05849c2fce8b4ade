import Mathlib.Logic.Relation
import Egos.Earth.Alloc
import Egos.Grass.Lifecycle

/-!
# The Machine: Process Management between Interrupts

The kernel of the Grass layer over the memory of the Earth layer, with `sys_proc` in the
middle of the functions it calls. These are plain function calls of a user process, and the
timer may interrupt them anywhere.

## Reading guide

- `Task` is where `sys_proc` is in `proc_free` (`grass/process.c`), in the loop of `mmu_free`
  below it (`soft_tlb_free`), or in `elf_load` (`library/elf/elf.c`) between `mmu_alloc` and
  `mmu_map`. `State.turn` is the code from there to the next place.
- `image` is a ghost: the pages that `elf_load` has mapped for a pid since it was allocated.
- `Step` are the steps of the machine. The kernel is entered from everywhere; the steps of
  process management are those of `sys_proc`, so they happen only while it is running.
-/

namespace Egos.Machine

open Egos.Grass Egos.Earth

variable {μ π : Type}

/-! ## State -/

/-- Which form of `proc_free` has called `mmu_free`. -/
inductive Target where
  /-- `proc_free(pid)`. -/
  | one
  /-- A turn of the loop of `proc_free(GPID_ALL)`, with the turns after it. -/
  | slot (i : Slot) (slots : List Slot)

/-- Where `sys_proc` is in the code of process management. -/
inductive Task where
  /-- Outside. -/
  | idle
  /-- In `elf_load`, with a page from `mmu_alloc` that is to be mapped. -/
  | allocated (i : PageId)
  /-- In `mmu_free(pid)`, with the turns of its loop that are left. -/
  | releasing (pid : Int) (pages : List PageId) (target : Target)
  /-- In `proc_free(GPID_ALL)`, with the turns of its loop that are left. -/
  | scanning (slots : List Slot)

/-- The kernel, the memory, and `sys_proc`. -/
structure State (μ π : Type) where
  kernel : Kernel μ
  tlb : Tlb π
  task : Task
  image : Int → List (PageId × Nat)

/-- `SYSCALL_ARG / PAGE_SIZE` -/
def syscallArgPage : Nat := 0x80301

namespace State

/-- `proc_free`, up to its first loop. -/
def procFree (s : State μ π) (pid : Int) : State μ π :=
  if pid ≠ gpidAll then { s with task := .releasing pid pageIds .one }
  else { s with task := .scanning Kernel.scanOrder }

/-- The next piece of `proc_free`. -/
def turn (s : State μ π) : State μ π :=
  match s.task with
  | .releasing pid (i :: pages) target =>
      { s with tlb := s.tlb.freePage pid i, task := .releasing pid pages target }
  | .releasing pid [] .one =>
      { s with kernel := s.kernel.procSetStatus pid .unused, task := .idle }
  | .releasing _ [] (.slot i slots) =>
      { s with
        kernel := s.kernel.setProc i { s.kernel.procSet i with status := .unused }
        task := .scanning slots }
  | .scanning (i :: slots) =>
      let p := s.kernel.procSet i
      if p.pid ≥ gpidUserStart ∧ p.status ≠ .unused then
        { s with task := .releasing p.pid pageIds (.slot i slots) }
      else { s with task := .scanning slots }
  | .scanning [] => { s with task := .idle }
  | .idle => s
  | .allocated _ => s

end State

/-! ## Steps -/

/-- How user code and the kernel use the memory: address spaces are switched and pages are
    written. -/
inductive Access (s : Tlb π) : Tlb π → Prop where
  | switch (pid : Int) : Access s (s.softTlbSwitch pid)
  | store (v : Nat) (content : π) : Access s (s.store v content)

/-- What happens in a step. -/
inductive Act (μ : Type) where
  | entry (e : Entry μ)
  | user
  | alloc (pid : Int)
  | mmuAlloc (i : PageId)
  | mmuMap (pid : Int) (v : Nat)
  | ready (pid : Int)
  | free (pid : Int)
  | turn

/-- The steps of the machine; `zero` is a page full of zeros. -/
inductive Step (zero : π) (s : State μ π) : Act μ → State μ π → Prop where
  /-- Within process management, `sys_proc` makes no system calls but may be interrupted. -/
  | entry {e : Entry μ} {k' : Kernel μ} {tlb' : Tlb π} (h : Enters s.kernel e k')
      (hcall : s.task ≠ .idle → s.kernel.curr.pid = gpidProcess → e.call = none)
      (hmem : Relation.ReflTransGen Access s.tlb tlb') (hvm : tlb'.currVmPid = k'.currVmPid) :
      Step zero s (.entry e) { s with kernel := k', tlb := tlb' }
  | user {tlb' : Tlb π} (hmem : Relation.ReflTransGen Access s.tlb tlb')
      (hvm : tlb'.currVmPid = s.tlb.currVmPid) : Step zero s .user { s with tlb := tlb' }
  | alloc {pid : Int} {k' : Kernel μ} (hproc : s.kernel.curr.pid = gpidProcess)
      (htask : s.task = .idle) (h : s.kernel.procAlloc = .ok (pid, k')) :
      Step zero s (.alloc pid) { s with kernel := k', image := Function.update s.image pid [] }
  | mmuAlloc {i : PageId} {tlb' : Tlb π} (hproc : s.kernel.curr.pid = gpidProcess)
      (htask : s.task = .idle) (h : s.tlb.mmuAlloc zero = .ok (i, tlb')) :
      Step zero s (.mmuAlloc i) { s with tlb := tlb', task := .allocated i }
  /-- The new page of a process that is being loaded; if it is the one at `SYSCALL_ARG`, the
      process gets a cleared system call record. -/
  | mmuMap {i : PageId} {pid : Int} (hproc : s.kernel.curr.pid = gpidProcess)
      (htask : s.task = .allocated i) (hloading : IsLoading s.kernel pid) (v : Nat)
      (cleared : Syscall μ) :
      Step zero s (.mmuMap pid v)
        { kernel := if v = syscallArgPage then s.kernel.elfLoad pid cleared else s.kernel
          tlb := s.tlb.softTlbMap pid v i
          task := .idle
          image := Function.update s.image pid ((i, v) :: s.image pid) }
  | ready {pid : Int} (hproc : s.kernel.curr.pid = gpidProcess) (htask : s.task = .idle)
      (hloading : IsLoading s.kernel pid) :
      Step zero s (.ready pid) { s with kernel := s.kernel.procSetReady pid }
  | free {pid : Int} (hproc : s.kernel.curr.pid = gpidProcess) (htask : s.task = .idle)
      (hother : pid ≠ gpidProcess) : Step zero s (.free pid) (s.procFree pid)
  | turn (hproc : s.kernel.curr.pid = gpidProcess) : Step zero s .turn s.turn

end Egos.Machine
