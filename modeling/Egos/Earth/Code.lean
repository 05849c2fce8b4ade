import Mathlib.Algebra.Ring.Int.Defs
import Mathlib.Algebra.Ring.Nat
import Mathlib.Data.List.FinRange
import Egos.Lib.CopyLoop

/-!
# The Earth Layer: Memory Code

The software TLB (`earth/mem_soft_tlb.c`) and the bitmap of free pages
(`earth/mem_alloc.c`).

## Reading guide

- Memory is a map from page numbers to the contents `π` of a page, `char[PAGE_SIZE]`. All
  code here copies whole pages, so an address is written as its page number:
  `PAGE_NO_TO_ADDR(v)` is page `v`, and `PAGE_ID_TO_ADDR(i)` is page `pageOfId i`.
- `curr_vm_pid` is the static variable of `soft_tlb_switch`.
- The bitmap is the array of bytes of the source. `pmalloc` and `pfree` speak about a page
  by its index: the addresses they are given are always `PAGE_ID_TO_ADDR(i)`, which passes
  the assertions of `pgid_to_paddr` and `paddr_to_pgid`.
- The empty `PMEM_LOCK` and `PMEM_UNLOCK` are left out.
-/

namespace Egos.Earth

open Egos.Lib

/-- The index of a physical page, below `APPS_PAGES_CNT`. -/
abbrev PageId := Fin 1024

instance neZeroPages : NeZero 1024 := ⟨by decide⟩

/-- `APPS_PAGES_BASE / PAGE_SIZE` -/
def appsPagesBase : Nat := 0x80400

/-- `PAGE_ID_TO_ADDR` -/
def pageOfId (i : PageId) : Nat := appsPagesBase + i.val

/-- The turns `i = 0, …, APPS_PAGES_CNT - 1` of a loop. Irreducible: no conversion should run
    through them. -/
@[irreducible] def pageIds : List PageId := List.finRange 1024

theorem mem_pageIds (i : PageId) : i ∈ pageIds := by
  unfold pageIds
  exact List.mem_finRange i

theorem nodup_pageIds : pageIds.Nodup := by
  unfold pageIds
  exact List.nodup_finRange 1024

/-- `struct page` -/
@[ext]
structure PageInfo where
  pid : Int
  vpageNo : Nat
  deriving DecidableEq, Repr

/-- The state of the memory management. -/
structure Tlb (π : Type) where
  mem : Nat → π
  /-- `page_info_table` -/
  pageInfoTable : PageId → PageInfo
  /-- `curr_vm_pid` -/
  currVmPid : Int
  bitmap : Fin 128 → UInt8

variable {π : Type}

/-! ## The bitmap -/

/-- `i / 8` and `1 << (i % 8)` -/
def bitOf (i : PageId) : Fin 128 × UInt8 :=
  (⟨i.val / 8, by omega⟩, 1 <<< UInt8.ofNat (i.val % 8))

/-- `bitmap_test` -/
def bitmapTest (bitmap : Fin 128 → UInt8) (i : PageId) : UInt8 :=
  bitmap (bitOf i).1 &&& (bitOf i).2

/-- `bitmap_set` -/
def bitmapSet (bitmap : Fin 128 → UInt8) (i : PageId) : Fin 128 → UInt8 :=
  Function.update bitmap (bitOf i).1 (bitmap (bitOf i).1 ||| (bitOf i).2)

/-- `bitmap_clear` -/
def bitmapClear (bitmap : Fin 128 → UInt8) (i : PageId) : Fin 128 → UInt8 :=
  Function.update bitmap (bitOf i).1 (bitmap (bitOf i).1 &&& ~~~(bitOf i).2)

/-- The call of `FATAL` in `pmalloc`. -/
inductive Fatal where
  | noMorePage
  deriving DecidableEq, Repr

/-- What `FATAL` prints. -/
def Fatal.message : Fatal → String
  | .noMorePage => "pmalloc: no more available page"

namespace Tlb

/-- A store to the page `v`. -/
def store (s : Tlb π) (v : Nat) (content : π) : Tlb π :=
  { s with mem := Function.update s.mem v content }

/-- `pmalloc`; `zero` is a page full of zeros. -/
def pmalloc (s : Tlb π) (zero : π) (clearPage : Bool) : Except Fatal (PageId × Tlb π) :=
  match pageIds.find? fun i => bitmapTest s.bitmap i = 0 with
  | some i =>
    let s := { s with bitmap := bitmapSet s.bitmap i }
    .ok (i, if clearPage then s.store (pageOfId i) zero else s)
  | none => .error .noMorePage

/-- `mmu_alloc` -/
def mmuAlloc (s : Tlb π) (zero : π) : Except Fatal (PageId × Tlb π) := s.pmalloc zero true

/-- `pfree`, given the page by its index. -/
def pfree (s : Tlb π) (i : PageId) : Tlb π := { s with bitmap := bitmapClear s.bitmap i }

/-! ## The software TLB -/

/-- One turn of the loop of `soft_tlb_free`. -/
def freePage (pid : Int) (s : Tlb π) (i : PageId) : Tlb π :=
  if (s.pageInfoTable i).pid = pid then
    let s := { s with
      pageInfoTable := Function.update s.pageInfoTable i { s.pageInfoTable i with pid := 0 } }
    s.pfree i
  else s

/-- `soft_tlb_free` -/
def softTlbFree (s : Tlb π) (pid : Int) : Tlb π := pageIds.foldl (freePage pid) s

/-- `soft_tlb_map` -/
def softTlbMap (s : Tlb π) (pid : Int) (vpageNo : Nat) (ppageId : PageId) : Tlb π :=
  { s with pageInfoTable := Function.update s.pageInfoTable ppageId ⟨pid, vpageNo⟩ }

/-- The first loop of `soft_tlb_switch`: unmap `curr_vm_pid` from the user address space. -/
def unmapCurr (s : Tlb π) : Tlb π :=
  { s with
    mem := copyLoop (fun i => decide ((s.pageInfoTable i).pid = s.currVmPid)) pageOfId
      (fun i => (s.pageInfoTable i).vpageNo) pageIds s.mem }

/-- The second loop of `soft_tlb_switch`: map `pid` to the user address space. -/
def mapIn (s : Tlb π) (pid : Int) : Tlb π :=
  { s with
    mem := copyLoop (fun i => decide ((s.pageInfoTable i).pid = pid))
      (fun i => (s.pageInfoTable i).vpageNo) pageOfId pageIds s.mem }

/-- `soft_tlb_switch` -/
def softTlbSwitch (s : Tlb π) (pid : Int) : Tlb π :=
  if pid = s.currVmPid then s
  else { s.unmapCurr.mapIn pid with currVmPid := pid }

/-- `soft_tlb_translate` -/
def softTlbTranslate (s : Tlb π) (pid : Int) (vaddr : UInt32) : UInt32 × Tlb π :=
  (vaddr, s.softTlbSwitch pid)

end Tlb

end Egos.Earth
