import Egos.Lib.Transition
import Mathlib.Algebra.BigOperators.Group.List.Basic
import Mathlib.Data.UInt
import Mathlib.Order.Interval.Set.LinearOrder

/-!
# Growing the Heap

`_sbrk` moves the end of the heap by an `int` and tests the new end against `__heap_end`. The
heap lies in the upper half of the 32-bit address space, so for sizes near `2 ^ 31` the sum
itself can wrap, and a wrapped sum passes the test.

`sbrk_inside_iff` draws the line: over every run of calls that return, the heap stays in its
region and the blocks handed out are apart exactly if the start of the heap and all sizes
requested add up to less than `2 ^ 32`.
-/

namespace Egos.Libc

open Egos.Lib

/-! ## Code -/

/-- The linker symbols `__heap_start` and `__heap_end`, somewhere in the RAM of an app. -/
structure Layout where
  heapStart : UInt32
  heapEnd : UInt32
  ram_le : 0x80000000 ≤ heapStart
  start_le : heapStart ≤ heapEnd
  end_le : heapEnd ≤ 0x80300000

/-- `_sbrk`: the old `brk` is returned, the new one is stored. The branch for a heap that grows
    too large prints this message and ends in a memory exception. -/
def sbrk (heapEnd brk : UInt32) (size : Int32) : Except String (UInt32 × UInt32) :=
  if brk + size.toUInt32 > heapEnd then .error "_sbrk: heap grows too large\n\r"
  else .ok (brk, brk + size.toUInt32)

/-! ## Runs -/

/-- A call that returned: the size asked for and the address returned. -/
structure Grant where
  size : Int32
  addr : UInt32
  deriving DecidableEq

/-- The number of bytes of a grant. -/
def Grant.len (g : Grant) : Nat := g.size.toInt.toNat

/-- The addresses `[addr, addr + size)`. -/
def Grant.region (g : Grant) : Set Nat := Set.Ico g.addr.toNat (g.addr.toNat + g.len)

/-- A call with a non-negative size that returns. -/
def SbrkStep (heapEnd brk : UInt32) (g : Grant) (brk' : UInt32) : Prop :=
  0 ≤ g.size ∧ sbrk heapEnd brk g.size = .ok (g.addr, brk')

/-- All bytes granted. -/
def totalLen (gs : List Grant) : Nat := (gs.map Grant.len).sum

/-- The heap has not left its region: neither its end nor any block, and no two blocks
    overlap. -/
def Inside (layout : Layout) (gs : List Grant) (brk : UInt32) : Prop :=
  (layout.heapStart ≤ brk ∧ brk ≤ layout.heapEnd) ∧
    (∀ g ∈ gs, g.region ⊆ Set.Ico layout.heapStart.toNat layout.heapEnd.toNat) ∧
    gs.Pairwise fun g g' => ∀ x ∈ g.region, x ∉ g'.region

@[simp] theorem totalLen_append (gs : List Grant) (g : Grant) :
    totalLen (gs ++ [g]) = totalLen gs + g.len := by
  simp [totalLen]

theorem toNat_toUInt32_of_nonneg {size : Int32} (h : 0 ≤ size) :
    size.toUInt32.toNat = size.toInt.toNat := by
  have hpos : 0 ≤ size.toInt := Int32.le_iff_toInt_le.mp h
  have hcond := BitVec.toInt_eq_toNat_cond size.toBitVec
  have hsame : size.toUInt32.toNat = size.toBitVec.toNat := rfl
  have hlt := size.toBitVec.isLt
  rw [Int32.toInt_toBitVec] at hcond
  split at hcond <;> omega

/-- One call, on numbers: it returns the old end, and the new end is the sum, if the sum does
    not wrap. -/
theorem SbrkStep.spec {heapEnd brk brk' : UInt32} {g : Grant} (h : SbrkStep heapEnd brk g brk') :
    g.addr = brk ∧ brk' ≤ heapEnd ∧ brk'.toNat = (brk.toNat + g.len) % 2 ^ 32 := by
  obtain ⟨hpos, hcall⟩ := h
  rw [sbrk] at hcall
  by_cases hlarge : brk + g.size.toUInt32 > heapEnd
  · rw [if_pos hlarge] at hcall
    exact absurd hcall (by simp)
  · rw [if_neg hlarge, Except.ok.injEq, Prod.mk.injEq] at hcall
    obtain ⟨haddr, rfl⟩ := hcall
    refine ⟨haddr.symm, UInt32.not_lt.mp hlarge, ?_⟩
    rw [UInt32.toNat_add, toNat_toUInt32_of_nonneg hpos]
    rfl

section Runs

variable {layout : Layout} {gs : List Grant} {brk : UInt32}

/-- As long as nothing wraps, `brk` is the start plus all that was granted, and each grant
    begins where the one before it ended. -/
theorem inside_of_sum_lt (hrun : Run (SbrkStep layout.heapEnd) layout.heapStart gs brk)
    (hsum : layout.heapStart.toNat + totalLen gs < 2 ^ 32) :
    (brk.toNat = layout.heapStart.toNat + totalLen gs ∧
      ∀ g ∈ gs, layout.heapStart.toNat ≤ g.addr.toNat ∧ g.addr.toNat + g.len ≤ brk.toNat) ∧
    brk ≤ layout.heapEnd ∧ gs.Pairwise fun g g' => ∀ x ∈ g.region, x ∉ g'.region := by
  induction hrun with
  | nil => simp [totalLen, layout.start_le]
  | @snoc gs g brk brk' _ hstep ih =>
    obtain ⟨haddr, hle, hnat⟩ := hstep.spec
    rw [totalLen_append] at hsum ⊢
    obtain ⟨⟨hbrk, hin⟩, -, hapart⟩ := ih (by omega)
    rw [Nat.mod_eq_of_lt (by omega)] at hnat
    refine ⟨⟨by omega, ?_⟩, hle, ?_⟩
    · intro g' hg'
      rcases List.mem_append.mp hg' with hold | hnew
      · have hg := hin g' hold
        omega
      · rw [List.mem_singleton.mp hnew, haddr]
        omega
    · rw [List.pairwise_append]
      refine ⟨hapart, List.pairwise_singleton _ _, ?_⟩
      intro g' hg' g'' hg'' x hx hx'
      -- an earlier block ends at or before `brk`, where the new one begins
      have hend := (hin g' hg').2
      rw [List.mem_singleton.mp hg'', Grant.region, haddr, Set.mem_Ico] at hx'
      rw [Grant.region, Set.mem_Ico] at hx
      omega

/-- Blocks inside the heap do not wrap, so they add up. -/
theorem brk_eq_of_inside (hrun : Run (SbrkStep layout.heapEnd) layout.heapStart gs brk)
    (hin : ∀ g ∈ gs, g.region ⊆ Set.Ico layout.heapStart.toNat layout.heapEnd.toNat) :
    brk.toNat = layout.heapStart.toNat + totalLen gs := by
  induction hrun with
  | nil => rfl
  | @snoc gs g brk brk' _ hstep ih =>
    obtain ⟨haddr, -, hnat⟩ := hstep.spec
    have hbrk := ih fun g' hg' => hin g' (List.mem_append_left _ hg')
    have hlt := brk.toNat_lt
    have hend := layout.heapEnd.toNat_lt
    have hlast := hin g (by simp)
    rw [totalLen_append]
    rcases Nat.eq_zero_or_pos g.len with hzero | hpos
    · omega
    · -- the last byte of the block is inside
      rw [Grant.region, haddr, Set.Ico_subset_Ico_iff (by omega)] at hlast
      omega

end Runs

/-- Over every run of calls with non-negative sizes that return, the heap stays inside its
    region exactly if the start of the heap and all sizes add up to less than `2 ^ 32`. -/
theorem sbrk_inside_iff (layout : Layout) (gs : List Grant) (brk : UInt32)
    (hrun : Run (SbrkStep layout.heapEnd) layout.heapStart gs brk) :
    Inside layout gs brk ↔ layout.heapStart.toNat + totalLen gs < 2 ^ 32 := by
  constructor
  · rintro ⟨-, hin, -⟩
    rw [← brk_eq_of_inside hrun hin]
    exact brk.toNat_lt
  · intro hsum
    obtain ⟨⟨hbrk, hin⟩, hle, hapart⟩ := inside_of_sum_lt hrun hsum
    refine ⟨⟨UInt32.le_iff_toNat_le.mpr (by omega), hle⟩, ?_, hapart⟩
    intro g hg
    obtain ⟨hfirst, hlast⟩ := hin g hg
    rw [UInt32.le_iff_toNat_le] at hle
    exact Set.Ico_subset_Ico hfirst (hlast.trans hle)

/-- A heap of the size the apps have. -/
def appLayout : Layout := ⟨0x80208000, 0x80300000, by decide, by decide, by decide⟩

theorem sbrk_inside_iff_page :
    Run (SbrkStep appLayout.heapEnd) appLayout.heapStart [⟨4096, 0x80208000⟩] 0x80209000 ∧
      Inside appLayout [⟨4096, 0x80208000⟩] 0x80209000 := by
  have hrun : Run (SbrkStep appLayout.heapEnd) appLayout.heapStart [⟨4096, 0x80208000⟩]
      0x80209000 := .snoc .nil ⟨by decide, by rfl⟩
  exact ⟨hrun, (sbrk_inside_iff appLayout _ _ hrun).mpr (by decide)⟩

/-- A request for `2 ^ 31 - 1` bytes wraps, returns, and leaves `brk` below the heap. -/
theorem sbrk_wraps :
    Run (SbrkStep appLayout.heapEnd) appLayout.heapStart [⟨0x7FFFFFFF, 0x80208000⟩] 0x207FFF ∧
      ¬ appLayout.heapStart ≤ 0x207FFF ∧
      ¬ Inside appLayout [⟨0x7FFFFFFF, 0x80208000⟩] 0x207FFF := by
  have hbelow : ¬ appLayout.heapStart ≤ 0x207FFF := by decide
  refine ⟨.snoc .nil ⟨by decide, by rfl⟩, hbelow, ?_⟩
  intro h
  exact hbelow h.1.1

end Egos.Libc
