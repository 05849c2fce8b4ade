import Egos.Lib.Budget
import Egos.Loader.Image

/-!
# The Loader: Room for a Process

`elf_load` takes a page from `mmu_alloc` for each page of its segments and four more, and
`mmu_alloc` stops the machine if no page is free. `elfLoad_spends` says that this is all that can
go wrong, for every file: the pages that `elf_load` needs can be counted from the headers alone.

Over sequences of calls of `elf_load` and `mmu_free`, the number of free pages follows from the
headers of the programs that were loaded and not freed (`load_outcome`).
-/

namespace Egos.Loader

open Egos.Lib Egos.Earth

variable {s s₀ s' : Tlb Page} {p : Int} {reader : UInt32 → Block} {stack : Nat → UInt8}
  {args : Args} {ph : ProgramHeader}

/-- The number of pages with a clear bit. -/
def freePages (s : Tlb Page) : Nat := (Finset.univ.filter fun i => bitAt s.bitmap i = false).card

/-- The number of pages that `elf_load` needs for a file. -/
def pagesNeeded (hbuf : Nat → UInt8) : Nat := ((segments hbuf).map pageCount).sum + 4

/-! ## Single pages -/

theorem mmuAlloc_spends (s : Tlb Page) :
    Spends (freePages s) 1 (s.mmuAlloc zeroPage) fun r => freePages r.2 := by
  unfold Spends
  cases halloc : s.mmuAlloc zeroPage with
  | ok r =>
    obtain ⟨hbit, hbitmap, _⟩ := pmalloc_ok halloc
    have herase : (Finset.univ.filter fun i => bitAt r.2.bitmap i = false) =
        (Finset.univ.filter fun i => bitAt s.bitmap i = false).erase r.1 := by
      ext i
      rw [hbitmap]
      simp only [Finset.mem_filter, Finset.mem_univ, true_and, Finset.mem_erase, bitAt_bitmapSet,
        Bool.or_eq_false_iff, decide_eq_false_iff_not]
    show freePages r.2 + 1 = freePages s
    rw [freePages, herase]
    exact Finset.card_erase_add_one (Finset.mem_filter.mpr ⟨Finset.mem_univ _, hbit⟩)
  | error e =>
    show freePages s < 1
    rw [Nat.lt_one_iff, freePages, Finset.card_eq_zero, Finset.filter_eq_empty_iff]
    intro i _ hbit
    unfold Tlb.mmuAlloc Tlb.pmalloc at halloc
    cases hfind : pageIds.find? fun i => decide (bitmapTest s.bitmap i = 0) with
    | none =>
      exact List.find?_eq_none.mp hfind i (mem_pageIds i)
        (decide_eq_true (bitmapTest_eq_zero.mpr hbit))
    | some j =>
      rw [hfind] at halloc
      cases halloc

theorem mapPage_spends (s : Tlb Page) (p : Int) (pageno : UInt32) :
    Spends (freePages s) 1 (mapPage s p pageno) fun r => freePages r.2 :=
  (mmuAlloc_spends s).bind_free fun _ => ⟨_, rfl, rfl⟩

theorem allocPage_spends (s : Tlb Page) (p : Int) (pageno : UInt32) :
    Spends (freePages s) 1 (allocPage s p pageno) fun r => freePages r.2 :=
  (mmuAlloc_spends s).bind_free fun _ => ⟨_, rfl, rfl⟩

/-! ## Segments -/

section Blocks

variable {filesz : UInt32} {c : Cursor}

/-- The pages that a turn of the loop over blocks takes. -/
def blockCost (off : UInt32) : Nat := if off % 4096 = 0 then 1 else 0

theorem nextPage_spends (c : Cursor) (p : Int) (off : UInt32) :
    Spends (freePages c.tlb) (blockCost off) (c.nextPage p off) fun c => freePages c.tlb := by
  unfold Cursor.nextPage blockCost
  split_ifs
  · exact (allocPage_spends c.tlb p c.currPageno).bind_free fun _ => ⟨_, rfl, rfl⟩
  · exact Nat.add_zero _

theorem loadBlock_spends (p : Int) (reader : UInt32 → Block) (filesz : UInt32) (c : Cursor)
    (off : UInt32) :
    Spends (freePages c.tlb) (blockCost off) (loadBlock p reader filesz c off)
      fun c => freePages c.tlb :=
  (nextPage_spends c p off).bind_free fun _ => ⟨_, rfl, rfl⟩

theorem sum_blockCost {n : Nat} (hn : 512 * n < filesz.toNat + 512) :
    (((List.range n).map fun j => UInt32.ofNat (512 * j)).map blockCost).sum = (n + 7) / 8 := by
  induction n with
  | zero => rfl
  | succ n ih =>
    rw [List.range_succ, List.map_append, List.map_append, List.sum_append, ih (by omega)]
    simp only [List.map_cons, List.map_nil, List.sum_cons, List.sum_nil, blockCost,
      off_mod_eq_zero_iff (show 512 * n < filesz.toNat by omega)]
    split_ifs <;> omega

theorem loadBlocks_spends (p : Int) (reader : UInt32 → Block) (filesz : UInt32) (c : Cursor) :
    Spends (freePages c.tlb) ((filesz.toNat + 4095) / 4096)
      ((offsets filesz).foldlM (loadBlock p reader filesz) c) fun c => freePages c.tlb := by
  have hsum := spends_foldlM (loadBlock_spends p reader filesz) (offsets filesz) c
  rw [offsets, sum_blockCost (show 512 * _ < filesz.toNat + 512 by omega)] at hsum
  rwa [show (filesz.toNat + 4095) / 4096 = ((filesz.toNat + 511) / 512 + 7) / 8 by omega]

/-- A page more is a page number more. -/
theorem nextPage_pageno (c : Cursor) (p : Int) (off : UInt32) :
    Ends (c.nextPage p off)
      (fun c' => c'.currPageno = c.currPageno + UInt32.ofNat (blockCost off)) fun _ => True := by
  unfold Cursor.nextPage blockCost
  split_ifs
  · exact (ends_bind _ _).mpr ((ends_true _).mono (fun _ _ => rfl) fun _ he => he)
  · exact (UInt32.add_zero _).symm

theorem loadBlocks_pageno (p : Int) (reader : UInt32 → Block) (s : Tlb Page)
    (vaddr block filesz : UInt32) :
    Ends ((offsets filesz).foldlM (loadBlock p reader filesz) ⟨s, vaddr / 4096, block, 0⟩)
      (fun c => c.currPageno.toNat = vaddr.toNat / 4096 + (filesz.toNat + 4095) / 4096)
      fun _ => True := by
  have hn : (filesz.toNat + 4095) / 4096 = ((filesz.toNat + 511) / 512 + 7) / 8 := by omega
  have hvaddr := vaddr.toNat_lt
  have hfilesz := filesz.toNat_lt
  unfold offsets
  rw [List.foldlM_map, hn]
  refine ends_foldlM_range
    (I := fun j (c : Cursor) => c.currPageno.toNat = vaddr.toNat / 4096 + (j + 7) / 8)
    (fun j hj c hc => ?_) (UInt32.toNat_div _ _)
  refine (ends_bind _ _).mpr ((nextPage_pageno c p _).mono (fun c' hc' => ?_) fun _ he => he)
  show c'.currPageno.toNat = _
  rw [hc', blockCost]
  simp only [off_mod_eq_zero_iff (show 512 * j < filesz.toNat by omega)]
  split_ifs with hnew
  · rw [UInt32.toNat_add, hc]
    show (vaddr.toNat / 4096 + (j + 7) / 8 + 1) % 2 ^ 32 = _
    omega
  · rw [UInt32.toNat_add, hc]
    show (vaddr.toNat / 4096 + (j + 7) / 8 + 0) % 2 ^ 32 = _
    omega

end Blocks

/-- The pages that the loader takes for a program header. -/
def headerCost (ph : ProgramHeader) : Nat := if ph.vaddr < ramStart then 0 else pageCount ph

theorem loadSegment_spends (p : Int) (reader : UInt32 → Block) (s : Tlb Page)
    (ph : ProgramHeader) :
    Spends (freePages s) (headerCost ph) (loadSegment p reader s ph) freePages := by
  unfold loadSegment headerCost
  split_ifs with hram
  · exact Nat.add_zero _
  · have hend : ((ph.vaddr + ph.memsz) / 4096).toNat = (ph.vaddr + ph.memsz).toNat / 4096 :=
      UInt32.toNat_div _ _
    have hcount : pageCount ph = (ph.filesz.toNat + 4095) / 4096 +
        ((ph.vaddr + ph.memsz).toNat / 4096 -
          (ph.vaddr.toNat / 4096 + (ph.filesz.toNat + 4095) / 4096)) := by
      rw [pageCount]
      omega
    have hblocks := loadBlocks_spends p reader ph.filesz ⟨s, ph.vaddr / 4096, ph.offset / 512, 0⟩
    rw [hcount]
    refine Spends.bind hblocks
      (loadBlocks_pageno p reader s ph.vaddr (ph.offset / 512) ph.filesz) fun c hc => ?_
    rw [hend, hc]
    exact spends_foldlM_one (fun s j => (allocPage_spends s p _).bind_free fun _ => ⟨_, rfl, rfl⟩)
      List.length_range c.tlb

/-! ## The whole process -/

theorem loadArgs_spends (p : Int) (args : Args) (s : Tlb Page) :
    Spends (freePages s) 4 (loadArgs p args s) freePages := by
  unfold loadArgs
  refine (mapPage_spends s p _).bind (m := 3) (ends_true _) fun r _ => ?_
  refine (mapPage_spends (r.2.store _ _) p _).bind (m := 2) (ends_true _) fun r₁ _ => ?_
  refine (mapPage_spends r₁.2 p _).bind (m := 1) (ends_true _) fun r₂ _ => ?_
  exact (mapPage_spends r₂.2 p _).bind_free fun _ => ⟨_, rfl, rfl⟩

theorem sum_headerCost (phs : List ProgramHeader) :
    (phs.map headerCost).sum =
      ((phs.filter fun ph => !decide (ph.vaddr < ramStart)).map pageCount).sum := by
  induction phs with
  | nil => rfl
  | cons ph phs ih =>
    rw [List.map_cons, List.sum_cons, ih, headerCost]
    by_cases hram : ph.vaddr < ramStart
    · rw [if_pos hram, List.filter_cons_of_neg (by simp [hram]), Nat.zero_add]
    · rw [if_neg hram, List.filter_cons_of_pos (by simp [hram]), List.map_cons, List.sum_cons]

/-- `elf_load` takes the pages that the headers ask for, or there are not enough. -/
theorem elfLoad_spends (p : Int) (reader : UInt32 → Block) (stack : Nat → UInt8) (args : Args)
    (s : Tlb Page) :
    Spends (freePages s) (pagesNeeded (headerBlock reader stack)) (elfLoad p reader stack args s)
      freePages := by
  unfold elfLoad
  rw [pagesNeeded, segments, ← sum_headerCost]
  exact (spends_foldlM (loadSegment_spends p reader) _ s).bind (ends_true _) fun s' _ =>
    loadArgs_spends p args s'

/-! ## Sequences of calls -/

/-- The programs that are loaded and not freed after the calls, with the pages they need. -/
def liveNeeds (calls : List Call) : List (Int × Nat) :=
  calls.foldl
    (fun needs call => match call with
      | .load pid reader stack _ => (pid, pagesNeeded (headerBlock reader stack)) :: needs
      | .free pid => needs.filter fun need => need.1 ≠ pid)
    []

/-- The pages that these programs need. -/
def pagesInUse (calls : List Call) : Nat := ((liveNeeds calls).map Prod.snd).sum

/-- The pages that a process needs. -/
def needOf (needs : List (Int × Nat)) (q : Int) : Nat :=
  ((needs.filter fun need => need.1 = q).map Prod.snd).sum

/-- The pages of a process, or the free ones for 0. -/
def owned (s : Tlb Page) (q : Int) : Finset PageId :=
  Finset.univ.filter fun i => (s.pageInfoTable i).pid = q

section Needs

variable {needs : List (Int × Nat)} {q : Int} {i : PageId}

theorem liveNeeds_load (calls : List Call) :
    liveNeeds (calls ++ [.load p reader stack args]) =
      (p, pagesNeeded (headerBlock reader stack)) :: liveNeeds calls := by
  rw [liveNeeds, List.foldl_append]
  rfl

theorem liveNeeds_free (calls : List Call) :
    liveNeeds (calls ++ [.free p]) = (liveNeeds calls).filter fun need => need.1 ≠ p := by
  rw [liveNeeds, List.foldl_append]
  rfl

theorem needOf_cons (n : Nat) :
    needOf ((p, n) :: needs) q = (if p = q then n else 0) + needOf needs q := by
  unfold needOf
  by_cases hpq : p = q
  · rw [if_pos hpq, List.filter_cons_of_pos (by simpa using hpq), List.map_cons, List.sum_cons]
  · rw [if_neg hpq, List.filter_cons_of_neg (by simpa using hpq), Nat.zero_add]

theorem needOf_filter :
    needOf (needs.filter fun need => need.1 ≠ p) q = if q = p then 0 else needOf needs q := by
  unfold needOf
  rw [List.filter_filter]
  split_ifs with hqp
  · rw [hqp, List.filter_eq_nil_iff.mpr fun need _ => by simp]
    rfl
  · congr 2
    refine List.filter_congr fun need _ => ?_
    by_cases hq : need.1 = q
    · simp [hq, hqp]
    · simp [hq]

theorem sum_filter_add (needs : List (Int × Nat)) (p : Int) :
    ((needs.filter fun need => need.1 ≠ p).map Prod.snd).sum + needOf needs p =
      (needs.map Prod.snd).sum := by
  induction needs with
  | nil => rfl
  | cons need needs ih =>
    rw [needOf_cons, List.map_cons, List.sum_cons, ← ih]
    by_cases hp : need.1 = p
    · rw [if_pos hp, List.filter_cons_of_neg (by simpa using hp)]
      omega
    · rw [if_neg hp, List.filter_cons_of_pos (by simpa using hp), List.map_cons, List.sum_cons]
      omega

theorem mem_owned : i ∈ owned s q ↔ (s.pageInfoTable i).pid = q := by
  rw [owned, Finset.mem_filter]
  exact and_iff_right (Finset.mem_univ i)

theorem Consistent.freePages_eq (h : Consistent s) : freePages s = (owned s 0).card := by
  refine congrArg Finset.card (Finset.filter_congr fun i _ => ?_)
  rw [← Bool.not_eq_true, h i, not_not]

theorem disjoint_owned (hp : p ≠ 0) : Disjoint (owned s 0) (owned s p) := by
  rw [Finset.disjoint_left]
  intro i hzero hown
  exact hp (mem_owned.mp hown ▸ mem_owned.mp hzero)

/-- A load takes its pages from the free ones. -/
theorem Loaded.owned_zero (h : Loaded p s s') (hp : p ≠ 0)
    (hnone : ∀ i, (s.pageInfoTable i).pid ≠ p) :
    (owned s' 0).card + (owned s' p).card = (owned s 0).card := by
  have hunion : owned s' 0 ∪ owned s' p = owned s 0 := by
    ext i
    rw [Finset.mem_union, mem_owned, mem_owned, mem_owned]
    have hne := hnone i
    rcases h.owner i with hsame | ⟨hzero, hown⟩
    · rw [hsame]
      simp [hne]
    · simp [hzero, hown]
  rw [← Finset.card_union_of_disjoint (disjoint_owned hp), hunion]

theorem Loaded.owned_of_ne (h : Loaded p s s') (hq : q ≠ 0) (hqp : q ≠ p) :
    owned s' q = owned s q := by
  ext i
  rw [mem_owned, mem_owned]
  rcases h.owner i with hsame | ⟨hzero, hown⟩
  · rw [hsame]
  · rw [hzero, hown]
    exact ⟨fun heq => absurd heq.symm hqp, fun heq => absurd heq.symm hq⟩

theorem owned_softTlbFree (hp : p ≠ 0) :
    owned (s.softTlbFree p) q =
      if q = p then ∅ else if q = 0 then owned s 0 ∪ owned s p else owned s q := by
  ext i
  rw [mem_owned, softTlbFree_pageInfoTable, PageInfo.release_pid]
  by_cases hi : (s.pageInfoTable i).pid = p
  · rw [if_pos hi]
    split_ifs with hqp hq
    · simp [hqp, hp.symm]
    · simp [hq, mem_owned, hi]
    · simp [mem_owned, hi, Ne.symm hq, Ne.symm hqp]
  · rw [if_neg hi]
    split_ifs with hqp hq
    · simp [hqp, hi]
    · simp [hq, mem_owned, hi]
    · simp [mem_owned]

end Needs

/-- The free pages and those of each process are as many as the calls ask for. -/
structure Counted (calls : List Call) (s : Tlb Page) : Prop where
  consistent : Consistent s
  free : freePages s + pagesInUse calls = 1024
  own : ∀ q ≠ 0, (owned s q).card = needOf (liveNeeds calls) q

theorem Empty.counted (h : Empty s) : Counted [] s := by
  refine ⟨h.consistent, ?_, fun q hq => ?_⟩
  · have hall : owned s 0 = Finset.univ := by
      ext i
      rw [mem_owned]
      exact iff_of_true (h.table i) (Finset.mem_univ i)
    rw [h.consistent.freePages_eq, hall, Finset.card_univ, Fintype.card_fin]
    rfl
  · rw [Finset.card_eq_zero.mpr]
    · rfl
    · rw [owned, Finset.filter_eq_empty_iff]
      intro i _ hi
      rw [h.table i] at hi
      exact hq hi.symm

theorem Counted.load {calls : List Call} (h : Counted calls s)
    (hnone : ∀ i, (s.pageInfoTable i).pid ≠ p)
    (hload : elfLoad p reader stack args s = .ok s') :
    Counted (calls ++ [.load p reader stack args]) s' := by
  have hp := h.consistent.pid_ne_zero hnone hload
  have hloaded := h.consistent.elfLoad hnone hload
  have hspent := (elfLoad_spends p reader stack args s).of_ok hload
  have hbefore : needOf (liveNeeds calls) p = 0 := by
    rw [← h.own p hp, Finset.card_eq_zero, owned, Finset.filter_eq_empty_iff]
    exact fun i _ => hnone i
  refine ⟨hloaded.consistent, ?_, fun q hq => ?_⟩
  · have hfree := h.free
    rw [pagesInUse] at hfree
    rw [pagesInUse, liveNeeds_load, List.map_cons, List.sum_cons]
    omega
  · rw [liveNeeds_load, needOf_cons]
    by_cases hpq : p = q
    · subst hpq
      have hzero := hloaded.owned_zero hp hnone
      rw [h.consistent.freePages_eq, hloaded.consistent.freePages_eq] at hspent
      rw [if_pos rfl, hbefore]
      omega
    · rw [if_neg hpq, hloaded.owned_of_ne hq (Ne.symm hpq), h.own q hq, Nat.zero_add]

theorem Counted.free_call {calls : List Call} (h : Counted calls s) (hp : p ≠ 0) :
    Counted (calls ++ [.free p]) (s.softTlbFree p) := by
  have hcons := h.consistent.softTlbFree p
  refine ⟨hcons, ?_, fun q hq => ?_⟩
  · have hfree := h.free
    have hsum := sum_filter_add (liveNeeds calls) p
    rw [h.consistent.freePages_eq, pagesInUse] at hfree
    rw [hcons.freePages_eq, owned_softTlbFree hp, if_neg hp.symm, if_pos rfl,
      Finset.card_union_of_disjoint (disjoint_owned hp), h.own p hp, pagesInUse, liveNeeds_free]
    omega
  · rw [liveNeeds_free, needOf_filter, owned_softTlbFree hp]
    split_ifs
    · rfl
    · exact h.own q hq

theorem counted_of_run {calls : List Call} (hempty : Empty s₀) (hrun : Run Completed s₀ calls s) :
    Counted calls s := by
  refine hrun.invariant_log (P := Counted) hempty.counted fun calls s call s' h hcall => ?_
  cases hcall with
  | load hnone hload => exact h.load hnone hload
  | free hpid => exact h.free_call hpid

/-- After every sequence of calls of `elf_load` and `mmu_free` that return, the number of free
    pages and the outcome of the next `elf_load` follow from the headers of the programs: it
    returns exactly if they all fit the 1024 pages, and otherwise stops the machine. -/
theorem load_outcome {calls : List Call} (hempty : Empty s₀) (hrun : Run Completed s₀ calls s) :
    freePages s + pagesInUse calls = 1024 ∧
    ∀ p reader stack args,
      (pagesInUse calls + pagesNeeded (headerBlock reader stack) ≤ 1024 →
        ∃ s', elfLoad p reader stack args s = .ok s') ∧
      (1024 < pagesInUse calls + pagesNeeded (headerBlock reader stack) →
        elfLoad p reader stack args s = .error .noMorePage) := by
  have hfree := (counted_of_run hempty hrun).free
  refine ⟨hfree, fun p reader stack args => ⟨fun hle => ?_, fun hlt => ?_⟩⟩
  · obtain ⟨s', hload, _⟩ := (elfLoad_spends p reader stack args s).exists_ok (by omega)
    exact ⟨s', hload⟩
  · obtain ⟨⟨⟩, hload⟩ := (elfLoad_spends p reader stack args s).exists_error (by omega)
    exact hload

/-- A program with one page of its own leaves 1019 pages. -/
theorem load_outcome_bss : ∃ s, Completed freeMemory
    (.load 3 bssProgram (fun _ => 0) ⟨0, none, by decide⟩) s ∧ freePages s = 1019 := by
  obtain ⟨s, hload⟩ := completed_bssProgram
  obtain ⟨hfree, _⟩ := load_outcome empty_freeMemory (.snoc .nil hload)
  have hneeded : pagesNeeded (headerBlock bssProgram fun _ => 0) = 5 := by decide +kernel
  have huse : pagesInUse ([] ++ [.load 3 bssProgram (fun _ => 0) ⟨0, none, by decide⟩]) =
      pagesNeeded (headerBlock bssProgram fun _ => 0) := rfl
  refine ⟨s, hload, ?_⟩
  rw [huse, hneeded] at hfree
  omega

end Egos.Loader
