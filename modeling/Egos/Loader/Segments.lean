import Mathlib.Data.Multiset.Bind
import Mathlib.Data.Fintype.Card
import Egos.Loader.Pages

/-!
# The Loader: The Pages of a Segment

The memory of a process is the collection of its pages, each with its number in the address
space and its content (`pagesOf`). A page number may occur twice there: the software TLB does
not exclude it. Mapping a page adds one element, writing to a page replaces one element.

- `Filling`: what the loop over the blocks of a segment has mapped after `j` turns.
- `loadSegment_pages`: the pages that a segment adds.
- `elfLoad_pages`: the pages of a process after `elf_load`.
-/

namespace Egos.Loader

open Egos.Lib Egos.Earth

variable {s s' : Tlb Page} {p : Int} {i : PageId} {v : Nat} {page : Page}

/-! ## The pages of a process -/

/-- The pages of a process, each with its page number and its content. -/
def pagesOf (s : Tlb Page) (p : Int) : Multiset (Nat × Page) :=
  (Finset.univ.filter fun i => (s.pageInfoTable i).pid = p).val.map
    fun i => ((s.pageInfoTable i).vpageNo, s.mem (pageOfId i))

theorem mem_pagesOf :
    (v, page) ∈ pagesOf s p ↔ ∃ i, s.pageInfoTable i = ⟨p, v⟩ ∧ s.mem (pageOfId i) = page := by
  unfold pagesOf
  simp only [Multiset.mem_map, Finset.mem_val, Finset.mem_filter, Finset.mem_univ, true_and,
    Prod.mk.injEq, PageInfo.ext_iff, and_assoc]

theorem card_pagesOf_le (s : Tlb Page) (p : Int) : (pagesOf s p).card ≤ 1024 := by
  unfold pagesOf
  rw [Multiset.card_map]
  exact (Finset.card_le_univ _).trans_eq (Fintype.card_fin 1024)

theorem pagesOf_eq_zero (hnone : ∀ i, (s.pageInfoTable i).pid ≠ p) : pagesOf s p = 0 := by
  refine Multiset.eq_zero_of_forall_notMem fun ⟨v, page⟩ hmem => ?_
  obtain ⟨i, hentry, _⟩ := mem_pagesOf.mp hmem
  exact hnone i (by rw [hentry])

/-- The pages other than `i` are the same in both states. -/
theorem map_erase_congr (hsame : ∀ j ≠ i, SamePage s s' j) (is : Finset PageId) :
    (is.erase i).val.map (fun j => ((s'.pageInfoTable j).vpageNo, s'.mem (pageOfId j))) =
      (is.erase i).val.map fun j => ((s.pageInfoTable j).vpageNo, s.mem (pageOfId j)) := by
  refine Multiset.map_congr rfl fun j hj => ?_
  have h := hsame j (Finset.ne_of_mem_erase hj)
  rw [h.entry, h.content]

/-- The pages of a process, with one of them set apart. -/
theorem pagesOf_eq_cons (hi : (s.pageInfoTable i).pid = p) :
    pagesOf s p = ((s.pageInfoTable i).vpageNo, s.mem (pageOfId i)) ::ₘ
      ((Finset.univ.filter fun j => (s.pageInfoTable j).pid = p).erase i).val.map
        fun j => ((s.pageInfoTable j).vpageNo, s.mem (pageOfId j)) := by
  have hmem : i ∈ Finset.univ.filter fun j => (s.pageInfoTable j).pid = p :=
    Finset.mem_filter.mpr ⟨Finset.mem_univ i, hi⟩
  unfold pagesOf
  rw [← Multiset.map_cons (fun j => ((s.pageInfoTable j).vpageNo, s.mem (pageOfId j))),
    Finset.erase_val, Multiset.cons_erase hmem]

/-- A page that is mapped is one page more, full of zeros. -/
theorem pagesOf_map (h : Consistent s) (hp : p ≠ 0) (halloc : s.mmuAlloc zeroPage = .ok (i, s')) :
    pagesOf (s'.softTlbMap p v i) p = (v, zeroPage) ::ₘ pagesOf s p := by
  have hfree : (s.pageInfoTable i).pid = 0 := h.reserved.pmalloc_free halloc
  have hsame : ∀ j ≠ i, SamePage s (s'.softTlbMap p v i) j := fun j hj => samePage_map halloc hj
  -- before, the page was not one of the process
  have hpages : (Finset.univ.filter fun j =>
      ((s'.softTlbMap p v i).pageInfoTable j).pid = p).erase i =
      (Finset.univ.filter fun j => (s.pageInfoTable j).pid = p).erase i := by
    ext j
    simp only [Finset.mem_erase, Finset.mem_filter, Finset.mem_univ, true_and]
    refine and_congr_right fun hj => ?_
    rw [(hsame j hj).entry]
  have hnot : i ∉ Finset.univ.filter fun j => (s.pageInfoTable j).pid = p := by
    rw [Finset.mem_filter, hfree]
    exact fun hi => hp hi.2.symm
  have hmem : (s'.softTlbMap p v i).mem (pageOfId i) = zeroPage := by
    show s'.mem (pageOfId i) = zeroPage
    rw [pmalloc_mem halloc, Function.update_self]
  rw [pagesOf_eq_cons (softTlbMap_owner s' p v i), hpages, map_erase_congr hsame,
    Finset.erase_eq_of_notMem hnot, softTlbMap_pageInfoTable_self, hmem]
  rfl

/-- A write to a page exchanges its content. -/
theorem pagesOf_store {rest : Multiset (Nat × Page)} (hi : s.pageInfoTable i = ⟨p, v⟩)
    (h : pagesOf s p = rest + {(v, s.mem (pageOfId i))}) :
    pagesOf (s.store (pageOfId i) page) p = rest + {(v, page)} := by
  have howner : (s.pageInfoTable i).pid = p := by rw [hi]
  have hsame : ∀ j ≠ i, SamePage s (s.store (pageOfId i) page) j := fun j hj => samePage_store hj
  have hentry : (s.store (pageOfId i) page).pageInfoTable i = ⟨p, v⟩ := hi
  have hmem : (s.store (pageOfId i) page).mem (pageOfId i) = page := Function.update_self ..
  -- both collections are the other pages and this one
  rw [pagesOf_eq_cons howner, hi, ← Multiset.singleton_add, add_comm] at h
  rw [pagesOf_eq_cons (show ((s.store (pageOfId i) page).pageInfoTable i).pid = p from howner),
    map_erase_congr hsame, hentry, hmem, ← Multiset.singleton_add, add_comm]
  exact congrArg (· + {(v, page)}) (add_right_cancel h)

/-- `mmu_alloc` and `mmu_map` -/
theorem mapPage_pages (h : Consistent s) (hp : p ≠ 0) (pageno : UInt32) :
    Ends (mapPage s p pageno)
      (fun r => Consistent r.2 ∧ pagesOf r.2 p = pagesOf s p + {(pageno.toNat, zeroPage)} ∧
        r.2.pageInfoTable r.1 = ⟨p, pageno.toNat⟩ ∧ r.2.mem (pageOfId r.1) = zeroPage)
      fun _ => True := by
  have hpages : Ends (mapPage s p pageno)
      (fun r => Consistent r.2 ∧ pagesOf r.2 p = pagesOf s p + {(pageno.toNat, zeroPage)})
      fun _ => True := by
    unfold mapPage
    rw [ends_bind]
    cases halloc : s.mmuAlloc zeroPage with
    | error e => trivial
    | ok r =>
      refine ⟨h.map hp halloc, ?_⟩
      rw [pagesOf_map h hp halloc, ← Multiset.singleton_add, add_comm]
  refine (hpages.and (mapPage_fresh s p pageno)).mono (fun r hr => ?_) fun _ he => he
  obtain ⟨⟨hcons, hadded⟩, hentry, _, hmem⟩ := hr
  exact ⟨hcons, hadded, hentry, hmem⟩

/-- `mmu_alloc`, `mmu_map` and `memset`: the page is full of zeros already. -/
theorem allocPage_pages (h : Consistent s) (hp : p ≠ 0) (pageno : UInt32) :
    Ends (allocPage s p pageno)
      (fun r => Consistent r.2 ∧ pagesOf r.2 p = pagesOf s p + {(pageno.toNat, zeroPage)} ∧
        r.2.pageInfoTable r.1 = ⟨p, pageno.toNat⟩ ∧ r.2.mem (pageOfId r.1) = zeroPage)
      fun _ => True := by
  have heq : allocPage s p pageno =
      mapPage s p pageno >>= fun r => .ok (r.1, r.2.store (pageOfId r.1) zeroPage) := by
    unfold allocPage mapPage
    cases s.mmuAlloc zeroPage <;> rfl
  rw [heq, ends_bind]
  refine (mapPage_pages h hp pageno).mono (fun r hr => ?_) fun _ he => he
  obtain ⟨hcons, hpages, hentry, hmem⟩ := hr
  refine ⟨hcons, pagesOf_store hentry ?_, hentry, Function.update_self ..⟩
  rw [hpages, hmem]

/-! ## The pages of a file -/

/-- The byte `n` of the file. -/
def fileByte (reader : UInt32 → Block) (n : Nat) : UInt8 :=
  reader (UInt32.ofNat (n / 512)) ⟨n % 512, Nat.mod_lt n (by decide)⟩

/-- The page `m` of a segment of which the first `size` bytes are there. The loader reads whole
    blocks, from the one with the first byte of the segment on. -/
def filePage (reader : UInt32 → Block) (ph : ProgramHeader) (size m : Nat) : Page := fun b =>
  if 4096 * m + b.val < size then
    fileByte reader (512 * (ph.offset.toNat / 512) + (4096 * m + b.val))
  else 0

/-- The first `n` pages of a segment of which the first `size` bytes are there. -/
def filePages (reader : UInt32 → Block) (ph : ProgramHeader) (size n : Nat) :
    Multiset (Nat × Page) :=
  (Multiset.range n).map fun m => (ph.vaddr.toNat / 4096 + m, filePage reader ph size m)

section FilePages

variable {reader : UInt32 → Block} {ph : ProgramHeader} {size n m : Nat}

theorem filePage_eq_zeroPage (h : size ≤ 4096 * m) : filePage reader ph size m = zeroPage := by
  funext b
  exact if_neg (by omega)

theorem filePages_zero : filePages reader ph size 0 = 0 := rfl

theorem filePages_succ : filePages reader ph size (n + 1) =
    filePages reader ph size n + {(ph.vaddr.toNat / 4096 + n, filePage reader ph size n)} := by
  unfold filePages
  rw [Multiset.range_succ, Multiset.map_cons, ← Multiset.singleton_add, add_comm]

/-- Pages that are complete do not change any more. -/
theorem filePages_congr {size' : Nat} (hn : 4096 * n ≤ size) (hsize : size ≤ size') :
    filePages reader ph size n = filePages reader ph size' n := by
  refine Multiset.map_congr rfl fun m hm => ?_
  have hmn := Multiset.mem_range.mp hm
  have hpage : filePage reader ph size m = filePage reader ph size' m := by
    funext b
    unfold filePage
    rw [if_pos (by omega), if_pos (by omega)]
  rw [hpage]

theorem card_filePages : (filePages reader ph size n).card = n := by
  rw [filePages, Multiset.card_map, Multiset.card_range]

/-- The block `j` of a segment goes into the page `j / 8`. -/
theorem memcpy_filePage {buf : Nat → UInt8} {j k : Nat} (hk : k ≤ 512)
    (hbuf : ∀ x < k, buf x = fileByte reader (512 * (ph.offset.toNat / 512) + (512 * j + x))) :
    (filePage reader ph (512 * j) (j / 8)).memcpy (512 * j % 4096) buf k =
      filePage reader ph (512 * j + k) (j / 8) := by
  funext b
  unfold Page.memcpy filePage
  -- a byte of the block, a byte of an earlier block, or a byte behind both
  by_cases hin : 512 * j % 4096 ≤ b.val ∧ b.val < 512 * j % 4096 + k
  · rw [if_pos hin, if_pos (by omega), hbuf _ (by omega)]
    congr 2
    omega
  · rw [if_neg hin]
    by_cases hbefore : 4096 * (j / 8) + b.val < 512 * j
    · rw [if_pos hbefore, if_pos (by omega)]
    · rw [if_neg hbefore, if_neg (by omega)]

end FilePages

/-! ## The loop over blocks -/

section Blocks

variable {reader : UInt32 → Block} {ph : ProgramHeader} {base : Multiset (Nat × Page)}
  {c : Cursor} {j n : Nat}

/-- The loop over the blocks has loaded `j` blocks into `n` pages, and `base` was there before. -/
structure Filling (p : Int) (reader : UInt32 → Block) (ph : ProgramHeader)
    (base : Multiset (Nat × Page)) (j n : Nat) (c : Cursor) : Prop where
  consistent : Consistent c.tlb
  pages : pagesOf c.tlb p = base + filePages reader ph (min (512 * j) ph.filesz.toNat) n
  pageno : c.currPageno.toNat = ph.vaddr.toNat / 4096 + n
  blockno : c.currBlockno.toNat = ph.offset.toNat / 512 + j
  /-- `ppage_id` is the last page. -/
  current : ∀ m, n = m + 1 →
    c.tlb.pageInfoTable c.ppageId = ⟨p, ph.vaddr.toNat / 4096 + m⟩ ∧
    c.tlb.mem (pageOfId c.ppageId) = filePage reader ph (min (512 * j) ph.filesz.toNat) m

/-- There are 1024 pages, so the counters do not overflow. -/
theorem Filling.le (h : Filling p reader ph base j n c) : n ≤ 1024 := by
  have hcard := card_pagesOf_le c.tlb p
  rw [h.pages, Multiset.card_add, card_filePages] at hcard
  omega

theorem toNat_off {filesz : UInt32} (hj : 512 * j < filesz.toNat) :
    (UInt32.ofNat (512 * j)).toNat = 512 * j := by
  have := filesz.toNat_lt
  rw [UInt32.toNat_ofNat', Nat.mod_eq_of_lt (by omega)]

theorem toNat_off_mod {filesz : UInt32} (hj : 512 * j < filesz.toNat) :
    (UInt32.ofNat (512 * j) % 4096).toNat = 512 * j % 4096 := by
  rw [UInt32.toNat_mod, toNat_off hj]
  rfl

/-- Eight blocks are a page. -/
theorem off_mod_eq_zero_iff {filesz : UInt32} (hj : 512 * j < filesz.toNat) :
    UInt32.ofNat (512 * j) % 4096 = 0 ↔ j % 8 = 0 := by
  rw [← UInt32.toNat_inj, toNat_off_mod hj, show (0 : UInt32).toNat = 0 from rfl]
  omega

theorem toNat_add_one {a : UInt32} (h : a.toNat + 1 < 2 ^ 32) : (a + 1).toNat = a.toNat + 1 := by
  rw [UInt32.toNat_add, show (1 : UInt32).toNat = 1 from rfl, Nat.mod_eq_of_lt h]

/-- There is a page for the block `j`. -/
theorem nextPage_filling (hp : p ≠ 0) (hj : 512 * j < ph.filesz.toNat)
    (h : Filling p reader ph base j ((j + 7) / 8) c) :
    Ends (c.nextPage p (UInt32.ofNat (512 * j))) (Filling p reader ph base j (j / 8 + 1))
      fun _ => True := by
  have hoff := off_mod_eq_zero_iff hj
  unfold Cursor.nextPage
  split_ifs with hnew
  · -- the pages before are full, and the new one is empty
    have hn : (j + 7) / 8 = j / 8 := by have := hoff.mp hnew; omega
    have hempty : filePage reader ph (min (512 * j) ph.filesz.toNat) (j / 8) = zeroPage :=
      filePage_eq_zeroPage (by have := hoff.mp hnew; omega)
    rw [hn] at h
    refine (ends_bind _ _).mpr (Ends.mono (allocPage_pages h.consistent hp _) ?_ fun _ he => he)
    rintro r ⟨hcons, hpages, hentry, hmem⟩
    rw [h.pageno] at hpages hentry
    have hlt := ph.vaddr.toNat_lt
    have hle := h.le
    refine ⟨hcons, ?_, ?_, h.blockno, fun m hm => ?_⟩
    · rw [filePages_succ, hempty, ← add_assoc, ← h.pages]
      exact hpages
    · have hpageno := h.pageno
      rw [toNat_add_one (by omega), hpageno]
      rfl
    · obtain rfl : j / 8 = m := Nat.succ.inj hm
      rw [hempty]
      exact ⟨hentry, hmem⟩
  · -- the block goes into the page of the block before
    have hn : (j + 7) / 8 = j / 8 + 1 := by
      have := mt hoff.mpr hnew
      omega
    rw [← hn]
    exact h

/-- `size` -/
theorem toNat_size (hj : 512 * j < ph.filesz.toNat) (hle : j / 8 + 1 ≤ 1024) :
    (if UInt32.ofNat (512 * j) + 512 < ph.filesz then 512
      else ph.filesz - UInt32.ofNat (512 * j) : UInt32).toNat =
      min 512 (ph.filesz.toNat - 512 * j) := by
  have hoff := toNat_off hj
  have hnext : (UInt32.ofNat (512 * j) + 512).toNat = 512 * j + 512 := by
    rw [UInt32.toNat_add, hoff, show (512 : UInt32).toNat = 512 from rfl,
      Nat.mod_eq_of_lt (by omega)]
  split_ifs with hlast
  · rw [UInt32.lt_iff_toNat_lt, hnext] at hlast
    show 512 = _
    omega
  · rw [UInt32.lt_iff_toNat_lt, hnext] at hlast
    rw [UInt32.toNat_sub_of_le _ _ (UInt32.le_iff_toNat_le.mpr (by omega)), hoff]
    omega

/-- One turn of the loop. -/
theorem loadBlock_filling (hp : p ≠ 0) (hj : 512 * j < ph.filesz.toNat)
    (h : Filling p reader ph base j ((j + 7) / 8) c) :
    Ends (loadBlock p reader ph.filesz c (UInt32.ofNat (512 * j)))
      (Filling p reader ph base (j + 1) ((j + 1 + 7) / 8)) fun _ => True := by
  unfold loadBlock
  refine (ends_bind _ _).mpr (Ends.mono (nextPage_filling hp hj h) (fun c h => ?_) fun _ he => he)
  obtain ⟨hentry, hmem⟩ := h.current (j / 8) rfl
  have hblockno := h.blockno
  have hoffset := ph.offset.toNat_lt
  have hle := h.le
  have hbefore : min (512 * j) ph.filesz.toNat = 512 * j := Nat.min_eq_left hj.le
  have hafter : 512 * j + min 512 (ph.filesz.toNat - 512 * j) =
      min (512 * (j + 1)) ph.filesz.toNat := by omega
  have hn : (j + 1 + 7) / 8 = j / 8 + 1 := by omega
  have hblock : c.currBlockno = UInt32.ofNat (ph.offset.toNat / 512 + j) := by
    rw [← hblockno, UInt32.ofNat_toNat]
  -- what the page is after the turn
  have hcopy : (c.tlb.mem (pageOfId c.ppageId)).memcpy (512 * j % 4096)
      (fun x => if h : x < 512 then reader c.currBlockno ⟨x, h⟩ else 0)
      (min 512 (ph.filesz.toNat - 512 * j)) =
      filePage reader ph (min (512 * (j + 1)) ph.filesz.toNat) (j / 8) := by
    rw [hmem, hbefore, ← hafter]
    refine memcpy_filePage (by omega) fun x hx => ?_
    have hx : x < 512 := by omega
    rw [dif_pos hx, hblock, fileByte]
    congr 1
    · congr 1
      omega
    · have hmod : x = (512 * (ph.offset.toNat / 512) + (512 * j + x)) % 512 := by omega
      exact Fin.ext hmod
  rw [hn]
  simp only [ends_ok]
  rw [toNat_off_mod hj, toNat_size hj hle, hcopy]
  refine ⟨h.consistent, ?_, h.pageno, ?_, fun m hm => ?_⟩
  · -- the pages before are complete, so one more block changes the last page only
    have hrest : pagesOf c.tlb p =
        base + filePages reader ph (min (512 * (j + 1)) ph.filesz.toNat) (j / 8) +
          {(ph.vaddr.toNat / 4096 + j / 8, c.tlb.mem (pageOfId c.ppageId))} := by
      rw [h.pages, filePages_succ, ← hmem, filePages_congr (by omega)
        (show min (512 * j) ph.filesz.toNat ≤ min (512 * (j + 1)) ph.filesz.toNat by omega),
        add_assoc]
    rw [filePages_succ, ← add_assoc]
    exact pagesOf_store hentry hrest
  · show (c.currBlockno + 1).toNat = _
    rw [toNat_add_one (by omega), hblockno]
    rfl
  · obtain rfl : j / 8 = m := Nat.succ.inj hm
    exact ⟨hentry, Function.update_self ..⟩

/-- The whole loop. -/
theorem loadBlocks_filling (hp : p ≠ 0) (h : Filling p reader ph base 0 0 c) :
    Ends ((offsets ph.filesz).foldlM (loadBlock p reader ph.filesz) c)
      (Filling p reader ph base ((ph.filesz.toNat + 511) / 512) ((ph.filesz.toNat + 4095) / 4096))
      fun _ => True := by
  have hn : (ph.filesz.toNat + 4095) / 4096 = ((ph.filesz.toNat + 511) / 512 + 7) / 8 := by omega
  unfold offsets
  rw [List.foldlM_map, hn]
  exact ends_foldlM_range (I := fun j => Filling p reader ph base j ((j + 7) / 8))
    (fun j hj c h => loadBlock_filling hp (by omega) h) h

end Blocks

/-! ## The segments -/

/-- How many pages the loader maps for a segment: as many as its bytes in the file need, and
    those up to `end_pageno`. -/
def pageCount (ph : ProgramHeader) : Nat :=
  max ((ph.filesz.toNat + 4095) / 4096) ((ph.vaddr + ph.memsz).toNat / 4096 - ph.vaddr.toNat / 4096)

/-- The pages that the loader maps for a segment. -/
def segmentPages (reader : UInt32 → Block) (ph : ProgramHeader) : Multiset (Nat × Page) :=
  if ph.vaddr < ramStart then 0 else filePages reader ph ph.filesz.toNat (pageCount ph)

/-- The loop behind the bytes of the file adds pages up to `end_pageno`. -/
theorem zeroPages_pages {reader : UInt32 → Block} {ph : ProgramHeader}
    {base : Multiset (Nat × Page)} {n last : Nat} {pageno : UInt32} (hp : p ≠ 0)
    (hpageno : pageno.toNat = ph.vaddr.toNat / 4096 + n) (hlast : last < 2 ^ 32)
    (hn : ph.filesz.toNat ≤ 4096 * n) (hcons : Consistent s)
    (hpages : pagesOf s p = base + filePages reader ph ph.filesz.toNat n) :
    Ends ((List.range (last - pageno.toNat)).foldlM
        (fun s j => do
          let (_, s) ← allocPage s p (pageno + UInt32.ofNat j)
          .ok s) s)
      (fun s' => Consistent s' ∧ pagesOf s' p = base + filePages reader ph ph.filesz.toNat
        (n + (last - pageno.toNat)))
      fun _ => True := by
  refine ends_foldlM_range (I := fun j s => Consistent s ∧
    pagesOf s p = base + filePages reader ph ph.filesz.toNat (n + j)) ?_ ⟨hcons, hpages⟩
  rintro j hj s ⟨hcons, hpages⟩
  have hnext : (pageno + UInt32.ofNat j).toNat = ph.vaddr.toNat / 4096 + (n + j) := by
    rw [UInt32.toNat_add, UInt32.toNat_ofNat', Nat.mod_eq_of_lt (show j < 2 ^ 32 by omega),
      Nat.mod_eq_of_lt (by omega)]
    omega
  refine (ends_bind _ _).mpr (Ends.mono (allocPage_pages hcons hp _) ?_ fun _ he => he)
  rintro r ⟨hcons', hpages', _⟩
  refine ⟨hcons', ?_⟩
  rw [← Nat.add_assoc, filePages_succ, filePage_eq_zeroPage (by omega), ← add_assoc, ← hpages,
    ← hnext]
  exact hpages'

/-- A segment adds its pages. -/
theorem loadSegment_pages {reader : UInt32 → Block} (h : Consistent s) (hp : p ≠ 0)
    (ph : ProgramHeader) :
    Ends (loadSegment p reader s ph)
      (fun s' => Consistent s' ∧ pagesOf s' p = pagesOf s p + segmentPages reader ph)
      fun _ => True := by
  unfold loadSegment segmentPages
  split_ifs with hram
  · exact ⟨h, (add_zero _).symm⟩
  · have hstart : Filling p reader ph (pagesOf s p) 0 0
        { tlb := s, currPageno := ph.vaddr / 4096, currBlockno := ph.offset / 512, ppageId := 0 } :=
      ⟨h, by rw [filePages_zero, add_zero], UInt32.toNat_div _ _, UInt32.toNat_div _ _,
        fun m hm => absurd hm (Nat.succ_ne_zero m).symm⟩
    refine (ends_bind _ _).mpr (Ends.mono (loadBlocks_filling hp hstart) (fun c hc => ?_)
      fun _ he => he)
    -- all bytes of the file are there
    have hpages := hc.pages
    rw [Nat.min_eq_right (by omega)] at hpages
    have hend : ((ph.vaddr + ph.memsz) / 4096).toNat = (ph.vaddr + ph.memsz).toNat / 4096 :=
      UInt32.toNat_div _ _
    have hcount : pageCount ph = (ph.filesz.toNat + 4095) / 4096 +
        (((ph.vaddr + ph.memsz) / 4096).toNat - c.currPageno.toNat) := by
      rw [hc.pageno, hend, pageCount]
      omega
    rw [hcount]
    exact zeroPages_pages hp hc.pageno (UInt32.toNat_lt _) (by omega) hc.consistent hpages

theorem loadSegments_pages {reader : UInt32 → Block} (h : Consistent s) (hp : p ≠ 0)
    (phs : List ProgramHeader) :
    Ends (phs.foldlM (loadSegment p reader) s)
      (fun s' => Consistent s' ∧ pagesOf s' p = pagesOf s p +
        (phs : Multiset ProgramHeader).bind (segmentPages reader))
      fun _ => True := by
  induction phs generalizing s with
  | nil => exact ⟨h, (add_zero _).symm⟩
  | cons ph phs ih =>
    rw [List.foldlM_cons, ends_bind]
    refine (loadSegment_pages h hp ph).mono (fun s₁ h₁ => ?_) fun _ he => he
    refine (ih h₁.1).mono (fun s₂ h₂ => ⟨h₂.1, ?_⟩) fun _ he => he
    rw [h₂.2, h₁.2, ← Multiset.cons_coe, Multiset.cons_bind, add_assoc]

/-! ## The whole process -/

/-- `hbuf`, and what follows it on the stack. -/
def headerBlock (reader : UInt32 → Block) (stack : Nat → UInt8) (n : Nat) : UInt8 :=
  if h : n < 512 then reader 0 ⟨n, h⟩ else stack n

/-- The pages that every process gets: arguments, system call arguments, and the stack. -/
def fixedPages (args : Args) : Multiset (Nat × Page) :=
  {(0x80300, argPage args zeroPage)} + {(0x80301, zeroPage)} + {(0x803ff, zeroPage)} +
    {(0x803fe, zeroPage)}

theorem loadArgs_pages (h : Consistent s) (hp : p ≠ 0) (args : Args) :
    Ends (loadArgs p args s) (fun s' => pagesOf s' p = pagesOf s p + fixedPages args)
      fun _ => True := by
  unfold loadArgs
  refine (ends_bind _ _).mpr (Ends.mono (mapPage_pages h hp _) ?_ fun _ he => he)
  rintro r ⟨hcons, hpages, hentry, hmem⟩
  have hargs : pagesOf (r.2.store (pageOfId r.1) (argPage args (r.2.mem (pageOfId r.1)))) p =
      pagesOf s p + {((appsArg / 4096).toNat, argPage args zeroPage)} := by
    rw [← hmem] at hpages
    rw [pagesOf_store hentry hpages, hmem]
  -- a write changes neither the table nor the bitmap
  have hcons : Consistent (r.2.store (pageOfId r.1) (argPage args (r.2.mem (pageOfId r.1)))) :=
    hcons
  refine (ends_bind _ _).mpr (Ends.mono (mapPage_pages hcons hp _) ?_ fun _ he => he)
  rintro r₁ ⟨hcons₁, hpages₁, _⟩
  refine (ends_bind _ _).mpr (Ends.mono (mapPage_pages hcons₁ hp _) ?_ fun _ he => he)
  rintro r₂ ⟨hcons₂, hpages₂, _⟩
  refine (ends_bind _ _).mpr (Ends.mono (mapPage_pages hcons₂ hp _) ?_ fun _ he => he)
  rintro r₃ ⟨_, hpages₃, _⟩
  rw [hpages₂, hpages₁, hargs] at hpages₃
  simp only [fixedPages, ← add_assoc]
  exact hpages₃

/-- The pages of a process after `elf_load`. -/
theorem elfLoad_pages {reader : UInt32 → Block} {stack : Nat → UInt8} {args : Args}
    (h : Consistent s) (hnone : ∀ i, (s.pageInfoTable i).pid ≠ p)
    (hload : elfLoad p reader stack args s = .ok s') :
    pagesOf s' p = (programHeaders (headerBlock reader stack) : Multiset ProgramHeader).bind
      (segmentPages reader) + fixedPages args := by
  have hp : p ≠ 0 := h.pid_ne_zero hnone hload
  have hends : Ends (elfLoad p reader stack args s)
      (fun s' => pagesOf s' p =
        (programHeaders (headerBlock reader stack) : Multiset ProgramHeader).bind
          (segmentPages reader) + fixedPages args) fun _ => True := by
    unfold elfLoad
    refine (ends_bind _ _).mpr (Ends.mono (loadSegments_pages h hp _) ?_ fun _ he => he)
    rintro s₁ ⟨hcons, hpages⟩
    refine (loadArgs_pages hcons hp args).mono (fun s₂ hpages₂ => ?_) fun _ he => he
    rw [hpages₂, hpages, pagesOf_eq_zero hnone, zero_add]
    rfl
  exact hends.of_ok hload

end Egos.Loader
