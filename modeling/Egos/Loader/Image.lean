import Egos.Loader.Segments

/-!
# The Loader: The Image of a Program

What `elf_load` makes of an executable file. The bytes of each segment are where the program
header wants them, and the rest of their pages is zero (`elfLoad_places_file`).

Behind the bytes of the file, the loader rounds the end of the segment down to a page:
`end_pageno = (addr + memsz) / PAGE_SIZE`. A last page that is not full and has no byte of the
file is not mapped, so that part of `.bss` stays outside the process. `elfLoad_whole_image_iff`
says for which segments this does not happen.
-/

namespace Egos.Loader

open Egos.Lib Egos.Earth

variable {s₀ s s' : Tlb Page} {p : Int} {reader : UInt32 → Block} {stack : Nat → UInt8}
  {args : Args} {ph : ProgramHeader} {v : Nat} {page : Page} {i j : PageId}

/-! ## Executable files -/

/-- The segments that are loaded, those with `p_vaddr >= RAM_START`. -/
def segments (hbuf : Nat → UInt8) : List ProgramHeader :=
  (programHeaders hbuf).filter fun ph => !decide (ph.vaddr < ramStart)

/-- The page with the number `v` has an address of the segment. -/
def Meets (ph : ProgramHeader) (v : Nat) : Prop :=
  ∃ a, ph.vaddr.toNat ≤ a ∧ a < ph.vaddr.toNat + ph.memsz.toNat ∧ a / 4096 = v

/-- The program headers are in the first block of the file. -/
def HeadersFit (reader : UInt32 → Block) : Prop :=
  (ePhoff (headerBlock reader fun _ => 0)).toNat + 32 * ePhnum (headerBlock reader fun _ => 0) ≤ 512

/-- Segments begin at a page, and have no more bytes in the file than in memory. -/
structure Aligned (phs : List ProgramHeader) : Prop where
  vaddr : ∀ ph ∈ phs, ph.vaddr.toNat % 4096 = 0
  filesz : ∀ ph ∈ phs, ph.filesz ≤ ph.memsz

/-- No page has addresses of both segments. -/
def Apart (ph ph' : ProgramHeader) : Prop := ∀ v, Meets ph v → ¬ Meets ph' v

instance : Std.Symm Apart := ⟨fun _ _ h v hmeets' hmeets => h v hmeets hmeets'⟩

/-- No page has addresses of two segments, and the pages for arguments, system calls and the
    stack have none of any segment. -/
structure Separate (phs : List ProgramHeader) : Prop where
  apart : phs.Pairwise Apart
  fixed : ∀ ph ∈ phs, ∀ v ∈ [0x80300, 0x80301, 0x803ff, 0x803fe], ¬ Meets ph v

theorem mem_segments {hbuf : Nat → UInt8} :
    ph ∈ segments hbuf ↔ ph ∈ programHeaders hbuf ∧ ¬ ph.vaddr < ramStart := by
  rw [segments, List.mem_filter, Bool.not_eq_true', decide_eq_false_iff_not]

/-- Headers in the first block do not depend on the stack. -/
theorem HeadersFit.programHeaders_eq (h : HeadersFit reader) (stack : Nat → UInt8) :
    programHeaders (headerBlock reader stack) = programHeaders (headerBlock reader fun _ => 0) := by
  have hbyte : ∀ n < 512, headerBlock reader stack n = headerBlock reader (fun _ => 0) n := by
    intro n hn
    rw [headerBlock, headerBlock, dif_pos hn, dif_pos hn]
  have hword : ∀ off, off + 3 < 512 →
      wordAt (headerBlock reader stack) off = wordAt (headerBlock reader fun _ => 0) off := by
    intro off hoff
    unfold wordAt
    rw [hbyte _ (by omega), hbyte _ (by omega), hbyte _ (by omega), hbyte _ (by omega)]
  have hphoff : ePhoff (headerBlock reader stack) = ePhoff (headerBlock reader fun _ => 0) :=
    hword 28 (by decide)
  have hphnum : ePhnum (headerBlock reader stack) = ePhnum (headerBlock reader fun _ => 0) := by
    rw [ePhnum, ePhnum, hbyte 44 (by decide), hbyte 45 (by decide)]
  unfold programHeaders
  rw [hphnum]
  refine List.map_congr_left fun i hi => ?_
  have hlt := List.mem_range.mp hi
  unfold HeadersFit at h
  unfold programHeader
  rw [hphoff]
  dsimp only
  rw [hword _ (by omega), hword _ (by omega), hword _ (by omega), hword _ (by omega)]

/-! ## Pages of an image -/

/-- The pages that the loader maps for a segment have addresses of the segment. -/
theorem meets_of_lt_pageCount (halign : ph.vaddr.toNat % 4096 = 0) (hsize : ph.filesz ≤ ph.memsz)
    {m : Nat} (hm : m < pageCount ph) : Meets ph (ph.vaddr.toNat / 4096 + m) := by
  have hfile := UInt32.le_iff_toNat_le.mp hsize
  have hvaddr := ph.vaddr.toNat_lt
  have hmemsz := ph.memsz.toNat_lt
  rw [pageCount, UInt32.toNat_add] at hm
  exact ⟨ph.vaddr.toNat + 4096 * m, by omega, by omega, by omega⟩

theorem mem_segmentPages : (v, page) ∈ segmentPages reader ph ↔ ¬ ph.vaddr < ramStart ∧
    ∃ m < pageCount ph, v = ph.vaddr.toNat / 4096 + m ∧
      page = filePage reader ph ph.filesz.toNat m := by
  unfold segmentPages
  split_ifs with hram
  · exact ⟨fun h => absurd h (Multiset.notMem_zero _), fun h => absurd hram h.1⟩
  · simp only [filePages, Multiset.mem_map, Multiset.mem_range, Prod.mk.injEq, hram,
      not_false_eq_true, true_and, eq_comm]

/-- The page numbers of a segment are different. -/
theorem nodup_segmentPages : ((segmentPages reader ph).map Prod.fst).Nodup := by
  unfold segmentPages
  split_ifs
  · exact Multiset.nodup_zero
  · rw [filePages, Multiset.map_map]
    exact (Multiset.nodup_range _).map fun m m' h => Nat.add_left_cancel h

/-- The pages of a process are those of its segments, and the ones that every process gets. -/
theorem mem_pagesOf_elfLoad (h : Consistent s) (hnone : ∀ i, (s.pageInfoTable i).pid ≠ p)
    (hload : elfLoad p reader stack args s = .ok s') :
    (v, page) ∈ pagesOf s' p ↔
      (∃ ph ∈ segments (headerBlock reader stack), (v, page) ∈ segmentPages reader ph) ∨
      (v, page) ∈ fixedPages args := by
  rw [elfLoad_pages h hnone hload, Multiset.mem_add, Multiset.mem_bind]
  refine or_congr_left (exists_congr fun ph => ?_)
  rw [Multiset.mem_coe, mem_segments]
  exact ⟨fun h => ⟨⟨h.1, (mem_segmentPages.mp h.2).1⟩, h.2⟩, fun h => ⟨h.1.1, h.2⟩⟩

theorem mem_fixedPages (h : (v, page) ∈ fixedPages args) :
    v ∈ [0x80300, 0x80301, 0x803ff, 0x803fe] := by
  simp only [fixedPages, Multiset.mem_add, Multiset.mem_singleton, Prod.mk.injEq] at h
  simp only [List.mem_cons, List.not_mem_nil, or_false]
  omega

/-- A page number of a segment that is separate from the others is one that the loader mapped
    for this segment. -/
theorem Separate.mem_segmentPages (haligned : Aligned (segments (headerBlock reader stack)))
    (hsep : Separate (segments (headerBlock reader stack))) (h : Consistent s)
    (hnone : ∀ i, (s.pageInfoTable i).pid ≠ p) (hload : elfLoad p reader stack args s = .ok s')
    (hph : ph ∈ segments (headerBlock reader stack)) (hmeets : Meets ph v)
    (hpage : (v, page) ∈ pagesOf s' p) : (v, page) ∈ segmentPages reader ph := by
  rcases (mem_pagesOf_elfLoad h hnone hload).mp hpage with ⟨ph', hph', hmem⟩ | hmem
  · obtain ⟨_, m, hm, rfl, _⟩ := Loader.mem_segmentPages.mp hmem
    have hmeets' := meets_of_lt_pageCount (haligned.vaddr ph' hph') (haligned.filesz ph' hph') hm
    -- the page has addresses of both segments
    by_cases heq : ph = ph'
    · rw [heq]
      exact hmem
    · exact absurd hmeets' (hsep.apart.forall hph hph' heq _ hmeets)
  · exact absurd hmeets (hsep.fixed ph hph v (mem_fixedPages hmem))

/-- The page numbers of a process are different. -/
theorem Separate.nodup_pagesOf (haligned : Aligned (segments (headerBlock reader stack)))
    (hsep : Separate (segments (headerBlock reader stack))) (h : Consistent s)
    (hnone : ∀ i, (s.pageInfoTable i).pid ≠ p) (hload : elfLoad p reader stack args s = .ok s') :
    ((pagesOf s' p).map Prod.fst).Nodup := by
  -- a page number of a segment is one of a page that has addresses of the segment
  have hmeets : ∀ ph ∈ programHeaders (headerBlock reader stack), ∀ v,
      v ∈ (segmentPages reader ph).map Prod.fst →
        ph ∈ segments (headerBlock reader stack) ∧ Meets ph v := by
    intro ph hph v hv
    obtain ⟨⟨v, page⟩, hmem, rfl⟩ := Multiset.mem_map.mp hv
    obtain ⟨hram, m, hm, rfl, _⟩ := Loader.mem_segmentPages.mp hmem
    have hseg := mem_segments.mpr ⟨hph, hram⟩
    exact ⟨hseg, meets_of_lt_pageCount (haligned.vaddr ph hseg) (haligned.filesz ph hseg) hm⟩
  have hpairwise : (programHeaders (headerBlock reader stack)).Pairwise
      (Function.onFun Disjoint fun ph => (segmentPages reader ph).map Prod.fst) := by
    have hapart := List.pairwise_filter.mp hsep.apart
    refine hapart.imp_of_mem fun {ph ph'} hph hph' h => Multiset.disjoint_left.mpr ?_
    intro v hv hv'
    obtain ⟨hseg, hm⟩ := hmeets ph hph v hv
    obtain ⟨hseg', hm'⟩ := hmeets ph' hph' v hv'
    exact h (List.mem_filter.mp hseg).2 (List.mem_filter.mp hseg').2 v hm hm'
  rw [elfLoad_pages h hnone hload, Multiset.map_add, Multiset.map_bind, Multiset.nodup_add]
  refine ⟨Multiset.nodup_bind.mpr ⟨fun _ _ => nodup_segmentPages, _, rfl, hpairwise⟩, ?_, ?_⟩
  · show Multiset.Nodup {0x80300, 0x80301, 0x803ff, 0x803fe}
    decide
  · refine Multiset.disjoint_left.mpr fun {v} hv hfixed => ?_
    obtain ⟨ph, hph, hv⟩ := Multiset.mem_bind.mp hv
    obtain ⟨hseg, hm⟩ := hmeets ph (Multiset.mem_coe.mp hph) v hv
    obtain ⟨⟨v, page⟩, hmem, rfl⟩ := Multiset.mem_map.mp hfixed
    exact hsep.fixed ph hseg v (mem_fixedPages hmem) hm

/-- A page number that occurs once has one page. -/
theorem eq_of_nodup_pagesOf (h : ((pagesOf s p).map Prod.fst).Nodup)
    (hi : s.pageInfoTable i = ⟨p, v⟩) (hj : s.pageInfoTable j = ⟨p, v⟩) : i = j := by
  have hmem : ∀ {i}, s.pageInfoTable i = ⟨p, v⟩ →
      i ∈ (Finset.univ.filter fun i => (s.pageInfoTable i).pid = p).val := by
    intro i hi
    rw [Finset.mem_val, Finset.mem_filter, hi]
    exact ⟨Finset.mem_univ i, rfl⟩
  rw [pagesOf, Multiset.map_map] at h
  refine Multiset.inj_on_of_nodup_map h i (hmem hi) j (hmem hj) ?_
  show (s.pageInfoTable i).vpageNo = (s.pageInfoTable j).vpageNo
  rw [hi, hj]

/-! ## The bytes of the file -/

/-- `elf_load` places every byte of the file. For a file with its program headers in the first
    block, and segments that begin at a page in memory and at a block in the file, that are no
    longer in the file than in memory and do not share pages with anything else:

    - each byte of a segment is in the page of its address;
    - all other bytes of the pages with addresses of the segment are zero;
    - no page number of the process has two pages. -/
theorem elfLoad_places_file {calls : List Call} (hempty : Empty s₀)
    (hrun : Run Completed s₀ calls s) (hload : Completed s (.load p reader stack args) s')
    (hfit : HeadersFit reader) (haligned : Aligned (segments (headerBlock reader fun _ => 0)))
    (hoffset : ∀ ph ∈ segments (headerBlock reader fun _ => 0), ph.offset.toNat % 512 = 0)
    (hsep : Separate (segments (headerBlock reader fun _ => 0))) :
    (∀ ph ∈ segments (headerBlock reader fun _ => 0),
      (∀ k < ph.filesz.toNat, ∃ i,
        s'.pageInfoTable i = ⟨p, (ph.vaddr.toNat + k) / 4096⟩ ∧
        s'.mem (pageOfId i) ⟨(ph.vaddr.toNat + k) % 4096, Nat.mod_lt _ (by decide)⟩ =
          fileByte reader (ph.offset.toNat + k)) ∧
      ∀ i v, s'.pageInfoTable i = ⟨p, v⟩ → Meets ph v → ∀ b : Fin 4096,
        ¬ (ph.vaddr.toNat ≤ 4096 * v + b.val ∧
          4096 * v + b.val < ph.vaddr.toNat + ph.filesz.toNat) →
        s'.mem (pageOfId i) b = 0) ∧
    ∀ i j, (s'.pageInfoTable i).pid = p → (s'.pageInfoTable j).pid = p →
      (s'.pageInfoTable i).vpageNo = (s'.pageInfoTable j).vpageNo → i = j := by
  obtain ⟨h, _⟩ := Completed.consistent hempty hrun
  cases hload with
  | load hnone hload =>
    have hsegments : segments (headerBlock reader fun _ => 0) =
        segments (headerBlock reader stack) := by
      rw [segments, segments, hfit.programHeaders_eq stack]
    rw [hsegments] at haligned hoffset hsep ⊢
    refine ⟨fun ph hph => ⟨fun k hk => ?_, fun i v hi hmeets b hb => ?_⟩, fun i j hi hj hij => ?_⟩
    · -- the byte `k` is in the page `k / 4096` of the segment
      have halign := haligned.vaddr ph hph
      have hblock := hoffset ph hph
      have hmem : ((ph.vaddr.toNat + k) / 4096, filePage reader ph ph.filesz.toNat (k / 4096)) ∈
          segmentPages reader ph := by
        refine Loader.mem_segmentPages.mpr ⟨(mem_segments.mp hph).2, k / 4096, ?_, by omega, rfl⟩
        exact lt_max_of_lt_left (by omega)
      obtain ⟨i, hentry, hcontent⟩ := mem_pagesOf.mp
        ((mem_pagesOf_elfLoad h hnone hload).mpr (.inl ⟨ph, hph, hmem⟩))
      refine ⟨i, hentry, ?_⟩
      rw [hcontent, filePage, if_pos (by dsimp only; omega)]
      congr 1
      dsimp only
      omega
    · -- a page with addresses of the segment can only be one that was mapped for it
      have hpage := hsep.mem_segmentPages haligned h hnone hload hph hmeets
        (mem_pagesOf.mpr ⟨i, hi, rfl⟩)
      have halign := haligned.vaddr ph hph
      obtain ⟨_, m, _, rfl, hcontent⟩ := Loader.mem_segmentPages.mp hpage
      rw [hcontent]
      exact if_neg (by omega)
    · exact eq_of_nodup_pagesOf (hsep.nodup_pagesOf haligned h hnone hload)
        (PageInfo.ext hi rfl) (PageInfo.ext hj hij.symm)

/-- The only segment of `bssProgram`. -/
def bssSegment : ProgramHeader :=
  { offset := 512, vaddr := 0x80208000, filesz := 16, memsz := 5000 }

theorem segments_bssProgram : segments (headerBlock bssProgram fun _ => 0) = [bssSegment] := by
  decide +kernel

theorem aligned_bssSegment : Aligned [bssSegment] :=
  ⟨fun ph hph => by rw [List.mem_singleton.mp hph]; decide,
    fun ph hph => by rw [List.mem_singleton.mp hph]; decide⟩

theorem meets_bssSegment (h : Meets bssSegment v) : v = 0x80208 ∨ v = 0x80209 := by
  obtain ⟨a, hle, hlt, rfl⟩ := h
  have hvaddr : bssSegment.vaddr.toNat = 0x80208000 := rfl
  have hmemsz : bssSegment.memsz.toNat = 5000 := rfl
  omega

theorem separate_bssSegment : Separate [bssSegment] := by
  refine ⟨List.pairwise_singleton _ _, fun ph hph v hv hmeets => ?_⟩
  rw [List.mem_singleton.mp hph] at hmeets
  simp only [List.mem_cons, List.not_mem_nil, or_false] at hv
  rcases meets_bssSegment hmeets with rfl | rfl <;> omega

theorem completed_bssProgram : ∃ s, Completed freeMemory
    (.load 3 bssProgram (fun _ => 0) ⟨0, none, by decide⟩) s := by
  have hends : Ends (elfLoad 3 bssProgram (fun _ => 0) ⟨0, none, by decide⟩ freeMemory)
      (fun _ => True) fun _ => False := by
    decide +kernel
  obtain ⟨s, hs, _⟩ := hends.exists_ok fun _ he => he
  have hne : (0 : Int) ≠ 3 := by decide
  exact ⟨s, .load (fun _ => hne) hs⟩

theorem elfLoad_places_file_bss : ∃ s, Completed freeMemory
    (.load 3 bssProgram (fun _ => 0) ⟨0, none, by decide⟩) s ∧
    ∃ i, s.pageInfoTable i = ⟨3, 0x80208⟩ ∧ s.mem (pageOfId i) 15 = 15 ∧
      s.mem (pageOfId i) 16 = 0 := by
  obtain ⟨s, hload⟩ := completed_bssProgram
  have hfit : HeadersFit bssProgram := by
    unfold HeadersFit
    decide +kernel
  have hseg := segments_bssProgram
  have hoffset : ∀ ph ∈ [bssSegment], ph.offset.toNat % 512 = 0 := by
    intro ph hph
    rw [List.mem_singleton.mp hph]
    decide
  obtain ⟨hplaced, _⟩ := elfLoad_places_file empty_freeMemory .nil hload hfit
    (hseg ▸ aligned_bssSegment) (hseg ▸ hoffset) (hseg ▸ separate_bssSegment)
  obtain ⟨hbytes, hzero⟩ := hplaced bssSegment (hseg ▸ List.mem_singleton_self _)
  obtain ⟨i, hentry, hbyte⟩ := hbytes 15 (by decide)
  refine ⟨s, hload, i, hentry, hbyte, hzero i 0x80208 hentry ?_ 16 (by decide)⟩
  exact ⟨0x80208000, by decide, by decide, by decide⟩

/-! ## The whole image -/

/-- The last page of the segment has a byte of the file, or the segment ends with a page, below
    the end of the address space. -/
def Covered (ph : ProgramHeader) : Prop :=
  (ph.memsz.toNat + 4095) / 4096 = (ph.filesz.toNat + 4095) / 4096 ∨
    (ph.memsz.toNat % 4096 = 0 ∧ ph.vaddr.toNat + ph.memsz.toNat < 2 ^ 32)

/-- Each address of the segment has a page of the process, and behind the bytes of the file it
    holds zero. -/
def WholeImage (s : Tlb Page) (p : Int) (ph : ProgramHeader) : Prop :=
  ∀ a, ph.vaddr.toNat ≤ a → a < ph.vaddr.toNat + ph.memsz.toNat →
    ∃ i, s.pageInfoTable i = ⟨p, a / 4096⟩ ∧ (ph.vaddr.toNat + ph.filesz.toNat ≤ a →
      s.mem (pageOfId i) ⟨a % 4096, Nat.mod_lt _ (by decide)⟩ = 0)

theorem covered_iff (halign : ph.vaddr.toNat % 4096 = 0) (hsize : ph.filesz ≤ ph.memsz) :
    Covered ph ↔ (ph.memsz.toNat + 4095) / 4096 ≤ pageCount ph := by
  have hfile := UInt32.le_iff_toNat_le.mp hsize
  have hvaddr := ph.vaddr.toNat_lt
  have hmemsz := ph.memsz.toNat_lt
  rw [Covered, pageCount, UInt32.toNat_add]
  omega

/-- The addresses of the segment behind the pages that are mapped for it have pages of another
    segment, or of those that every process gets, and these hold zero there. -/
def Supplied (reader : UInt32 → Block) (args : Args) (phs : List ProgramHeader)
    (ph : ProgramHeader) : Prop :=
  ∀ a, ph.vaddr.toNat + 4096 * pageCount ph ≤ a → a < ph.vaddr.toNat + ph.memsz.toNat →
    ∃ page : Page, ((∃ ph' ∈ phs, (a / 4096, page) ∈ segmentPages reader ph') ∨
      (a / 4096, page) ∈ fixedPages args) ∧ page ⟨a % 4096, Nat.mod_lt _ (by decide)⟩ = 0

theorem wholeImage_iff_supplied (halign : ph.vaddr.toNat % 4096 = 0) (h : Consistent s)
    (hnone : ∀ i, (s.pageInfoTable i).pid ≠ p) (hload : elfLoad p reader stack args s = .ok s')
    (hph : ph ∈ segments (headerBlock reader stack)) :
    WholeImage s' p ph ↔ Supplied reader args (segments (headerBlock reader stack)) ph := by
  have hfile : ph.filesz.toNat ≤ 4096 * pageCount ph := by
    unfold pageCount
    omega
  constructor
  · intro himage a hle hlt
    obtain ⟨i, hentry, hzero⟩ := himage a (by omega) hlt
    exact ⟨s'.mem (pageOfId i), (mem_pagesOf_elfLoad h hnone hload).mp
      (mem_pagesOf.mpr ⟨i, hentry, rfl⟩), hzero (by omega)⟩
  · intro hsupplied a hle hlt
    by_cases hown : a < ph.vaddr.toNat + 4096 * pageCount ph
    · -- the address has one of the pages of the segment
      have hmem : (a / 4096, filePage reader ph ph.filesz.toNat ((a - ph.vaddr.toNat) / 4096)) ∈
          segmentPages reader ph :=
        Loader.mem_segmentPages.mpr ⟨(mem_segments.mp hph).2, _, by omega, by omega, rfl⟩
      obtain ⟨i, hentry, hcontent⟩ := mem_pagesOf.mp
        ((mem_pagesOf_elfLoad h hnone hload).mpr (.inl ⟨ph, hph, hmem⟩))
      refine ⟨i, hentry, fun hbss => ?_⟩
      rw [hcontent]
      exact if_neg (by dsimp only; omega)
    · obtain ⟨page, hmem, hzero⟩ := hsupplied a (by omega) hlt
      obtain ⟨i, hentry, hcontent⟩ := mem_pagesOf.mp ((mem_pagesOf_elfLoad h hnone hload).mpr hmem)
      exact ⟨i, hentry, fun _ => by rw [hcontent]; exact hzero⟩

/-- `elf_load` maps the whole image of a segment exactly if the last page of the segment has a
    byte of the file, or the segment ends with a page, or what is missing happens to be supplied
    by another segment. The last case does not occur where no two segments share a page. -/
theorem elfLoad_whole_image_iff {calls : List Call} (hempty : Empty s₀)
    (hrun : Run Completed s₀ calls s) (hload : Completed s (.load p reader stack args) s')
    (haligned : Aligned (segments (headerBlock reader stack))) :
    ∀ ph ∈ segments (headerBlock reader stack),
      (WholeImage s' p ph ↔
        Covered ph ∨ Supplied reader args (segments (headerBlock reader stack)) ph) ∧
      (Separate (segments (headerBlock reader stack)) → (WholeImage s' p ph ↔ Covered ph)) := by
  obtain ⟨h, _⟩ := Completed.consistent hempty hrun
  cases hload with
  | load hnone hload =>
    intro ph hph
    have halign := haligned.vaddr ph hph
    have hcovered := covered_iff halign (haligned.filesz ph hph)
    have hsupplied := wholeImage_iff_supplied halign h hnone hload hph
    -- nothing is missing
    have hwhole : Covered ph → WholeImage s' p ph := by
      intro hcov
      have hcount := hcovered.mp hcov
      exact hsupplied.mpr fun a hle hlt => absurd hlt (by omega)
    refine ⟨⟨fun himage => .inr (hsupplied.mp himage), ?_⟩, fun hsep => ⟨fun himage => ?_, hwhole⟩⟩
    · rintro (hcov | hsup)
      · exact hwhole hcov
      · exact hsupplied.mpr hsup
    · -- the last address of the segment is in a page that the loader mapped for it
      rw [hcovered]
      by_cases hzero : ph.memsz.toNat = 0
      · rw [hzero]
        exact Nat.zero_le _
      · obtain ⟨i, hentry, _⟩ := himage (ph.vaddr.toNat + ph.memsz.toNat - 1) (by omega) (by omega)
        have hpage := hsep.mem_segmentPages haligned h hnone hload hph
          ⟨ph.vaddr.toNat + ph.memsz.toNat - 1, by omega, by omega, rfl⟩
          (mem_pagesOf.mpr ⟨i, hentry, rfl⟩)
        obtain ⟨_, m, hm, heq, _⟩ := Loader.mem_segmentPages.mp hpage
        omega

theorem elfLoad_whole_image_bss : ∃ s, Completed freeMemory
    (.load 3 bssProgram (fun _ => 0) ⟨0, none, by decide⟩) s ∧
    (WholeImage s 3 bssSegment ↔ Covered bssSegment) := by
  obtain ⟨s, hload⟩ := completed_bssProgram
  have hseg := segments_bssProgram
  have hwhole := elfLoad_whole_image_iff empty_freeMemory .nil hload (hseg ▸ aligned_bssSegment)
  exact ⟨s, hload, (hwhole bssSegment (hseg ▸ List.mem_singleton_self _)).2
    (hseg ▸ separate_bssSegment)⟩

/-- The segment has 5000 bytes in memory, from `0x80208000` on, and the 904 bytes in its second
    page are outside the process. -/
theorem last_page_missing : ∃ s, Completed freeMemory
    (.load 3 bssProgram (fun _ => 0) ⟨0, none, by decide⟩) s ∧
    bssSegment ∈ segments (headerBlock bssProgram fun _ => 0) ∧
    Aligned (segments (headerBlock bssProgram fun _ => 0)) ∧ Meets bssSegment 0x80209 ∧
    ∀ i, s.pageInfoTable i ≠ ⟨3, 0x80209⟩ := by
  obtain ⟨s, hload⟩ := completed_bssProgram
  have hmeets : Meets bssSegment 0x80209 := ⟨0x80209000, by decide, by decide, by decide⟩
  rw [segments_bssProgram]
  refine ⟨s, hload, List.mem_singleton_self _, aligned_bssSegment, hmeets, fun i hi => ?_⟩
  cases hload with
  | load hnone hload =>
    have hseg := segments_bssProgram
    have hpage := Separate.mem_segmentPages (hseg ▸ aligned_bssSegment)
      (hseg ▸ separate_bssSegment) empty_freeMemory.consistent hnone hload
      (hseg ▸ List.mem_singleton_self _) hmeets (mem_pagesOf.mpr ⟨i, hi, rfl⟩)
    obtain ⟨_, m, hm, heq, _⟩ := Loader.mem_segmentPages.mp hpage
    have hcount : pageCount bssSegment = 1 := by decide
    have hvaddr : bssSegment.vaddr.toNat = 0x80208000 := rfl
    omega

end Egos.Loader
