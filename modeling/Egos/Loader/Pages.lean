import Egos.Lib.Ends
import Egos.Lib.Transition
import Egos.Earth.Alloc
import Egos.Loader.Code
import Mathlib.Logic.Relation

/-!
# The Loader: Pages of a Process

What `elf_load` does to memory is a chain of two small steps: it maps a page that was free,
and it writes a page that it mapped before (`Loading`). Everything about the ownership of
pages follows from what these two steps and `soft_tlb_free` do.

- `Consistent`: the bit of a page is set exactly if the page belongs to a process.
- `Loaded`: what a chain of steps for one process may have changed.
- `page_ownership`: the bitmap and the table agree after every sequence of calls of
  `elf_load` and `mmu_free`, and no page is lost.
-/

namespace Egos.Loader

open Egos.Lib Egos.Earth

variable {s s' s₀ : Tlb Page} {p : Int} {i j : PageId}

/-! ## The loader as a chain of steps -/

/-- A step of the loader for the process `p`. -/
inductive LoadStep (p : Int) : Tlb Page → Tlb Page → Prop where
  | map {s s' : Tlb Page} {i : PageId} (v : Nat) (halloc : s.mmuAlloc zeroPage = .ok (i, s')) :
      LoadStep p s (s'.softTlbMap p v i)
  | store {s : Tlb Page} {i : PageId} (page : Page) (hi : (s.pageInfoTable i).pid = p) :
      LoadStep p s (s.store (pageOfId i) page)

/-- Steps of the loader, one after the other. -/
abbrev Loading (p : Int) : Tlb Page → Tlb Page → Prop := Relation.ReflTransGen (LoadStep p)

theorem softTlbMap_owner (s : Tlb Page) (p : Int) (v : Nat) (i : PageId) :
    ((s.softTlbMap p v i).pageInfoTable i).pid = p := by
  rw [softTlbMap_pageInfoTable_self]

theorem mapPage_loading (h : Loading p s₀ s) (v : UInt32) :
    Ends (mapPage s p v)
      (fun r => Loading p s₀ r.2 ∧ (r.2.pageInfoTable r.1).pid = p) fun _ => True := by
  unfold mapPage
  rw [ends_bind]
  cases halloc : s.mmuAlloc zeroPage with
  | error e => trivial
  | ok r => exact ⟨h.tail (.map v.toNat halloc), softTlbMap_owner ..⟩

theorem allocPage_loading (h : Loading p s₀ s) (v : UInt32) :
    Ends (allocPage s p v)
      (fun r => Loading p s₀ r.2 ∧ (r.2.pageInfoTable r.1).pid = p) fun _ => True := by
  unfold allocPage
  rw [ends_bind]
  cases halloc : s.mmuAlloc zeroPage with
  | error e => trivial
  | ok r =>
    have hmap := softTlbMap_owner r.2 p v.toNat r.1
    exact ⟨(h.tail (.map v.toNat halloc)).tail (.store zeroPage hmap), hmap⟩

theorem nextPage_loading {off : UInt32} {c : Cursor} (h : Loading p s₀ c.tlb)
    (hpage : off % 4096 = 0 ∨ (c.tlb.pageInfoTable c.ppageId).pid = p) :
    Ends (c.nextPage p off)
      (fun c => Loading p s₀ c.tlb ∧ (c.tlb.pageInfoTable c.ppageId).pid = p) fun _ => True := by
  unfold Cursor.nextPage
  split_ifs with hoff
  · rw [ends_bind]
    exact (allocPage_loading h c.currPageno).mono (fun _ hr => hr) fun _ he => he
  · exact ⟨h, hpage.resolve_left hoff⟩

/-- A turn of the loop over blocks writes to the page that it or an earlier turn mapped. -/
theorem loadBlock_loading {reader : UInt32 → Block} {filesz off : UInt32} {c : Cursor}
    (h : Loading p s₀ c.tlb) (hpage : off % 4096 = 0 ∨ (c.tlb.pageInfoTable c.ppageId).pid = p) :
    Ends (loadBlock p reader filesz c off)
      (fun c => Loading p s₀ c.tlb ∧ (c.tlb.pageInfoTable c.ppageId).pid = p) fun _ => True := by
  unfold loadBlock
  rw [ends_bind]
  refine (nextPage_loading h hpage).mono (fun c hc => ?_) fun _ he => he
  exact ⟨hc.1.tail (.store _ hc.2), hc.2⟩

/-- The first turn of the loop maps a page, so every turn has one. -/
theorem loadBlocks_loading {reader : UInt32 → Block} {filesz : UInt32} {c : Cursor}
    (h : Loading p s₀ c.tlb) :
    Ends ((offsets filesz).foldlM (loadBlock p reader filesz) c)
      (fun c => Loading p s₀ c.tlb) fun _ => True := by
  unfold offsets
  cases (filesz.toNat + 511) / 512 with
  | zero => exact h
  | succ n =>
    rw [List.range_succ_eq_map, List.map_cons, List.foldlM_cons, ends_bind]
    refine (loadBlock_loading h (.inl (by decide))).mono (fun c hc => ?_) fun _ he => he
    exact (ends_foldlM (fun c off hc => loadBlock_loading hc.1 (.inr hc.2)) _ hc).mono
      (fun _ hc => hc.1) fun _ he => he

theorem loadSegment_loading {reader : UInt32 → Block} (h : Loading p s₀ s) (ph : ProgramHeader) :
    Ends (loadSegment p reader s ph) (Loading p s₀) fun _ => True := by
  unfold loadSegment
  split_ifs
  · exact h
  · refine (ends_bind _ _).mpr (Ends.mono (loadBlocks_loading h) (fun c hc => ?_) fun _ he => he)
    refine ends_foldlM (fun s v hs => ?_) _ hc
    refine (ends_bind _ _).mpr (Ends.mono (allocPage_loading hs _) ?_ fun _ he => he)
    exact fun r hr => hr.1

theorem loadArgs_loading (h : Loading p s₀ s) (args : Args) :
    Ends (loadArgs p args s)
      (fun s' => Loading p s₀ s' ∧ ∃ i, (s'.pageInfoTable i).pid = p) fun _ => True := by
  unfold loadArgs
  refine (ends_bind _ _).mpr (Ends.mono (mapPage_loading h _) (fun r hr => ?_) fun _ he => he)
  have hargs := hr.1.tail (.store (argPage args (r.2.mem (pageOfId r.1))) hr.2)
  refine (ends_bind _ _).mpr (Ends.mono (mapPage_loading hargs _) (fun r hr => ?_) fun _ he => he)
  refine (ends_bind _ _).mpr (Ends.mono (mapPage_loading hr.1 _) (fun r hr => ?_) fun _ he => he)
  refine (ends_bind _ _).mpr (Ends.mono (mapPage_loading hr.1 _) (fun r hr => ?_) fun _ he => he)
  exact ⟨hr.1, r.1, hr.2⟩

/-- `elf_load` is a chain of steps, and the process has a page at its end. -/
theorem elfLoad_loading (p : Int) (reader : UInt32 → Block) (stack : Nat → UInt8) (args : Args)
    (s : Tlb Page) :
    Ends (elfLoad p reader stack args s)
      (fun s' => Loading p s s' ∧ ∃ i, (s'.pageInfoTable i).pid = p) fun _ => True := by
  unfold elfLoad
  rw [ends_bind]
  refine Ends.mono (ends_foldlM (fun s ph hs => loadSegment_loading hs ph) _ .refl) (fun s' hs' => ?_)
    fun _ he => he
  exact loadArgs_loading hs' args

/-! ## What the steps do -/

/-- The bit of a page is set exactly if the page belongs to a process. -/
def Consistent (s : Tlb Page) : Prop :=
  ∀ i, bitAt s.bitmap i = true ↔ (s.pageInfoTable i).pid ≠ 0

theorem Consistent.reserved (h : Consistent s) : Reserved s := fun i => (h i).mpr

/-- The entry, the bit and the content of a page are the same in both states. -/
structure SamePage (s s' : Tlb Page) (i : PageId) : Prop where
  entry : s'.pageInfoTable i = s.pageInfoTable i
  bit : bitAt s'.bitmap i = bitAt s.bitmap i
  content : s'.mem (pageOfId i) = s.mem (pageOfId i)

theorem SamePage.refl (s : Tlb Page) (i : PageId) : SamePage s s i := ⟨rfl, rfl, rfl⟩

theorem SamePage.trans {s'' : Tlb Page} (h : SamePage s s' i) (h' : SamePage s' s'' i) :
    SamePage s s'' i :=
  ⟨h'.entry.trans h.entry, h'.bit.trans h.bit, h'.content.trans h.content⟩

/-- What the loader may do to memory while it works for the process `p`. -/
structure Loaded (p : Int) (s s' : Tlb Page) : Prop where
  consistent : Consistent s'
  /-- A page keeps its owner, or it was free and belongs to `p` now. -/
  owner : ∀ i, (s'.pageInfoTable i).pid = (s.pageInfoTable i).pid ∨
    ((s.pageInfoTable i).pid = 0 ∧ (s'.pageInfoTable i).pid = p)
  /-- Pages of other processes stay as they are. -/
  others : ∀ i, (s.pageInfoTable i).pid ≠ 0 → (s.pageInfoTable i).pid ≠ p → SamePage s s' i
  /-- The user address space stays as it is. -/
  below : ∀ v < appsPagesBase, s'.mem v = s.mem v

theorem Loaded.refl (h : Consistent s) : Loaded p s s :=
  ⟨h, fun _ => .inl rfl, fun i _ _ => .refl s i, fun _ _ => rfl⟩

theorem pmalloc_mem {zero : Page} (h : s.mmuAlloc zero = .ok (i, s')) :
    s'.mem = Function.update s.mem (pageOfId i) zero := by
  obtain ⟨-, rfl⟩ := pmalloc_find h
  rfl

/-- Mapping a new page changes the state for that page alone. -/
theorem samePage_map {v : Nat} (halloc : s.mmuAlloc zeroPage = .ok (i, s')) (hji : j ≠ i) :
    SamePage s (s'.softTlbMap p v i) j := by
  obtain ⟨_, hbitmap, htable, _⟩ := pmalloc_ok halloc
  refine ⟨?_, ?_, ?_⟩
  · rw [softTlbMap_pageInfoTable_of_ne s' p v hji, htable]
  · show bitAt s'.bitmap j = bitAt s.bitmap j
    rw [hbitmap, bitAt_bitmapSet, decide_eq_false hji, Bool.false_or]
  · show s'.mem (pageOfId j) = s.mem (pageOfId j)
    rw [pmalloc_mem halloc, Function.update_of_ne fun h => hji (pageOfId_inj h)]

/-- Mapping another page leaves a page in use alone. -/
theorem mapPage_samePage (pageno : UInt32) (hi : bitAt s.bitmap i = true) :
    Ends (mapPage s p pageno) (fun r => SamePage s r.2 i) fun _ => True := by
  unfold mapPage
  rw [ends_bind]
  cases halloc : s.mmuAlloc zeroPage with
  | error e => trivial
  | ok r =>
    obtain ⟨hfree, _⟩ := pmalloc_ok halloc
    refine samePage_map halloc ?_
    rintro rfl
    rw [hfree] at hi
    cases hi

/-- The page that is mapped is in use from now on, and it is empty. -/
theorem mapPage_fresh (s : Tlb Page) (p : Int) (pageno : UInt32) :
    Ends (mapPage s p pageno)
      (fun r => r.2.pageInfoTable r.1 = ⟨p, pageno.toNat⟩ ∧ bitAt r.2.bitmap r.1 = true ∧
        r.2.mem (pageOfId r.1) = zeroPage) fun _ => True := by
  unfold mapPage
  rw [ends_bind]
  cases halloc : s.mmuAlloc zeroPage with
  | error e => trivial
  | ok r =>
    obtain ⟨_, hbitmap, _⟩ := pmalloc_ok halloc
    refine ⟨softTlbMap_pageInfoTable_self .., ?_, ?_⟩
    · show bitAt r.2.bitmap r.1 = true
      rw [hbitmap, bitAt_bitmapSet, decide_eq_true rfl, Bool.true_or]
    · show r.2.mem (pageOfId r.1) = zeroPage
      rw [pmalloc_mem halloc, Function.update_self]

/-- Writing a page changes the content of that page alone. -/
theorem samePage_store {page : Page} (hji : j ≠ i) : SamePage s (s.store (pageOfId i) page) j :=
  ⟨rfl, rfl, Function.update_of_ne (fun h => hji (pageOfId_inj h)) ..⟩

theorem Consistent.map {v : Nat} (h : Consistent s) (hp : p ≠ 0)
    (halloc : s.mmuAlloc zeroPage = .ok (i, s')) : Consistent (s'.softTlbMap p v i) := by
  obtain ⟨_, hbitmap, _, _⟩ := pmalloc_ok halloc
  intro j
  by_cases hji : j = i
  · subst hji
    have hbit : bitAt (s'.softTlbMap p v j).bitmap j = true := by
      show bitAt s'.bitmap j = true
      rw [hbitmap, bitAt_bitmapSet, decide_eq_true rfl, Bool.true_or]
    rw [hbit, softTlbMap_owner]
    exact ⟨fun _ => hp, fun _ => rfl⟩
  · have hsame := samePage_map (p := p) (v := v) halloc hji
    rw [hsame.bit, hsame.entry]
    exact h j

/-- One more step. -/
theorem Loaded.step {s₁ s₂ : Tlb Page} (h : Loaded p s s₁) (hp : p ≠ 0)
    (hstep : LoadStep p s₁ s₂) : Loaded p s s₂ := by
  cases hstep with
  | @map s' i v halloc =>
    have hfree : (s₁.pageInfoTable i).pid = 0 := h.consistent.reserved.pmalloc_free halloc
    refine ⟨h.consistent.map hp halloc, fun j => ?_, fun j hj hjp => ?_, fun w hw => ?_⟩
    · by_cases hji : j = i
      · subst hji
        refine .inr ⟨?_, softTlbMap_owner ..⟩
        -- the page was free at the start too: `p` is not 0
        rcases h.owner j with howner | ⟨hzero, _⟩
        · rw [← howner]
          exact hfree
        · exact hzero
      · rw [(samePage_map halloc hji).entry]
        exact h.owner j
    · have hsame := h.others j hj hjp
      have hji : j ≠ i := by
        rintro rfl
        rw [hsame.entry] at hfree
        exact hj hfree
      exact hsame.trans (samePage_map halloc hji)
    · refine Eq.trans ?_ (h.below w hw)
      show s'.mem w = s₁.mem w
      rw [pmalloc_mem halloc, Function.update_of_ne (ne_pageOfId hw i)]
  | @store i page hi =>
    refine ⟨h.consistent, h.owner, fun j hj hjp => ?_, fun w hw => ?_⟩
    · have hsame := h.others j hj hjp
      have hji : j ≠ i := by
        rintro rfl
        rw [hsame.entry] at hi
        exact hjp hi
      exact hsame.trans (samePage_store hji)
    · exact (Function.update_of_ne (ne_pageOfId hw i) ..).trans (h.below w hw)

/-- All steps of a call. -/
theorem Consistent.loading (h : Consistent s) (hp : p ≠ 0) (hload : Loading p s s') :
    Loaded p s s' := by
  induction hload with
  | refl => exact .refl h
  | tail _ hstep ih => exact ih.step hp hstep

/-! ## Freeing -/

/-- One turn of the loop of `soft_tlb_free` clears the bit of a page of the process. -/
theorem freePage_bitmap (q : Int) (s : Tlb Page) (i j : PageId) :
    bitAt (s.freePage q i).bitmap j =
      if j = i ∧ (s.pageInfoTable i).pid = q then false else bitAt s.bitmap j := by
  unfold Tlb.freePage
  by_cases hq : (s.pageInfoTable i).pid = q
  · rw [if_pos hq]
    show bitAt (bitmapClear s.bitmap i) j = _
    rw [bitAt_bitmapClear]
    by_cases hji : j = i
    · rw [if_pos ⟨hji, hq⟩, decide_eq_true hji]
      rfl
    · rw [if_neg fun h => hji h.1, decide_eq_false hji]
      rfl
  · rw [if_neg hq, if_neg fun h => hq h.2]

/-- The loop, over a part of the table without repetitions. -/
theorem freePages_bitmap (q : Int) (is : List PageId) (hnodup : is.Nodup) (s : Tlb Page)
    (j : PageId) :
    bitAt (is.foldl (Tlb.freePage q) s).bitmap j =
      if j ∈ is ∧ (s.pageInfoTable j).pid = q then false else bitAt s.bitmap j := by
  induction is generalizing s with
  | nil => rw [if_neg fun h => List.not_mem_nil h.1, List.foldl_nil]
  | cons i is ih =>
    obtain ⟨hi, hnodup⟩ := List.nodup_cons.mp hnodup
    rw [List.foldl_cons, ih hnodup, freePage_pageInfoTable, freePage_bitmap]
    by_cases hji : j = i
    · subst hji
      simp only [hi, false_and, if_false, List.mem_cons, true_or, true_and]
    · simp only [Function.update_of_ne hji, List.mem_cons, hji, false_or, false_and, if_false]

theorem softTlbFree_bitmap (s : Tlb Page) (q : Int) (j : PageId) :
    bitAt (s.softTlbFree q).bitmap j =
      if (s.pageInfoTable j).pid = q then false else bitAt s.bitmap j := by
  have hloop : s.softTlbFree q = pageIds.foldl (Tlb.freePage q) s := rfl
  rw [hloop, freePages_bitmap q _ nodup_pageIds]
  simp only [mem_pageIds, true_and]

theorem samePage_softTlbFree {q : Int} (hj : (s.pageInfoTable j).pid ≠ q) :
    SamePage s (s.softTlbFree q) j := by
  have hmem : (s.softTlbFree q).mem = s.mem := freePages_mem q _ s
  refine ⟨?_, ?_, ?_⟩
  · rw [softTlbFree_pageInfoTable, PageInfo.release, if_neg hj]
  · rw [softTlbFree_bitmap, if_neg hj]
  · rw [hmem]

/-- The pages of the process are free afterwards. -/
theorem softTlbFree_own {q : Int} (hj : (s.pageInfoTable j).pid = q) :
    bitAt (s.softTlbFree q).bitmap j = false ∧ ((s.softTlbFree q).pageInfoTable j).pid = 0 := by
  rw [softTlbFree_bitmap, if_pos hj, softTlbFree_pageInfoTable, PageInfo.release_pid, if_pos hj]
  exact ⟨rfl, rfl⟩

theorem Consistent.softTlbFree (h : Consistent s) (q : Int) : Consistent (s.softTlbFree q) := by
  intro j
  by_cases hj : (s.pageInfoTable j).pid = q
  · obtain ⟨hbit, hpid⟩ := softTlbFree_own hj
    rw [hbit, hpid]
    exact ⟨fun h => Bool.noConfusion h, fun h => absurd rfl h⟩
  · have hsame := samePage_softTlbFree hj
    rw [hsame.bit, hsame.entry]
    exact h j

/-! ## Sequences of calls -/

/-- A call of the loader or of `mmu_free`. -/
inductive Call where
  | load (pid : Int) (reader : UInt32 → Block) (stack : Nat → UInt8) (args : Args)
  | free (pid : Int)

/-- The process that the call is for. -/
def Call.pid : Call → Int
  | .load pid _ _ _ => pid
  | .free pid => pid

/-- A call that returns. The loader is called for a process that has no page; number 0 is the
    owner of the free pages. -/
inductive Completed : Tlb Page → Call → Tlb Page → Prop where
  | load {s s' : Tlb Page} {pid : Int} {reader : UInt32 → Block} {stack : Nat → UInt8}
      {args : Args} (hnone : ∀ i, (s.pageInfoTable i).pid ≠ pid)
      (hload : elfLoad pid reader stack args s = .ok s') :
      Completed s (.load pid reader stack args) s'
  | free {s : Tlb Page} {pid : Int} (hpid : pid ≠ 0) : Completed s (.free pid) (s.softTlbFree pid)

/-- The processes that are loaded and not freed after the calls. -/
def live (calls : List Call) : List Int :=
  calls.foldl
    (fun pids call => match call with
      | .load pid _ _ _ => pid :: pids
      | .free pid => pids.filter fun q => q ≠ pid)
    []

theorem live_load (calls : List Call) {reader : UInt32 → Block} {stack : Nat → UInt8}
    {args : Args} : live (calls ++ [.load p reader stack args]) = p :: live calls := by
  unfold live
  rw [List.foldl_append]
  rfl

theorem mem_live_free (calls : List Call) {q : Int} :
    q ∈ live (calls ++ [.free p]) ↔ q ∈ live calls ∧ q ≠ p := by
  unfold live
  rw [List.foldl_append]
  simp only [List.foldl_cons, List.foldl_nil, List.mem_filter, decide_eq_true_eq]

/-- No page is in use. -/
structure Empty (s : Tlb Page) : Prop where
  bitmap : ∀ b, s.bitmap b = 0
  table : ∀ i, (s.pageInfoTable i).pid = 0

theorem Empty.consistent (h : Empty s) : Consistent s := by
  intro i
  have hbit : bitAt s.bitmap i = false := by
    unfold bitAt
    rw [h.bitmap]
    exact BitVec.getLsbD_zero
  rw [hbit, h.table]
  exact ⟨fun h => Bool.noConfusion h, fun h => absurd rfl h⟩

/-- Where no page is free, the loader maps none. -/
theorem Loading.full (hload : Loading p s s') (hfull : ∀ i, bitAt s.bitmap i = true) :
    s'.bitmap = s.bitmap ∧ s'.pageInfoTable = s.pageInfoTable := by
  induction hload with
  | refl => exact ⟨rfl, rfl⟩
  | tail _ hstep ih =>
    cases hstep with
    | map v halloc =>
      obtain ⟨hbit, _⟩ := pmalloc_ok halloc
      rw [ih.1, hfull] at hbit
      cases hbit
    | store page hi => exact ih

/-- A load needs a free page, so the process is not number 0. -/
theorem Consistent.pid_ne_zero {reader : UInt32 → Block} {stack : Nat → UInt8} {args : Args}
    (h : Consistent s) (hnone : ∀ i, (s.pageInfoTable i).pid ≠ p)
    (hload : elfLoad p reader stack args s = .ok s') : p ≠ 0 := by
  rintro rfl
  obtain ⟨hchain, i, hi⟩ := (elfLoad_loading 0 reader stack args s).of_ok hload
  rw [(hchain.full fun j => (h j).mpr (hnone j)).2] at hi
  exact hnone i hi

theorem Consistent.elfLoad {reader : UInt32 → Block} {stack : Nat → UInt8} {args : Args}
    (h : Consistent s) (hnone : ∀ i, (s.pageInfoTable i).pid ≠ p)
    (hload : elfLoad p reader stack args s = .ok s') : Loaded p s s' :=
  h.loading (h.pid_ne_zero hnone hload) ((elfLoad_loading p reader stack args s).of_ok hload).1

/-- After every call, the bitmap and the table agree, and all pages belong to processes that
    are loaded. -/
theorem Completed.consistent {calls : List Call} (hempty : Empty s₀)
    (hrun : Run Completed s₀ calls s) :
    Consistent s ∧ ∀ i, (s.pageInfoTable i).pid ≠ 0 → (s.pageInfoTable i).pid ∈ live calls := by
  refine hrun.invariant_log (P := fun calls s => Consistent s ∧
    ∀ i, (s.pageInfoTable i).pid ≠ 0 → (s.pageInfoTable i).pid ∈ live calls)
    ⟨hempty.consistent, fun i hi => absurd (hempty.table i) hi⟩ ?_
  rintro calls s call s' ⟨h, hlive⟩ hcall
  cases hcall with
  | load hnone hload =>
    have hloaded := h.elfLoad hnone hload
    refine ⟨hloaded.consistent, fun i hi => ?_⟩
    rw [live_load]
    -- a page keeps its owner, or has got the new process as its owner
    rcases hloaded.owner i with howner | ⟨_, howner⟩
    · rw [howner] at hi ⊢
      exact List.mem_cons_of_mem _ (hlive i hi)
    · rw [howner]
      exact List.mem_cons_self
  | @free pid hpid =>
    refine ⟨h.softTlbFree pid, fun i hi => ?_⟩
    rw [mem_live_free]
    by_cases howner : (s.pageInfoTable i).pid = pid
    · exact absurd (softTlbFree_own howner).2 hi
    · rw [(samePage_softTlbFree howner).entry] at hi ⊢
      exact ⟨hlive i hi, howner⟩

/-- Calls leave the pages of other processes alone. -/
theorem Completed.others {call : Call} (h : Consistent s) (hcall : Completed s call s')
    (hzero : (s.pageInfoTable i).pid ≠ 0) (hother : (s.pageInfoTable i).pid ≠ call.pid) :
    SamePage s s' i ∧ ∀ v < appsPagesBase, s'.mem v = s.mem v := by
  cases hcall with
  | load hnone hload =>
    have hloaded := h.elfLoad hnone hload
    exact ⟨hloaded.others i hzero hother, hloaded.below⟩
  | @free pid hpid =>
    have hmem : (s.softTlbFree pid).mem = s.mem := freePages_mem pid _ s
    exact ⟨samePage_softTlbFree hother, fun v _ => by rw [hmem]⟩

/-- A process that is loaded and freed again leaves the free pages as they were. -/
theorem Loaded.softTlbFree_bit (h : Consistent s) (hloaded : Loaded p s s')
    (hnone : ∀ i, (s.pageInfoTable i).pid ≠ p) (i : PageId) :
    bitAt (s'.softTlbFree p).bitmap i = bitAt s.bitmap i := by
  rw [softTlbFree_bitmap]
  by_cases hzero : (s.pageInfoTable i).pid = 0
  · have hfree : bitAt s.bitmap i = false := by
      rw [← Bool.not_eq_true, h i]
      exact fun hne => hne hzero
    rw [hfree]
    rcases hloaded.owner i with howner | ⟨_, howner⟩
    · rw [hzero] at howner
      have hfree' : bitAt s'.bitmap i = false := by
        rw [← Bool.not_eq_true, hloaded.consistent i]
        exact fun hne => hne howner
      rw [hfree', ite_self]
    · rw [if_pos howner]
  · have hsame := hloaded.others i hzero (hnone i)
    rw [hsame.entry, if_neg (hnone i), hsame.bit]

theorem bitmapTest_ne_zero {bitmap : Fin 128 → UInt8} :
    bitmapTest bitmap i ≠ 0 ↔ bitAt bitmap i = true := by
  rw [Ne, bitmapTest_eq_zero, Bool.not_eq_false]

/-- The ownership of pages is consistent and no page is lost. After every sequence of calls
    that return:

    - a bit of the bitmap is set exactly if the table has an owner for the page;
    - the owner is one process that is loaded and not freed;
    - `mmu_free` clears the entries and bits of the pages of its process and no others;
    - the next call, whichever it is, leaves the entry, the bit and the content of each page
      of the other processes alone, and the user address space too;
    - freeing a process right after it was loaded restores the set of free pages. -/
theorem page_ownership {calls : List Call} (hempty : Empty s₀)
    (hrun : Run Completed s₀ calls s) :
    (∀ i, bitmapTest s.bitmap i ≠ 0 ↔ (s.pageInfoTable i).pid ≠ 0) ∧
    (∀ i, bitmapTest s.bitmap i ≠ 0 → ∃! p, p ∈ live calls ∧ (s.pageInfoTable i).pid = p) ∧
    (∀ p s', Completed s (.free p) s' → ∀ i,
      ((s.pageInfoTable i).pid = p →
        bitmapTest s'.bitmap i = 0 ∧ (s'.pageInfoTable i).pid = 0) ∧
      ((s.pageInfoTable i).pid ≠ p → SamePage s s' i)) ∧
    (∀ call s', Completed s call s' → ∀ i, (s.pageInfoTable i).pid ≠ 0 →
      (s.pageInfoTable i).pid ≠ call.pid →
        SamePage s s' i ∧ ∀ v < appsPagesBase, s'.mem v = s.mem v) ∧
    ∀ p reader stack args s' s'', Completed s (.load p reader stack args) s' →
      Completed s' (.free p) s'' →
      ∀ i, bitmapTest s''.bitmap i = 0 ↔ bitmapTest s.bitmap i = 0 := by
  obtain ⟨h, hlive⟩ := Completed.consistent hempty hrun
  refine ⟨fun i => ?_, fun i hi => ?_, fun p s' hfree i => ?_, fun call s' hcall i => ?_, ?_⟩
  · rw [bitmapTest_ne_zero]
    exact h i
  · -- a page has one entry in the table, so it has one owner
    rw [bitmapTest_ne_zero, h i] at hi
    exact ⟨_, ⟨hlive i hi, rfl⟩, fun q hq => hq.2.symm⟩
  · cases hfree with
    | free hpid =>
      rw [bitmapTest_eq_zero]
      exact ⟨softTlbFree_own, samePage_softTlbFree⟩
  · exact hcall.others h
  · intro p reader stack args s' s'' hload hfree i
    cases hload with
    | load hnone hload =>
      cases hfree with
      | free hpid =>
        rw [bitmapTest_eq_zero, bitmapTest_eq_zero,
          (h.elfLoad hnone hload).softTlbFree_bit h hnone]

/-- All pages are free, and all are zero. -/
def freeMemory : Tlb Page := ⟨fun _ => zeroPage, fun _ => ⟨0, 0⟩, 0, fun _ => 0⟩

theorem empty_freeMemory : Empty freeMemory := ⟨fun _ => rfl, fun _ => rfl⟩

/-- The first block of a program with 16 bytes in the file and 5000 bytes in memory, at
    `0x80208000`. -/
def bssHeader : Nat → UInt8
  -- e_phoff = 52, e_phnum = 1
  | 28 => 52
  | 44 => 1
  -- p_offset = 512
  | 57 => 2
  -- p_vaddr = 0x80208000
  | 61 => 0x80
  | 62 => 0x20
  | 63 => 0x80
  -- p_filesz = 16
  | 68 => 16
  -- p_memsz = 5000
  | 72 => 0x88
  | 73 => 0x13
  | _ => 0

/-- The program: all blocks behind the first one count from 0 to 255 twice. -/
def bssProgram : UInt32 → Block := fun blockno b =>
  if blockno = 0 then bssHeader b.val else UInt8.ofNat b.val

/-- The program as a process, without arguments. -/
def loadBss (pid : Int) : Call := .load pid bssProgram (fun _ => 0) ⟨0, none, by decide⟩

/-- A process that has no pages gets none when another one is loaded. -/
theorem Loaded.none_of_ne {q : Int} (h : Loaded p s s') (hne : q ≠ p)
    (hnone : ∀ i, (s.pageInfoTable i).pid ≠ q) (i : PageId) : (s'.pageInfoTable i).pid ≠ q := by
  rcases h.owner i with hsame | ⟨_, hnew⟩
  · rw [hsame]
    exact hnone i
  · rw [hnew]
    exact hne.symm

/-- Process 3 and process 4 are loaded, one after the other. -/
theorem exists_bothLoaded : ∃ s₁ s₂, Completed freeMemory (loadBss 3) s₁ ∧
    Completed s₁ (loadBss 4) s₂ := by
  have hends : Ends (elfLoad 3 bssProgram (fun _ => 0) ⟨0, none, by decide⟩ freeMemory >>=
      elfLoad 4 bssProgram (fun _ => 0) ⟨0, none, by decide⟩) (fun _ => True) fun _ => False := by
    decide +kernel
  rw [ends_bind] at hends
  obtain ⟨s₁, hfirst, hends'⟩ := hends.exists_ok fun _ he => he
  obtain ⟨s₂, hsecond, _⟩ := hends'.exists_ok fun _ he => he
  have hzero : ∀ i, (freeMemory.pageInfoTable i).pid = 0 := fun _ => rfl
  have hnone : ∀ {q : Int}, q ≠ 0 → ∀ i, (freeMemory.pageInfoTable i).pid ≠ q := by
    intro q hq i
    rw [hzero]
    exact hq.symm
  have hloaded := empty_freeMemory.consistent.elfLoad (hnone (by decide)) hfirst
  exact ⟨s₁, s₂, .load (hnone (by decide)) hfirst,
    .load (hloaded.none_of_ne (by decide) (hnone (by decide))) hsecond⟩

/-- When process 3 is freed, the pages that are left are those of process 4, and they are as they
    were. -/
theorem page_ownership_two : ∃ s₁ s₂, Completed freeMemory (loadBss 3) s₁ ∧
    Completed s₁ (loadBss 4) s₂ ∧ Completed s₂ (.free 3) (s₂.softTlbFree 3) ∧
    (∀ i, bitmapTest (s₂.softTlbFree 3).bitmap i ≠ 0 →
      ((s₂.softTlbFree 3).pageInfoTable i).pid = 4) ∧
    (∀ i, (s₂.pageInfoTable i).pid = 3 → bitmapTest (s₂.softTlbFree 3).bitmap i = 0) ∧
    ∀ i, (s₂.pageInfoTable i).pid = 4 → SamePage s₂ (s₂.softTlbFree 3) i := by
  obtain ⟨s₁, s₂, hfirst, hsecond⟩ := exists_bothLoaded
  have hfree : Completed s₂ (.free 3) (s₂.softTlbFree 3) := .free (by decide)
  have hrun : Run Completed freeMemory [loadBss 3, loadBss 4] s₂ :=
    .cons hfirst (.cons hsecond .nil)
  obtain ⟨_, _, hfrees, hothers, _⟩ := page_ownership empty_freeMemory hrun
  obtain ⟨_, howner, _⟩ := page_ownership empty_freeMemory (.snoc hrun hfree)
  refine ⟨s₁, s₂, hfirst, hsecond, hfree, fun i hi => ?_, fun i hi => ?_, fun i hi => ?_⟩
  · obtain ⟨p, ⟨hlive, hp⟩, _⟩ := howner i hi
    have hpids : live ([loadBss 3, loadBss 4] ++ [.free 3]) = [4] := rfl
    rw [hpids] at hlive
    exact hp.trans (List.mem_singleton.mp hlive)
  · exact ((hfrees 3 _ hfree i).1 hi).1
  · exact (hothers _ _ hfree i (by rw [hi]; decide) (by rw [hi]; decide)).1

end Egos.Loader
