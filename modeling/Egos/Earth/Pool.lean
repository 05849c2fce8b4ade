import Egos.Earth.Alloc
import Egos.Lib.Ends
import Egos.Lib.Transition
import Mathlib.Data.Finset.Card
import Mathlib.Data.Fintype.Card
import Mathlib.Data.UInt

/-!
# The Earth Layer: The Page Pool

`pmalloc` and `pfree` as their callers see them, by address. The conversions between page
indices and addresses work modulo `2 ^ 32`; `paddr_to_pgid` accepts exactly the addresses of
pages of the pool (`paddrToPgid_pageAddr`, `paddrToPgid_of_not_isPage`).

The pool is then a finite set of addresses: `Represents s A` says that the bitmap of `s` holds
the set `A`, and every call that is made as intended follows the same operation on sets.
-/

namespace Egos.Earth.Pool

open Egos.Lib

variable {π : Type}

/-! ## Code -/

/-- `APPS_PAGES_BASE` -/
def appsPagesBaseAddr : UInt32 := 0x80400000

/-- `RAM_END` -/
def ramEnd : UInt32 := 0x80800000

/-- `PAGE_SIZE` -/
def pageSize : UInt32 := 4096

/-- `APPS_PAGES_CNT` -/
def appsPagesCnt : UInt32 := (ramEnd - appsPagesBaseAddr) / pageSize

/-- `pgid_to_paddr`, with the text of its assertion. -/
def pgidToPaddr (pgid : UInt32) : Except String UInt32 :=
  if pgid < appsPagesCnt then .ok (appsPagesBaseAddr + pgid * pageSize)
  else .error "pgid_to_paddr: pgid is too large"

/-- `paddr_to_pgid`, with the texts of its two assertions. -/
def paddrToPgid (paddr : UInt32) : Except String UInt32 :=
  if paddr % pageSize = 0 then
    let pgid := (paddr - appsPagesBaseAddr) / pageSize
    if pgid < appsPagesCnt then .ok pgid else .error "paddr_to_pgid: pgid is too large"
  else .error "paddr_to_pgid: paddr is not page aligned"

/-- `pmalloc`, which returns the address of the page it has found. -/
def pmalloc (s : Tlb π) (zero : π) (clearPage : Bool) : Except String (UInt32 × Tlb π) :=
  match s.pmalloc zero clearPage with
  | .ok (i, s') => (pgidToPaddr (UInt32.ofNat i)).map fun ret => (ret, s')
  | .error fatal => .error fatal.message

/-- `pfree`, given the address of a page. -/
def pfree (s : Tlb π) (paddr : UInt32) : Except String (Tlb π) :=
  (paddrToPgid paddr).map fun pgid => s.pfree (Fin.ofNat 1024 pgid.toNat)

/-! ## Addresses -/

/-- A page-aligned address in `[APPS_PAGES_BASE, RAM_END)`. -/
def IsPage (a : UInt32) : Prop := a % pageSize = 0 ∧ appsPagesBaseAddr ≤ a ∧ a < ramEnd

instance (a : UInt32) : Decidable (IsPage a) := inferInstanceAs (Decidable (_ ∧ _))

/-- The address of page `i`. -/
def pageAddr (i : PageId) : UInt32 := appsPagesBaseAddr + UInt32.ofNat i * pageSize

theorem toNat_ofPageId (i : PageId) : (UInt32.ofNat i).toNat = i := by
  rw [UInt32.toNat_ofNat']
  omega

theorem toNat_pageAddr (i : PageId) : (pageAddr i).toNat = 0x80400000 + 4096 * i := by
  have hi := i.isLt
  rw [pageAddr, UInt32.toNat_add, UInt32.toNat_mul, toNat_ofPageId]
  show (0x80400000 + (i : Nat) * 4096 % 2 ^ 32) % 2 ^ 32 = _
  omega

theorem pageAddr_injective : Function.Injective pageAddr := by
  intro i j h
  have hnat := congrArg UInt32.toNat h
  rw [toNat_pageAddr, toNat_pageAddr] at hnat
  apply Fin.ext
  omega

theorem isPage_iff_toNat {a : UInt32} :
    IsPage a ↔ a.toNat % 4096 = 0 ∧ 0x80400000 ≤ a.toNat ∧ a.toNat < 0x80800000 := by
  rw [IsPage, UInt32.le_iff_toNat_le, UInt32.lt_iff_toNat_lt, ← UInt32.toNat_inj,
    UInt32.toNat_mod]
  rfl

theorem isPage_iff {a : UInt32} : IsPage a ↔ ∃ i, a = pageAddr i := by
  rw [isPage_iff_toNat]
  constructor
  · rintro ⟨halign, hge, hlt⟩
    refine ⟨⟨(a.toNat - 0x80400000) / 4096, by omega⟩, ?_⟩
    rw [← UInt32.toNat_inj, toNat_pageAddr]
    show a.toNat = 0x80400000 + 4096 * ((a.toNat - 0x80400000) / 4096)
    omega
  · rintro ⟨i, rfl⟩
    have hi := i.isLt
    rw [toNat_pageAddr]
    omega

theorem toNat_appsPagesCnt : appsPagesCnt.toNat = 1024 := by
  decide

/-- The index that `paddr_to_pgid` computes, with the wrapping subtraction. -/
theorem toNat_pgid (a : UInt32) :
    ((a - appsPagesBaseAddr) / pageSize).toNat =
      ((2 ^ 32 - 0x80400000 + a.toNat) % 2 ^ 32) / 4096 := by
  rw [UInt32.toNat_div, UInt32.toNat_sub]
  rfl

theorem pgidToPaddr_pageId (i : PageId) : pgidToPaddr (UInt32.ofNat i) = .ok (pageAddr i) := by
  have hlt : UInt32.ofNat i < appsPagesCnt := by
    rw [UInt32.lt_iff_toNat_lt, toNat_ofPageId, toNat_appsPagesCnt]
    exact i.isLt
  simp [pgidToPaddr, hlt, pageAddr]

theorem paddrToPgid_pageAddr (i : PageId) :
    paddrToPgid (pageAddr i) = .ok (UInt32.ofNat i) := by
  have hi := i.isLt
  have halign : pageAddr i % pageSize = 0 := (isPage_iff.mpr ⟨i, rfl⟩).1
  have hpgid : (pageAddr i - appsPagesBaseAddr) / pageSize = UInt32.ofNat i := by
    rw [← UInt32.toNat_inj, toNat_pgid, toNat_pageAddr, toNat_ofPageId]
    omega
  have hlt : UInt32.ofNat i < appsPagesCnt := by
    rw [UInt32.lt_iff_toNat_lt, toNat_ofPageId, toNat_appsPagesCnt]
    exact hi
  simp [paddrToPgid, halign, hpgid, hlt]

/-- An unaligned address ends in the first assertion, any other address outside the pool in
    the second: below the pool the subtraction wraps to a large index. -/
theorem paddrToPgid_of_not_isPage {a : UInt32} (h : ¬ IsPage a) :
    paddrToPgid a = .error (if a % pageSize = 0 then "paddr_to_pgid: pgid is too large"
      else "paddr_to_pgid: paddr is not page aligned") := by
  by_cases halign : a % pageSize = 0
  · have hge : ¬ (a - appsPagesBaseAddr) / pageSize < appsPagesCnt := by
      have hmod : a.toNat % 4096 = 0 := by
        rw [← UInt32.toNat_inj, UInt32.toNat_mod] at halign
        exact halign
      have ha := a.toNat_lt
      rw [isPage_iff_toNat] at h
      rw [UInt32.lt_iff_toNat_lt, toNat_pgid, toNat_appsPagesCnt]
      omega
    simp [paddrToPgid, halign, hge]
  · simp [paddrToPgid, halign]

/-! ## Calls -/

theorem pfree_pageAddr (s : Tlb π) (i : PageId) : pfree s (pageAddr i) = .ok (s.pfree i) := by
  have hi : Fin.ofNat 1024 (UInt32.ofNat i).toNat = i := by
    rw [toNat_ofPageId]
    exact Fin.ext (Nat.mod_eq_of_lt i.isLt)
  rw [pfree, paddrToPgid_pageAddr]
  show Except.ok (s.pfree (Fin.ofNat 1024 (UInt32.ofNat i).toNat)) = _
  rw [hi]

theorem pmalloc_eq_ok {s s' : Tlb π} {zero : π} {clearPage : Bool} {addr : UInt32} :
    pmalloc s zero clearPage = .ok (addr, s') ↔
      ∃ i, s.pmalloc zero clearPage = .ok (i, s') ∧ addr = pageAddr i := by
  rw [pmalloc]
  cases hcall : s.pmalloc zero clearPage with
  | error fatal => simp
  | ok r =>
    obtain ⟨i, s₁⟩ := r
    simp only [pgidToPaddr_pageId, Except.map, Except.ok.injEq, Prod.mk.injEq]
    constructor
    · rintro ⟨rfl, rfl⟩
      exact ⟨i, ⟨rfl, rfl⟩, rfl⟩
    · rintro ⟨j, ⟨rfl, rfl⟩, rfl⟩
      exact ⟨rfl, rfl⟩

/-- The scan goes up, so the pages below the one found are taken. -/
theorem pmalloc_lowest {s s' : Tlb π} {zero : π} {clearPage : Bool} {i j : PageId}
    (h : s.pmalloc zero clearPage = .ok (i, s')) (hj : j < i) : bitAt s.bitmap j = true := by
  have hsorted : pageIds.Pairwise (· < ·) := by
    unfold pageIds
    exact List.pairwise_lt_finRange 1024
  obtain ⟨-, before, after, hsplit, hbefore⟩ :=
    List.find?_eq_some_iff_append.mp (pmalloc_find h).1
  -- `j` stands before `i` in the scan
  have hmem : j ∈ before := by
    have hj' := mem_pageIds j
    rw [hsplit] at hj' hsorted
    rcases List.mem_append.mp hj' with hb | ha
    · exact hb
    · rcases List.mem_cons.mp ha with rfl | ha
      · exact absurd hj (lt_irrefl _)
      · have hij := (List.pairwise_cons.mp (List.pairwise_append.mp hsorted).2.1).1 j ha
        exact absurd hj (lt_asymm hij)
  have htaken := hbefore j hmem
  rw [Bool.not_eq_true', decide_eq_false_iff_not, bitmapTest_eq_zero, Bool.not_eq_false]
    at htaken
  exact htaken

theorem pmalloc_eq_error {s : Tlb π} {zero : π} {clearPage : Bool} {msg : String} :
    pmalloc s zero clearPage = .error msg ↔
      msg = Fatal.noMorePage.message ∧ ∀ i, bitAt s.bitmap i = true := by
  rw [pmalloc, Tlb.pmalloc]
  cases hfind : pageIds.find? fun i => decide (bitmapTest s.bitmap i = 0) with
  | none =>
    have hall : ∀ i, bitAt s.bitmap i = true := by
      intro i
      have hi := List.find?_eq_none.mp hfind i (mem_pageIds i)
      rwa [decide_eq_true_eq, bitmapTest_eq_zero, Bool.not_eq_false] at hi
    simp only [Except.error.injEq]
    exact ⟨fun h => ⟨h.symm, hall⟩, fun h => h.1.symm⟩
  | some i =>
    have hi := List.find?_some hfind
    rw [decide_eq_true_eq, bitmapTest_eq_zero] at hi
    simp only [pgidToPaddr_pageId, Except.map]
    constructor
    · intro h
      cases h
    · rintro ⟨-, hall⟩
      rw [hall i] at hi
      cases hi

/-! ## The pool as a set -/

/-- The bitmap holds the set of addresses `A`. -/
structure Represents (s : Tlb π) (A : Finset UInt32) : Prop where
  page : ∀ a ∈ A, IsPage a
  bit : ∀ i, bitAt s.bitmap i = true ↔ pageAddr i ∈ A

/-- A call and the address it returns or is given. -/
inductive Op where
  | pmalloc (clearPage : Bool) (addr : UInt32)
  | pfree (addr : UInt32)
  deriving DecidableEq

/-- One call that returns. With the state goes the set of addresses that `pmalloc` has returned
    and that were not freed since; `pfree` is only given one of them. -/
inductive Step (zero : π) : Tlb π × Finset UInt32 → Op → Tlb π × Finset UInt32 → Prop where
  | pmalloc {s s' : Tlb π} {A : Finset UInt32} {clearPage : Bool} {addr : UInt32} :
      pmalloc s zero clearPage = .ok (addr, s') →
      Step zero (s, A) (.pmalloc clearPage addr) (s', insert addr A)
  | pfree {s s' : Tlb π} {A : Finset UInt32} {addr : UInt32} :
      addr ∈ A → pfree s addr = .ok s' → Step zero (s, A) (.pfree addr) (s', A.erase addr)

section Refinement

variable {zero : π} {s s' : Tlb π} {A : Finset UInt32} {addr : UInt32}

theorem represents_empty (h : ∀ b, s.bitmap b = 0) : Represents s ∅ := by
  refine ⟨by simp, ?_⟩
  intro i
  simp [bitAt, h]

theorem Represents.insert {clearPage : Bool} (h : Represents s A)
    (hcall : Pool.pmalloc s zero clearPage = .ok (addr, s')) :
    Represents s' (Insert.insert addr A) := by
  obtain ⟨i, hi, rfl⟩ := pmalloc_eq_ok.mp hcall
  obtain ⟨-, hbitmap, -⟩ := pmalloc_ok hi
  refine ⟨?_, ?_⟩
  · intro a ha
    rcases Finset.mem_insert.mp ha with rfl | ha
    · exact isPage_iff.mpr ⟨i, rfl⟩
    · exact h.page a ha
  · intro j
    rw [hbitmap, bitAt_bitmapSet, Bool.or_eq_true, decide_eq_true_eq, h.bit,
      Finset.mem_insert, pageAddr_injective.eq_iff]

/-- Freeing an allocated page returns, and takes exactly that page out of the set. -/
theorem Represents.erase (h : Represents s A) (haddr : addr ∈ A) :
    ∃ s', Pool.pfree s addr = .ok s' ∧ Represents s' (A.erase addr) := by
  obtain ⟨i, rfl⟩ := isPage_iff.mp (h.page addr haddr)
  refine ⟨s.pfree i, pfree_pageAddr s i, ?_, ?_⟩
  · intro a ha
    exact h.page a (Finset.mem_of_mem_erase ha)
  · intro j
    show bitAt (bitmapClear s.bitmap i) j = true ↔ _
    rw [bitAt_bitmapClear, Bool.and_eq_true, Bool.not_eq_true', decide_eq_false_iff_not, h.bit,
      Finset.mem_erase, Ne, pageAddr_injective.eq_iff]

theorem Represents.step {op : Op} {A' : Finset UInt32} (h : Represents s A)
    (hstep : Step zero (s, A) op (s', A')) : Represents s' A' := by
  cases hstep with
  | pmalloc hcall => exact h.insert hcall
  | pfree haddr hcall =>
    obtain ⟨s₁, hfree, hrep⟩ := h.erase haddr
    rw [hcall, Except.ok.injEq] at hfree
    rwa [hfree]

/-- `pmalloc` returns the lowest page that is not in the set. -/
theorem Represents.pmalloc_least {clearPage : Bool} (h : Represents s A)
    (hcall : Pool.pmalloc s zero clearPage = .ok (addr, s')) :
    IsPage addr ∧ addr ∉ A ∧ ∀ a, IsPage a → a ∉ A → addr ≤ a := by
  obtain ⟨i, hi, rfl⟩ := pmalloc_eq_ok.mp hcall
  refine ⟨isPage_iff.mpr ⟨i, rfl⟩, ?_, ?_⟩
  · intro hmem
    rw [← h.bit, (pmalloc_ok hi).1] at hmem
    cases hmem
  · intro a hpage ha
    obtain ⟨j, rfl⟩ := isPage_iff.mp hpage
    have hle : i ≤ j := by
      by_contra hlt
      exact ha ((h.bit j).mp (pmalloc_lowest hi (not_le.mp hlt)))
    rw [UInt32.le_iff_toNat_le, toNat_pageAddr, toNat_pageAddr]
    have hnat : (i : Nat) ≤ j := hle
    omega

/-- The pool has `APPS_PAGES_CNT` pages. -/
theorem exists_pages : ∃ pages : Finset UInt32, pages.card = 1024 ∧ ∀ a, a ∈ pages ↔ IsPage a := by
  refine ⟨Finset.univ.image pageAddr, ?_, ?_⟩
  · rw [Finset.card_image_of_injective _ pageAddr_injective, Finset.card_univ, Fintype.card_fin]
  · intro a
    rw [Finset.mem_image, isPage_iff]
    constructor
    · rintro ⟨i, -, rfl⟩
      exact ⟨i, rfl⟩
    · rintro ⟨i, rfl⟩
      exact ⟨i, Finset.mem_univ i, rfl⟩

/-- The set is full when it has as many elements as the pool. -/
theorem Represents.full_iff (h : Represents s A) :
    (∀ a, IsPage a → a ∈ A) ↔ A.card = 1024 := by
  obtain ⟨pages, hcard, hpages⟩ := exists_pages
  have hsub : A ⊆ pages := fun a ha => (hpages a).mpr (h.page a ha)
  constructor
  · intro hall
    have heq : A = pages := hsub.antisymm fun a ha => hall a ((hpages a).mp ha)
    rw [heq, hcard]
  · intro hfull a ha
    rw [Finset.eq_of_subset_of_card_le hsub (by rw [hcard, hfull]), hpages]
    exact ha

theorem Represents.test_iff (h : Represents s A) (i : PageId) :
    bitmapTest s.bitmap i ≠ 0 ↔ pageAddr i ∈ A := by
  rw [Ne, bitmapTest_eq_zero, Bool.not_eq_false, h.bit]

end Refinement

/-- Over every sequence of calls in which `pfree` is only given addresses that are allocated,
    the bitmap is the set of allocated pages. `pmalloc` returns the lowest page of the pool
    that is not in it and adds that page, and it stops the machine exactly if all 1024 pages are
    allocated; `pfree` returns and takes its own page out. The conversions of addresses are
    inverse to each other on the pool and end in an assertion everywhere else. -/
theorem pool_implements_set (zero : π) (s₀ : Tlb π) (hzero : ∀ b, s₀.bitmap b = 0)
    (ops : List Op) (s : Tlb π) (A : Finset UInt32)
    (hrun : Run (Step zero) (s₀, ∅) ops (s, A)) :
    (∀ i, bitmapTest s.bitmap i ≠ 0 ↔ pageAddr i ∈ A) ∧
    (∀ clearPage addr s', pmalloc s zero clearPage = .ok (addr, s') →
      IsPage addr ∧ addr ∉ A ∧ (∀ a, IsPage a → a ∉ A → addr ≤ a) ∧
      ∀ i, bitmapTest s'.bitmap i ≠ 0 ↔ pageAddr i = addr ∨ bitmapTest s.bitmap i ≠ 0) ∧
    (∀ clearPage msg, pmalloc s zero clearPage = .error msg ↔
      msg = "pmalloc: no more available page" ∧ A.card = 1024) ∧
    (A.card = 1024 ↔ ∀ a, IsPage a → a ∈ A) ∧
    (∀ addr ∈ A, ∃ s', pfree s addr = .ok s' ∧
      ∀ i, bitmapTest s'.bitmap i ≠ 0 ↔ pageAddr i ≠ addr ∧ bitmapTest s.bitmap i ≠ 0) ∧
    (∀ pgid, pgid < appsPagesCnt →
      ∃ a, pgidToPaddr pgid = .ok a ∧ IsPage a ∧ paddrToPgid a = .ok pgid) ∧
    (∀ a, IsPage a →
      ∃ pgid, paddrToPgid a = .ok pgid ∧ pgid < appsPagesCnt ∧ pgidToPaddr pgid = .ok a) ∧
    (∀ a, ¬ IsPage a → ∃ msg, paddrToPgid a = .error msg) := by
  have hrep : Represents s A :=
    hrun.invariant (P := fun state => Represents state.1 state.2) (represents_empty hzero)
      fun _ _ _ h hstep => h.step hstep
  refine ⟨hrep.test_iff, ?_, ?_, hrep.full_iff.symm, ?_, ?_, ?_, ?_⟩
  · intro clearPage addr s' hcall
    obtain ⟨hpage, hnew, hleast⟩ := hrep.pmalloc_least hcall
    refine ⟨hpage, hnew, hleast, ?_⟩
    intro i
    rw [(hrep.insert hcall).test_iff, hrep.test_iff, Finset.mem_insert]
  · intro clearPage msg
    rw [pmalloc_eq_error, ← hrep.full_iff]
    refine and_congr Iff.rfl ⟨?_, ?_⟩
    · intro hall a ha
      obtain ⟨i, rfl⟩ := isPage_iff.mp ha
      exact (hrep.bit i).mp (hall i)
    · intro hall i
      exact (hrep.bit i).mpr (hall _ (isPage_iff.mpr ⟨i, rfl⟩))
  · intro addr haddr
    obtain ⟨s', hcall, hrep'⟩ := hrep.erase haddr
    refine ⟨s', hcall, ?_⟩
    intro i
    rw [hrep'.test_iff, hrep.test_iff, Finset.mem_erase]
  · intro pgid hlt
    rw [UInt32.lt_iff_toNat_lt, toNat_appsPagesCnt] at hlt
    obtain ⟨i, rfl⟩ : ∃ i : PageId, pgid = UInt32.ofNat i :=
      ⟨⟨pgid.toNat, hlt⟩, UInt32.ofNat_toNat.symm⟩
    exact ⟨pageAddr i, pgidToPaddr_pageId i, isPage_iff.mpr ⟨i, rfl⟩, paddrToPgid_pageAddr i⟩
  · intro a ha
    obtain ⟨i, rfl⟩ := isPage_iff.mp ha
    refine ⟨UInt32.ofNat i, paddrToPgid_pageAddr i, ?_, pgidToPaddr_pageId i⟩
    rw [UInt32.lt_iff_toNat_lt, toNat_ofPageId, toNat_appsPagesCnt]
    exact i.isLt
  · intro a ha
    exact ⟨_, paddrToPgid_of_not_isPage ha⟩

/-- Memory in which no page has been handed out. -/
def untouched : Tlb Unit := ⟨fun _ => (), fun _ => ⟨0, 0⟩, 0, fun _ => 0⟩

/-- Two pages are allocated and the first one is freed. Then the bit of the second one is set and
    that of the first is not, and the first one is the next to be allocated. -/
theorem pool_implements_set_reuse : ∃ s, Run (Step ()) (untouched, ∅)
    [.pmalloc true 0x80400000, .pmalloc false 0x80401000, .pfree 0x80400000] (s, {0x80401000}) ∧
    bitmapTest s.bitmap 0 = 0 ∧ bitmapTest s.bitmap 1 ≠ 0 ∧
    ∀ clearPage addr s', pmalloc s () clearPage = .ok (addr, s') → addr = 0x80400000 := by
  have hends : Ends (pmalloc untouched () true) (fun r => r.1 = 0x80400000 ∧
      Ends (pmalloc r.2 () false) (fun r' => r'.1 = 0x80401000 ∧
        Ends (pfree r'.2 0x80400000) (fun _ => True) fun _ => False) fun _ => False)
      fun _ => False := by
    decide +kernel
  obtain ⟨⟨_, s₁⟩, hfirst, rfl, hends⟩ := hends.exists_ok fun _ he => he
  obtain ⟨⟨_, s₂⟩, hsecond, rfl, hends⟩ := hends.exists_ok fun _ he => he
  obtain ⟨s₃, hfree, _⟩ := hends.exists_ok fun _ he => he
  have hrun : Run (Step ()) (untouched, ∅)
      [.pmalloc true 0x80400000, .pmalloc false 0x80401000, .pfree 0x80400000]
      (s₃, {0x80401000}) :=
    .cons (.pmalloc hfirst) (.cons (.pmalloc hsecond) (.cons (.pfree (by decide) hfree) .nil))
  obtain ⟨hbits, hnext, _⟩ := pool_implements_set () untouched (fun _ => rfl) _ s₃ _ hrun
  refine ⟨s₃, hrun, ?_, ?_, fun clearPage addr s' hcall => ?_⟩
  · have hnot : ¬ bitmapTest s₃.bitmap 0 ≠ 0 := by
      rw [hbits]
      decide
    exact not_ne_iff.mp hnot
  · rw [hbits]
    decide
  · obtain ⟨hpage, _, hleast, _⟩ := hnext clearPage addr s' hcall
    exact UInt32.le_antisymm (hleast 0x80400000 (by decide) (by decide)) hpage.2.1

end Egos.Earth.Pool
