import Egos.Earth.SoftTlb

/-!
# The Earth Layer: The Bitmap

The bytes of the bitmap are a set of pages: `bitmap_set` adds one page, `bitmap_clear` takes
one out, and `pmalloc` hands out a page that was not in it.

- `Reserved`: every page that is recorded for a process is in the set, so `pmalloc` never
  hands out a page in use (`Reserved.pmalloc_free`). The operations of the software TLB keep
  it.
-/

namespace Egos.Earth

open Egos.Lib

variable {π : Type} {s s' : Tlb π} {p q : Int} {v : Nat} {i j : PageId}
  {bitmap : Fin 128 → UInt8}

/-! ## Bits -/

/-- The byte `1 << n` has the bit `n` alone. -/
theorem mask_getLsbD : ∀ n < 8, ∀ m < 8,
    (1 <<< UInt8.ofNat n : UInt8).toBitVec.getLsbD m = decide (m = n) := by
  decide

theorem and_mask_eq_zero (x : UInt8) {n : Nat} (hn : n < 8) :
    x &&& (1 <<< UInt8.ofNat n) = 0 ↔ x.toBitVec.getLsbD n = false := by
  have hzero : (0 : UInt8).toBitVec = 0#8 := rfl
  rw [← UInt8.toBitVec_inj, UInt8.toBitVec_and, hzero]
  constructor
  · intro h
    have hbit := congrArg (fun b => b.getLsbD n) h
    simpa only [BitVec.getLsbD_and, mask_getLsbD n hn n hn, decide_true, Bool.and_true,
      BitVec.getLsbD_zero] using hbit
  · intro h
    apply BitVec.eq_of_getLsbD_eq
    intro m hm
    rw [BitVec.getLsbD_and, mask_getLsbD n hn m hm, BitVec.getLsbD_zero]
    by_cases hmn : m = n
    · rw [hmn, h, Bool.false_and]
    · rw [decide_eq_false hmn, Bool.and_false]

/-- The bit of the bitmap that stands for the page. -/
def bitAt (bitmap : Fin 128 → UInt8) (i : PageId) : Bool :=
  (bitmap (bitOf i).1).toBitVec.getLsbD (i.val % 8)

theorem bitmapTest_eq_zero : bitmapTest bitmap i = 0 ↔ bitAt bitmap i = false :=
  and_mask_eq_zero _ (Nat.mod_lt _ (by decide))

/-- A page is its byte and its bit in the byte. -/
theorem eq_of_bitOf (hbyte : (bitOf j).1 = (bitOf i).1) (hbit : j.val % 8 = i.val % 8) : j = i := by
  have hdiv : j.val / 8 = i.val / 8 := congrArg Fin.val hbyte
  apply Fin.ext
  omega

theorem mask_bitOf (hbyte : (bitOf j).1 = (bitOf i).1) :
    (bitOf i).2.toBitVec.getLsbD (j.val % 8) = decide (j = i) := by
  rw [bitOf, mask_getLsbD _ (Nat.mod_lt _ (by decide)) _ (Nat.mod_lt _ (by decide))]
  exact decide_eq_decide.mpr ⟨eq_of_bitOf hbyte, fun h => by rw [h]⟩

section SetClear

variable (bitmap) (i j : PageId)

theorem bitAt_bitmapSet :
    bitAt (bitmapSet bitmap i) j = (decide (j = i) || bitAt bitmap j) := by
  unfold bitAt bitmapSet
  by_cases hbyte : (bitOf j).1 = (bitOf i).1
  · rw [hbyte, Function.update_self, UInt8.toBitVec_or, BitVec.getLsbD_or, mask_bitOf hbyte,
      Bool.or_comm]
  · have hne : j ≠ i := fun h => hbyte (by rw [h])
    rw [Function.update_of_ne hbyte, decide_eq_false hne, Bool.false_or]

theorem bitAt_bitmapClear :
    bitAt (bitmapClear bitmap i) j = (!decide (j = i) && bitAt bitmap j) := by
  unfold bitAt bitmapClear
  by_cases hbyte : (bitOf j).1 = (bitOf i).1
  · have hlt : j.val % 8 < 8 := Nat.mod_lt _ (by decide)
    rw [hbyte, Function.update_self, UInt8.toBitVec_and, BitVec.getLsbD_and, UInt8.toBitVec_not,
      BitVec.getLsbD_not, mask_bitOf hbyte, decide_eq_true hlt, Bool.true_and, Bool.and_comm]
  · have hne : j ≠ i := fun h => hbyte (by rw [h])
    rw [Function.update_of_ne hbyte, decide_eq_false hne, Bool.not_false, Bool.true_and]

end SetClear

/-! ## Pages in use -/

/-- Every page that is recorded for a process has its bit set. -/
def Reserved (s : Tlb π) : Prop :=
  ∀ i, (s.pageInfoTable i).pid ≠ 0 → bitAt s.bitmap i = true

/-- The page that `pmalloc` returns is the one its scan finds. -/
theorem pmalloc_find {zero : π} {clearPage : Bool} (h : s.pmalloc zero clearPage = .ok (i, s')) :
    (pageIds.find? fun i => decide (bitmapTest s.bitmap i = 0)) = some i ∧
      s' = if clearPage then
          ({ s with bitmap := bitmapSet s.bitmap i } : Tlb π).store (pageOfId i) zero
        else { s with bitmap := bitmapSet s.bitmap i } := by
  unfold Tlb.pmalloc at h
  cases hfind : pageIds.find? fun i => decide (bitmapTest s.bitmap i = 0) with
  | none =>
    rw [hfind] at h
    cases h
  | some j =>
    rw [hfind] at h
    obtain ⟨rfl, rfl⟩ := Prod.mk.inj (Except.ok.inj h)
    exact ⟨rfl, rfl⟩

/-- `pmalloc` finds a page whose bit is not set, and sets it. -/
theorem pmalloc_ok {zero : π} {clearPage : Bool} (h : s.pmalloc zero clearPage = .ok (i, s')) :
    bitAt s.bitmap i = false ∧ s'.bitmap = bitmapSet s.bitmap i ∧
      s'.pageInfoTable = s.pageInfoTable ∧ s'.currVmPid = s.currVmPid := by
  obtain ⟨hfind, rfl⟩ := pmalloc_find h
  have hi := List.find?_some hfind
  rw [decide_eq_true_eq, bitmapTest_eq_zero] at hi
  refine ⟨hi, ?_, ?_, ?_⟩ <;> cases clearPage <;> rfl

section Reserved

variable (h : Reserved s)

include h in
theorem Reserved.congr (htable : s'.pageInfoTable = s.pageInfoTable)
    (hbitmap : s'.bitmap = s.bitmap) : Reserved s' := by
  unfold Reserved
  rw [htable, hbitmap]
  exact h

include h in
/-- `pmalloc` hands out a page that belongs to nobody. -/
theorem Reserved.pmalloc_free {zero : π} {clearPage : Bool}
    (halloc : s.pmalloc zero clearPage = .ok (i, s')) : (s.pageInfoTable i).pid = 0 := by
  obtain ⟨hbit, _⟩ := pmalloc_ok halloc
  by_contra hpid
  rw [h i hpid] at hbit
  cases hbit

include h in
theorem Reserved.pmalloc {zero : π} {clearPage : Bool}
    (halloc : s.pmalloc zero clearPage = .ok (i, s')) : Reserved s' := by
  obtain ⟨_, hbitmap, htable, _⟩ := pmalloc_ok halloc
  intro j hj
  rw [htable] at hj
  rw [hbitmap, bitAt_bitmapSet, h j hj, Bool.or_true]

include h in
theorem Reserved.softTlbMap (hbit : bitAt s.bitmap i = true) : Reserved (s.softTlbMap p v i) := by
  intro j hj
  by_cases hji : j = i
  · rw [hji]
    exact hbit
  · rw [softTlbMap_pageInfoTable_of_ne s p v hji] at hj
    exact h j hj

include h in
/-- The entry is cleared before the bit, and in the same turn. -/
theorem Reserved.freePage (q : Int) (i : PageId) : Reserved (s.freePage q i) := by
  intro j hj
  rw [freePage_pageInfoTable] at hj
  by_cases hji : j = i
  · subst hji
    rw [Function.update_self, PageInfo.release_pid] at hj
    -- the entry still belongs to somebody, so nothing was done
    have hq : (s.pageInfoTable j).pid ≠ q := fun heq => hj (if_pos heq)
    rw [if_neg hq] at hj
    unfold Tlb.freePage
    rw [if_neg hq]
    exact h j hj
  · rw [Function.update_of_ne hji] at hj
    have hbit := h j hj
    unfold Tlb.freePage
    split_ifs
    · show bitAt (bitmapClear s.bitmap i) j = true
      rw [bitAt_bitmapClear, decide_eq_false hji, hbit]
      rfl
    · exact hbit

end Reserved

end Egos.Earth
