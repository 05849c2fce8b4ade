import Egos.Lib.RadixTree
import Egos.TreeDisk.Code
import Mathlib.Tactic.NormNum

/-!
# The Tree File System: Levels and Index Paths

The shifts of the code are base-128 arithmetic: `refIndex offset n` is digit `n` of the
offset, and the level loop counts how many digits a number needs. The loop reaches shifts
of 35 bits on 32-bit words, where `log_shift_r` returns 0 instead of shifting. An index
path is then a base-128 numeral, and a new root above the tree is a zero in front of it.
-/

namespace Egos.TreeDisk

open Egos.Lib.RadixTree

/-! ## Shifts -/

@[simp] theorem logRpb_eq : logRpb = 7 := by
  decide

/-- `log_shift_r` divides, for every number of bits. -/
theorem toNat_logShiftR (x : BlockNo) (nbits : Nat) :
    (logShiftR x nbits).toNat = x.toNat / 2 ^ nbits := by
  unfold logShiftR
  split_ifs with h
  · have hx : x.toNat < 2 ^ nbits :=
      lt_of_lt_of_le x.toNat_lt (Nat.pow_le_pow_right (by decide) h)
    rw [Nat.div_eq_of_lt hx]
    rfl
  · have hmod : (UInt32.ofNat nbits).toNat % 32 = nbits := by
      rw [UInt32.toNat_ofNat']
      omega
    rw [UInt32.toNat_shiftRight, hmod, Nat.shiftRight_eq_div_pow]

theorem two_pow_levels (n : Nat) : 2 ^ (n * logRpb) = 128 ^ n := by
  rw [logRpb_eq, mul_comm, pow_mul]
  norm_num

/-- The index the code takes at level `n` is digit `n` of the offset in base 128. -/
theorem refIndex_eq_digit (offset : BlockNo) (n : Nat) :
    refIndex offset n = digit 128 n offset.toNat := by
  apply Fin.ext
  show (logShiftR offset (n * logRpb) % refsPerBlock).toNat = offset.toNat / 128 ^ n % 128
  rw [UInt32.toNat_mod, toNat_logShiftR, two_pow_levels]
  rfl

/-- The test of the level loop. -/
theorem logShiftR_eq_zero_iff (x : BlockNo) (n : Nat) :
    logShiftR x (n * logRpb) = 0 ↔ x.toNat < 128 ^ n := by
  rw [← UInt32.toNat_inj, toNat_logShiftR, two_pow_levels]
  show x.toNat / 128 ^ n = 0 ↔ _
  rw [Nat.div_eq_zero_iff]
  simp

/-! ## The level loop -/

theorem lt_pow_five (x : BlockNo) : x.toNat < 128 ^ 5 :=
  lt_trans x.toNat_lt (by norm_num)

/-- The loop stops at the first level count that has room for `x`. The induction is on
    the turns left; five levels are always enough, so the turns never run out. -/
theorem levelLoop_spec (x : BlockNo) (fuel n : Nat) (hfuel : 5 ≤ n + fuel)
    (hbelow : ∀ m < n, 128 ^ m ≤ x.toNat) :
    x.toNat < 128 ^ levelLoop x fuel n ∧ ∀ m < levelLoop x fuel n, 128 ^ m ≤ x.toNat := by
  induction fuel generalizing n with
  | zero =>
    have hpow : 128 ^ 5 ≤ 128 ^ n := Nat.pow_le_pow_right (by decide) (by omega)
    exact ⟨lt_of_lt_of_le (lt_pow_five x) hpow, hbelow⟩
  | succ fuel ih =>
    rw [levelLoop]
    split_ifs with h
    · rw [Ne, logShiftR_eq_zero_iff, not_lt] at h
      apply ih (n + 1) (by omega)
      intro m hm
      rcases Nat.lt_succ_iff_lt_or_eq.mp hm with hlt | rfl
      · exact hbelow m hlt
      · exact h
    · rw [not_not, logShiftR_eq_zero_iff] at h
      exact ⟨h, hbelow⟩

theorem lt_pow_levels (x : BlockNo) : x.toNat < 128 ^ levels x :=
  (levelLoop_spec x 32 0 (by decide) (by simp)).1

theorem pow_le_of_lt_levels {x : BlockNo} {m : Nat} (h : m < levels x) : 128 ^ m ≤ x.toNat :=
  (levelLoop_spec x 32 0 (by decide) (by simp)).2 m h

theorem levels_le_of_lt_pow {x : BlockNo} {m : Nat} (h : x.toNat < 128 ^ m) : levels x ≤ m := by
  by_contra hlt
  exact absurd (pow_le_of_lt_levels (not_le.mp hlt)) (not_le.mpr h)

theorem levels_mono {x y : BlockNo} (h : x.toNat ≤ y.toNat) : levels x ≤ levels y :=
  levels_le_of_lt_pow (lt_of_le_of_lt h (lt_pow_levels y))

theorem levels_le_five (x : BlockNo) : levels x ≤ 5 :=
  levels_le_of_lt_pow (lt_pow_five x)

/-! ## The depth of a file -/

theorem toNat_sub_one {n : BlockNo} (h : 0 < n.toNat) : (n - 1).toNat = n.toNat - 1 := by
  rw [UInt32.toNat_sub_of_le]
  · rfl
  · rw [UInt32.le_iff_toNat_le]
    exact h

theorem treeDepth_zero : treeDepth 0 = 0 := rfl

theorem treeDepth_of_pos {n : BlockNo} (h : 0 < n.toNat) : treeDepth n = levels (n - 1) := by
  have hpos : n > 0 := UInt32.lt_iff_toNat_lt.mpr h
  simp [treeDepth, hpos]

/-- Every offset below the size has a path of the file's depth. -/
theorem le_pow_treeDepth (n : BlockNo) : n.toNat ≤ 128 ^ treeDepth n := by
  rcases Nat.eq_zero_or_pos n.toNat with h | h
  · rw [h]
    exact Nat.zero_le _
  · rw [treeDepth_of_pos h]
    have hlt := lt_pow_levels (n - 1)
    rw [toNat_sub_one h] at hlt
    omega

/-- `offset + 1` does not wrap below the last offset. -/
theorem toNat_add_one {offset : BlockNo} (h : offset.toNat ≤ 2 ^ 32 - 2) :
    (offset + 1).toNat = offset.toNat + 1 := by
  rw [UInt32.toNat_add]
  show (offset.toNat + 1) % 2 ^ 32 = _
  omega

/-- A file that ends right after `offset` has as many levels as `offset` needs. -/
theorem treeDepth_add_one {offset : BlockNo} (h : offset.toNat ≤ 2 ^ 32 - 2) :
    treeDepth (offset + 1) = levels offset := by
  have hadd := toNat_add_one h
  rw [treeDepth_of_pos (by omega)]
  congr 1
  rw [← UInt32.toNat_inj, toNat_sub_one (by omega), hadd]
  rfl

/-- Enlarging a file never needs fewer levels. -/
theorem treeDepth_le_levels {n offset : BlockNo} (h : n.toNat ≤ offset.toNat) :
    treeDepth n ≤ levels offset := by
  rcases Nat.eq_zero_or_pos n.toNat with hn | hn
  · have hzero : n = 0 := UInt32.toNat_inj.mp hn
    rw [hzero, treeDepth_zero]
    exact Nat.zero_le _
  · rw [treeDepth_of_pos hn]
    apply levels_mono
    rw [toNat_sub_one hn]
    omega

/-! ## Index paths -/

/-- The indices a walk takes from the root down, in a tree with `nlevels` levels:
    `log_shift_r(offset, l * log_rpb) % REFS_PER_BLOCK` for `l = nlevels - 1` down to 0. -/
def indexPath (offset : BlockNo) (nlevels : Nat) : List (Fin 128) :=
  (List.range nlevels).reverse.map (refIndex offset)

@[simp] theorem indexPath_zero (offset : BlockNo) : indexPath offset 0 = [] := rfl

@[simp] theorem indexPath_succ (offset : BlockNo) (n : Nat) :
    indexPath offset (n + 1) = refIndex offset n :: indexPath offset n := by
  simp [indexPath, List.range_succ]

/-- A path of `n` indices is the offset modulo `128 ^ n`. -/
theorem indexPath_eq_iff {offset offset' : BlockNo} {n : Nat} :
    indexPath offset n = indexPath offset' n ↔
      offset.toNat % 128 ^ n = offset'.toNat % 128 ^ n := by
  induction n with
  | zero => simp [Nat.mod_one]
  | succ n ih =>
    rw [indexPath_succ, indexPath_succ, List.cons.injEq, ih, refIndex_eq_digit,
      refIndex_eq_digit, mod_pow_succ_eq_iff]

/-- Levels above those an offset needs only add zeros in front of its path. The induction
    is on the number of levels added, each of which sees digit zero. -/
theorem indexPath_add {offset : BlockNo} {n : Nat} (h : offset.toNat < 128 ^ n) (m : Nat) :
    indexPath offset (n + m) = List.replicate m 0 ++ indexPath offset n := by
  induction m with
  | zero => rfl
  | succ m ih =>
    have hlt : offset.toNat < 128 ^ (n + m) :=
      lt_of_lt_of_le h (Nat.pow_le_pow_right (by decide) (Nat.le_add_right n m))
    have hzero : refIndex offset (n + m) = 0 := by
      rw [refIndex_eq_digit]
      exact Fin.ext (digit_eq_zero_of_lt 128 hlt)
    rw [← Nat.add_assoc, indexPath_succ, hzero, ih, List.replicate_succ, List.cons_append]

/-- The walk along the index path ends at the block of the offset. -/
theorem follow_indexPath (refs : BlockNo → Fin 128 → BlockNo) (b offset : BlockNo) (n : Nat) :
    follow refs b (indexPath offset n) = leaf refs n b offset.toNat := by
  induction n generalizing b with
  | zero => rfl
  | succ n ih =>
    rw [indexPath_succ, follow, leaf, ih, refIndex_eq_digit]

/-- The level loop on `nblocks - 1` finds the least number of levels with room for `nblocks`
    blocks: its test holds below that number and fails at it, so no bound on the turns from
    five on changes the result. Index paths are then base-128 numerals: they tell the
    offsets of a tree apart, and a deeper tree puts zeros in front. Hence a root that leads
    to the old one through `refs[0]`, any number of times, leads every offset to its block. -/
theorem treeDepth_least_indexPath_positional (nblocks : BlockNo) (hpos : 1 ≤ nblocks.toNat) :
    ((∀ fuel, 5 ≤ fuel → levelLoop (nblocks - 1) fuel 0 = treeDepth nblocks) ∧
      logShiftR (nblocks - 1) (treeDepth nblocks * logRpb) = 0 ∧
      (∀ l < treeDepth nblocks, logShiftR (nblocks - 1) (l * logRpb) ≠ 0)) ∧
    (nblocks.toNat ≤ 128 ^ treeDepth nblocks ∧
      ∀ m, nblocks.toNat ≤ 128 ^ m → treeDepth nblocks ≤ m) ∧
    (∀ L, ∀ off off' : BlockNo, off.toNat < 128 ^ L → off'.toNat < 128 ^ L →
      indexPath off L = indexPath off' L → off = off') ∧
    (∀ L L', ∀ off : BlockNo, off.toNat < 128 ^ L → L ≤ L' →
      indexPath off L' = List.replicate (L' - L) 0 ++ indexPath off L ∧
      ∀ (refs : BlockNo → Fin 128 → BlockNo) (old new : BlockNo),
        follow refs new (List.replicate (L' - L) 0) = old →
        leaf refs L' new off.toNat = leaf refs L old off.toNat) := by
  have hsub : (nblocks - 1).toNat = nblocks.toNat - 1 := toNat_sub_one hpos
  have hdepth : treeDepth nblocks = levels (nblocks - 1) := treeDepth_of_pos hpos
  have hbelow : ∀ l < treeDepth nblocks, 128 ^ l ≤ (nblocks - 1).toNat := by
    intro l hl
    exact pow_le_of_lt_levels (hdepth ▸ hl)
  refine ⟨⟨?_, ?_, ?_⟩, ⟨le_pow_treeDepth nblocks, ?_⟩, ?_, ?_⟩
  · intro fuel hfuel
    rw [hdepth]
    obtain ⟨hroom, hleast⟩ := levelLoop_spec (nblocks - 1) fuel 0 (by omega) (by simp)
    -- both are the first level count with room
    apply Nat.le_antisymm
    · by_contra hlt
      exact absurd (hleast _ (not_le.mp hlt)) (not_le.mpr (lt_pow_levels _))
    · exact levels_le_of_lt_pow hroom
  · rw [logShiftR_eq_zero_iff, hdepth]
    exact lt_pow_levels _
  · intro l hl
    rw [Ne, logShiftR_eq_zero_iff, not_lt]
    exact hbelow l hl
  · intro m hm
    rw [hdepth]
    apply levels_le_of_lt_pow
    omega
  · intro L off off' hoff hoff' hpath
    rw [indexPath_eq_iff, Nat.mod_eq_of_lt hoff, Nat.mod_eq_of_lt hoff'] at hpath
    exact UInt32.toNat_inj.mp hpath
  · intro L L' off hoff hle
    have hadd := indexPath_add hoff (L' - L)
    rw [Nat.add_sub_cancel' hle] at hadd
    refine ⟨hadd, ?_⟩
    intro refs old new hold
    rw [← follow_indexPath, ← follow_indexPath, hadd, follow_append, hold]

/-- A file of 129 blocks needs two levels, and block 5 is then found through slot 0. -/
theorem treeDepth_least_indexPath_positional_129 :
    treeDepth 129 = 2 ∧ indexPath 5 2 = [0, 5] ∧ (129 : BlockNo).toNat ≤ 128 ^ treeDepth 129 :=
  ⟨by decide, by decide, (treeDepth_least_indexPath_positional 129 (by decide)).2.1.1⟩

end Egos.TreeDisk
