import Mathlib.Data.Nat.Count
import Mathlib.Order.Lattice.Nat
import Egos.Lib.RadixTree

/-!
# The Space a Radix Tree Takes

Which nodes a radix tree has, level by level, and how many they are. Leaves have level 0,
the root of a tree of depth `n` has level `n`; the node of level `j` on the path of `off` is
the one that all offsets with the same quotient `off / k ^ j` share.

- `Holds refs n b j off`: the tree has a node of level `j` on the path of `off`.
- `missing refs n b off` counts the nodes that the path of `off` lacks.
- `Spans refs n b W`: the tree has a leaf for each offset in `W`, the nodes above them, and
  those above offset 0, which are there because trees grow by a new root over the old one.
- `footprint k n W` is the number of these nodes.

`card_nodes` counts the nodes of any tree by level, `Spans.card_nodes` those of a tree that
spans `W`. `Spans.addRoot` and `Spans.insert` are the two ways a tree grows, and
`footprint_succ` and `Spans.footprint_insert` what they cost.
-/

namespace Egos.Lib.RadixTree

open Finset

/-! ## Offsets that share a part of their path -/

section Digits

variable (k : ℕ) [NeZero k]

/-- The paths of the two offsets in a tree of depth `n` agree down to level `j`. -/
def SameFrom (j n off off' : ℕ) : Prop := ∀ i, j ≤ i → i < n → digit k i off = digit k i off'

variable {k} {j n off off' : ℕ}

theorem pow_pos_of_neZero (n : ℕ) : 0 < k ^ n := Nat.pow_pos (Nat.pos_of_ne_zero (NeZero.ne k))

theorem sameFrom_self (n : ℕ) : SameFrom k n n off off' :=
  fun _ hle hlt => absurd hlt (not_lt.mpr hle)

theorem sameFrom_succ (hj : j ≤ n) :
    SameFrom k j (n + 1) off off' ↔
      digit k n off = digit k n off' ∧ SameFrom k j n off off' := by
  constructor
  · intro h
    exact ⟨h n hj (Nat.lt_succ_self n), fun i hle hlt => h i hle (hlt.trans (Nat.lt_succ_self n))⟩
  · rintro ⟨hdigit, h⟩ i hle hlt
    rcases Nat.lt_succ_iff_lt_or_eq.mp hlt with hlt | rfl
    · exact h i hle hlt
    · exact hdigit

/-- The quotient of an offset by `k ^ j` is what its digits from `j` on say. -/
theorem mod_pow_div_succ (hj : j ≤ n) (off : ℕ) :
    off % k ^ (n + 1) / k ^ j = off % k ^ n / k ^ j + k ^ (n - j) * (digit k n off : ℕ) := by
  have hpow : k ^ n = k ^ j * k ^ (n - j) := by rw [← pow_add, Nat.add_sub_cancel' hj]
  have hsplit : off % k ^ (n + 1) = off % k ^ n + k ^ n * (off / k ^ n % k) := by
    rw [pow_succ, Nat.mod_mul]
  show _ = _ + k ^ (n - j) * (off / k ^ n % k)
  rw [hsplit]
  nth_rewrite 2 [hpow]
  rw [mul_assoc, Nat.add_mul_div_left _ _ (pow_pos_of_neZero j)]

theorem mod_pow_div_lt (hj : j ≤ n) (off : ℕ) : off % k ^ n / k ^ j < k ^ (n - j) := by
  apply Nat.div_lt_of_lt_mul
  rw [← pow_add, Nat.add_sub_cancel' hj]
  exact Nat.mod_lt _ (pow_pos_of_neZero n)

theorem sameFrom_iff_mod (hj : j ≤ n) :
    SameFrom k j n off off' ↔ off % k ^ n / k ^ j = off' % k ^ n / k ^ j := by
  induction n, hj using Nat.le_induction with
  | base =>
    have hzero : ∀ x, x % k ^ j / k ^ j = 0 := fun x =>
      Nat.div_eq_of_lt (Nat.mod_lt x (pow_pos_of_neZero j))
    rw [hzero, hzero]
    exact iff_of_true (sameFrom_self j) rfl
  | succ n hj ih =>
    have hlt : off % k ^ n / k ^ j < k ^ (n - j) := mod_pow_div_lt hj off
    have hlt' : off' % k ^ n / k ^ j < k ^ (n - j) := mod_pow_div_lt hj off'
    rw [sameFrom_succ hj, ih, mod_pow_div_succ hj, mod_pow_div_succ hj]
    constructor
    · rintro ⟨hdigit, hrest⟩
      rw [hdigit, hrest]
    · -- quotient and remainder modulo `k ^ (n - j)`
      intro h
      have hpos : 0 < k ^ (n - j) := pow_pos_of_neZero _
      have hmod := congrArg (· % k ^ (n - j)) h
      have hdiv := congrArg (· / k ^ (n - j)) h
      simp only [Nat.add_mul_mod_self_left, Nat.mod_eq_of_lt hlt, Nat.mod_eq_of_lt hlt'] at hmod
      simp only [Nat.add_mul_div_left _ _ hpos, Nat.div_eq_of_lt hlt, Nat.div_eq_of_lt hlt',
        zero_add] at hdiv
      exact ⟨Fin.ext hdiv, hmod⟩

theorem sameFrom_iff (hj : j ≤ n) (hoff : off < k ^ n) (hoff' : off' < k ^ n) :
    SameFrom k j n off off' ↔ off / k ^ j = off' / k ^ j := by
  rw [sameFrom_iff_mod hj, Nat.mod_eq_of_lt hoff, Nat.mod_eq_of_lt hoff']

end Digits

/-! ## The nodes on a path -/

section Paths

variable {A : Type} [Zero A] {k : ℕ} [NeZero k]

/-- The tree of depth `n` below `b` has a node of level `j` on the path of `off`. -/
def Holds (refs : A → Fin k → A) : ℕ → A → ℕ → ℕ → Prop
  | 0, b, j, _ => b ≠ 0 ∧ j = 0
  | n + 1, b, j, off => b ≠ 0 ∧ (j = n + 1 ∨ Holds refs n (refs b (digit k n off)) j off)

variable {refs refs' : A → Fin k → A} {n j off : ℕ} {b : A}

theorem not_holds_null : ¬ Holds refs n 0 j off := by
  cases n <;> exact fun h => h.1 rfl

theorem holds_zero (hb : b ≠ 0) : Holds refs 0 b j off ↔ j = 0 := and_iff_right hb

theorem holds_succ (hb : b ≠ 0) :
    Holds refs (n + 1) b j off ↔ j = n + 1 ∨ Holds refs n (refs b (digit k n off)) j off :=
  and_iff_right hb

theorem Holds.le (h : Holds refs n b j off) : j ≤ n := by
  induction n generalizing b with
  | zero => exact h.2.le
  | succ n ih =>
    rcases h.2 with rfl | h
    · exact le_rfl
    · exact (ih h).trans (Nat.le_succ n)

theorem holds_root (hb : b ≠ 0) : Holds refs n b n off := by
  cases n with
  | zero => exact ⟨hb, rfl⟩
  | succ n => exact ⟨hb, Or.inl rfl⟩

/-- Offsets that share a path down to a level share its node. -/
theorem Holds.of_sameFrom {off' : ℕ} (h : Holds refs n b j off)
    (hsame : SameFrom k j n off off') : Holds refs n b j off' := by
  induction n generalizing b with
  | zero => exact h
  | succ n ih =>
    refine ⟨h.1, h.2.imp_right fun hchild => ?_⟩
    obtain ⟨hdigit, hrest⟩ := (sameFrom_succ hchild.le).mp hsame
    rw [← hdigit]
    exact ih hchild hrest

variable [DecidableEq A]

instance decidableHolds (refs : A → Fin k → A) :
    ∀ n b j off, Decidable (Holds refs n b j off)
  | 0, b, j, _ => inferInstanceAs (Decidable (b ≠ 0 ∧ j = 0))
  | n + 1, b, j, off =>
    have := decidableHolds refs n (refs b (digit k n off)) j off
    inferInstanceAs (Decidable (b ≠ 0 ∧ (j = n + 1 ∨ Holds refs n (refs b (digit k n off)) j off)))

/-- The number of nodes that the path of `off` lacks. -/
def missing (refs : A → Fin k → A) : ℕ → A → ℕ → ℕ
  | 0, b, _ => if b = 0 then 1 else 0
  | n + 1, b, off => if b = 0 then n + 2 else missing refs n (refs b (digit k n off)) off

/-- Which nodes there are depends on the references of the tree's own nodes alone. -/
theorem holds_congr (h : ∀ x ∈ nodes refs n b, refs' x = refs x) :
    Holds refs' n b j off ↔ Holds refs n b j off := by
  induction n generalizing b with
  | zero => exact Iff.rfl
  | succ n ih =>
    by_cases hb : b = 0
    · rw [hb]
      exact iff_of_false not_holds_null not_holds_null
    · rw [holds_succ hb, holds_succ hb, h b (root_mem_nodes hb),
        ih fun x hx => h x (Multiset.mem_of_le (nodes_child_le hb _) hx)]

theorem missing_null : missing refs n 0 off = n + 1 := by
  cases n <;> simp [missing]

theorem missing_succ (hb : b ≠ 0) :
    missing refs (n + 1) b off = missing refs n (refs b (digit k n off)) off :=
  if_neg hb

/-- The path of an offset lacks one node for each level without one. -/
theorem missing_eq : missing refs n b off = #{j ∈ range (n + 1) | ¬ Holds refs n b j off} := by
  induction n generalizing b with
  | zero =>
    by_cases hb : b = 0
    · simp [missing, hb, not_holds_null]
    · rw [missing, if_neg hb, eq_comm, card_eq_zero, filter_eq_empty_iff]
      exact fun j hj => not_not.mpr ((holds_zero hb).mpr (Nat.lt_one_iff.mp (mem_range.mp hj)))
  | succ n ih =>
    by_cases hb : b = 0
    · simp [missing, hb, not_holds_null]
    · -- level `n + 1` is there, and the others are those below the child
      rw [missing, if_neg hb, ih, range_add_one (n := n + 1), filter_insert,
        if_neg (not_not.mpr (holds_root hb))]
      congr 1
      apply filter_congr
      intro j hj
      rw [holds_succ hb, or_iff_right (mem_range.mp hj).ne]

end Paths

/-! ## Counting nodes -/

section Count

variable {A : Type} [Zero A] {k : ℕ} [NeZero k]
variable {refs refs' : A → Fin k → A} {n : ℕ} {b : A}

/-- Counting up to a multiple of `m`, block by block. -/
theorem count_mul (P : ℕ → Prop) [DecidablePred P] (r m : ℕ) :
    Nat.count P (r * m) = ∑ i ∈ range r, Nat.count (fun q => P (i * m + q)) m := by
  induction r with
  | zero => simp
  | succ r ih => rw [Nat.succ_mul, Nat.count_add, ih, sum_range_succ]

/-- Below child `i` the nodes of level `j` are those of the child. -/
theorem holds_child (hb : b ≠ 0) {j : ℕ} (hj : j ≤ n) (i : Fin k) {q : ℕ}
    (hq : q < k ^ (n - j)) :
    Holds refs (n + 1) b j ((i * k ^ (n - j) + q) * k ^ j) ↔
      Holds refs n (refs b i) j (q * k ^ j) := by
  have hpow : k ^ n = k ^ (n - j) * k ^ j := by rw [← pow_add, Nat.sub_add_cancel hj]
  have hlt : q * k ^ j < k ^ n := by
    rw [hpow]
    exact Nat.mul_lt_mul_of_pos_right hq (pow_pos_of_neZero j)
  have hsplit : (i * k ^ (n - j) + q) * k ^ j = q * k ^ j + k ^ n * i := by
    rw [hpow, add_mul, add_comm, mul_assoc, mul_comm (k ^ (n - j) * k ^ j)]
  have hdigit : digit k n (q * k ^ j + k ^ n * i) = i := by
    apply Fin.ext
    show (q * k ^ j + k ^ n * i) / k ^ n % k = i
    rw [Nat.add_mul_div_left _ _ (pow_pos_of_neZero n), Nat.div_eq_of_lt hlt, zero_add,
      Nat.mod_eq_of_lt i.isLt]
  have hsame : SameFrom k j n (q * k ^ j + k ^ n * i) (q * k ^ j) := by
    rw [sameFrom_iff_mod hj, Nat.add_mul_mod_self_left]
  have hsame' : SameFrom k j n (q * k ^ j) (q * k ^ j + k ^ n * i) :=
    fun i' hle hlt => (hsame i' hle hlt).symm
  rw [hsplit, holds_succ hb, or_iff_right (Nat.lt_succ_of_le hj).ne, hdigit]
  exact ⟨fun h => h.of_sameFrom hsame, fun h => h.of_sameFrom hsame'⟩

variable [DecidableEq A]

/-- The nodes of a tree, level by level. -/
theorem card_nodes : (nodes refs n b).card =
    ∑ j ∈ range (n + 1), Nat.count (fun p => Holds refs n b j (p * k ^ j)) (k ^ (n - j)) := by
  induction n generalizing b with
  | zero =>
    by_cases hb : b = 0
    · simp [hb, not_holds_null]
    · simp [nodes_zero hb, holds_zero hb]
  | succ n ih =>
    by_cases hb : b = 0
    · simp [hb, not_holds_null]
    · have htop : Nat.count (fun p => Holds refs (n + 1) b (n + 1) (p * k ^ (n + 1)))
          (k ^ (n + 1 - (n + 1))) = 1 := by
        simp [holds_root hb]
      have hlevel : ∀ j ∈ range (n + 1),
          Nat.count (fun p => Holds refs (n + 1) b j (p * k ^ j)) (k ^ (n + 1 - j)) =
            ∑ i : Fin k, Nat.count (fun q => Holds refs n (refs b i) j (q * k ^ j))
              (k ^ (n - j)) := by
        intro j hj
        have hle : j ≤ n := Nat.lt_succ_iff.mp (mem_range.mp hj)
        rw [Nat.succ_sub hle, pow_succ', count_mul, ← Fin.sum_univ_eq_sum_range
          fun i => Nat.count (fun q => Holds refs (n + 1) b j ((i * k ^ (n - j) + q) * k ^ j))
            (k ^ (n - j))]
        refine sum_congr rfl fun i _ => ?_
        rw [Nat.count_eq_card_filter_range, Nat.count_eq_card_filter_range]
        congr 1
        exact filter_congr fun q hq => holds_child hb hle i (mem_range.mp hq)
      rw [sum_range_succ, htop, sum_congr rfl hlevel, sum_comm, nodes_succ hb,
        Multiset.card_cons, Multiset.card_sum]
      congr 1
      exact sum_congr rfl fun i _ => ih

end Count

/-! ## Trees that span a set of offsets -/

section Spans

variable (k : ℕ)

/-- The nodes of level `j` that the leaves at `W` need, with the one above offset 0. -/
def level (W : Finset ℕ) (j : ℕ) : Finset ℕ :=
  W.image (· / k ^ j) ∪ if j = 0 then ∅ else {0}

/-- The number of nodes of a tree of depth `n` that spans `W`. -/
def footprint (n : ℕ) (W : Finset ℕ) : ℕ := ∑ j ∈ range (n + 1), #(level k W j)

variable {k} {W : Finset ℕ} {n j p : ℕ}

theorem mem_level : p ∈ level k W j ↔ (∃ w ∈ W, w / k ^ j = p) ∨ j ≠ 0 ∧ p = 0 := by
  rw [level, mem_union, mem_image]
  split_ifs with hj <;> simp [hj]

theorem level_mono {W' : Finset ℕ} (h : W ⊆ W') (j : ℕ) : level k W j ⊆ level k W' j :=
  union_subset_union_left (image_subset_image h)

theorem level_insert (w : ℕ) : level k (insert w W) j = insert (w / k ^ j) (level k W j) := by
  rw [level, level, image_insert, insert_union]

theorem footprint_le_insert (w : ℕ) : footprint k n W ≤ footprint k n (insert w W) := by
  refine sum_le_sum fun j _ => ?_
  rw [level_insert]
  exact card_le_card (subset_insert _ _)

variable [NeZero k]

theorem lt_of_mem_level (hW : ∀ w ∈ W, w < k ^ n) (hj : j ≤ n) (hp : p ∈ level k W j) :
    p < k ^ (n - j) := by
  rcases mem_level.mp hp with ⟨w, hw, rfl⟩ | ⟨_, rfl⟩
  · apply Nat.div_lt_of_lt_mul
    rw [← pow_add, Nat.add_sub_cancel' hj]
    exact hW w hw
  · exact pow_pos_of_neZero _

/-- A new root over a tree costs one node. -/
theorem footprint_succ (hW : ∀ w ∈ W, w < k ^ n) :
    footprint k (n + 1) W = footprint k n W + 1 := by
  have htop : level k W (n + 1) = {0} := by
    apply Finset.ext
    intro p
    have hlt : ∀ w ∈ W, w < k ^ (n + 1) := fun w hw =>
      lt_of_lt_of_le (hW w hw) (Nat.pow_le_pow_right (Nat.pos_of_ne_zero (NeZero.ne k))
        (Nat.le_succ n))
    rw [mem_singleton]
    constructor
    · intro hp
      have hone := lt_of_mem_level hlt le_rfl hp
      rwa [Nat.sub_self, pow_zero, Nat.lt_one_iff] at hone
    · rintro rfl
      exact mem_level.mpr (Or.inr ⟨Nat.succ_ne_zero n, rfl⟩)
  rw [footprint, sum_range_succ, htop, card_singleton, ← footprint]

theorem footprint_add (hW : ∀ w ∈ W, w < k ^ n) (turns : ℕ) :
    footprint k (n + turns) W = footprint k n W + turns := by
  induction turns with
  | zero => rfl
  | succ turns ih =>
    have hlt : ∀ w ∈ W, w < k ^ (n + turns) := fun w hw =>
      lt_of_lt_of_le (hW w hw) (Nat.pow_le_pow_right (Nat.pos_of_ne_zero (NeZero.ne k))
        (Nat.le_add_right n turns))
    rw [← add_assoc, footprint_succ hlt, ih, add_assoc]

variable {A : Type} [Zero A]

/-- The tree of depth `n` below `b` has exactly the nodes that `W` needs. -/
structure Spans (refs : A → Fin k → A) (n : ℕ) (b : A) (W : Finset ℕ) : Prop where
  lt : ∀ w ∈ W, w < k ^ n
  holds : ∀ j ≤ n, ∀ off < k ^ n, Holds refs n b j off ↔ off / k ^ j ∈ level k W j

variable {refs refs' : A → Fin k → A} {b r : A}

theorem spans_null : Spans refs 0 (0 : A) ∅ := by
  refine ⟨fun w hw => absurd hw (notMem_empty w), fun j hj off _ => ?_⟩
  obtain rfl : j = 0 := Nat.le_zero.mp hj
  exact iff_of_false not_holds_null fun h => notMem_empty _ h

/-- A path that is completed for the offset `w`. -/
theorem Spans.insert {b' : A} (h : Spans refs n b W) {w : ℕ} (hw : w < k ^ n)
    (hpath : ∀ j off, Holds refs' n b' j off ↔
      Holds refs n b j off ∨ j ≤ n ∧ SameFrom k j n off w) :
    Spans refs' n b' (insert w W) := by
  refine ⟨fun v hv => ?_, fun j hj off hoff => ?_⟩
  · rcases mem_insert.mp hv with rfl | hv
    · exact hw
    · exact h.lt v hv
  · rw [hpath, h.holds j hj off hoff, level_insert, mem_insert, and_iff_right hj,
      sameFrom_iff hj hoff hw, or_comm]

variable [DecidableEq A]

theorem Spans.congr (h : Spans refs n b W) (hrefs : ∀ x ∈ nodes refs n b, refs' x = refs x) :
    Spans refs' n b W :=
  ⟨h.lt, fun j hj off hoff => (holds_congr hrefs).trans (h.holds j hj off hoff)⟩

theorem Spans.card_nodes (h : Spans refs n b W) : (nodes refs n b).card = footprint k n W := by
  rw [RadixTree.card_nodes, footprint]
  refine sum_congr rfl fun j hj => ?_
  have hle : j ≤ n := Nat.lt_succ_iff.mp (mem_range.mp hj)
  rw [Nat.count_eq_card_filter_range]
  congr 1
  apply Finset.ext
  intro p
  rw [mem_filter, mem_range]
  have hholds : p < k ^ (n - j) → (Holds refs n b j (p * k ^ j) ↔ p ∈ level k W j) := by
    intro hp
    have hlt : p * k ^ j < k ^ n := by
      rw [← Nat.sub_add_cancel hle, pow_add]
      exact Nat.mul_lt_mul_of_pos_right hp (pow_pos_of_neZero j)
    rw [h.holds j hle _ hlt, Nat.mul_div_cancel _ (pow_pos_of_neZero j)]
  constructor
  · rintro ⟨hp, hnode⟩
    exact (hholds hp).mp hnode
  · intro hp
    have hlt := lt_of_mem_level h.lt hle hp
    exact ⟨hlt, (hholds hlt).mpr hp⟩

/-- A new root with the old one as its first reference. -/
theorem Spans.addRoot (h : Spans refs n r W) (hb : b ≠ 0) (hfirst : refs' b 0 = r)
    (hrest : ∀ i ≠ 0, refs' b i = 0) (hrefs : ∀ x ∈ nodes refs n r, refs' x = refs x) :
    Spans refs' (n + 1) b W := by
  have hpow : k ^ n ≤ k ^ (n + 1) :=
    Nat.pow_le_pow_right (Nat.pos_of_ne_zero (NeZero.ne k)) (Nat.le_succ n)
  refine ⟨fun w hw => lt_of_lt_of_le (h.lt w hw) hpow, fun j hj off hoff => ?_⟩
  rcases Nat.lt_succ_iff_lt_or_eq.mp (Nat.lt_succ_of_le hj) with hlt | rfl
  · have hle : j ≤ n := Nat.lt_succ_iff.mp hlt
    rw [holds_succ hb, or_iff_right hlt.ne]
    by_cases hold : off < k ^ n
    · have hdigit : digit k n off = 0 := Fin.ext (digit_eq_zero_of_lt k hold)
      rw [hdigit, hfirst, holds_congr hrefs, h.holds j hle off hold]
    · -- beyond the old tree there is nothing, and no offset of `W`
      have hdigit : digit k n off ≠ 0 := fun hzero =>
        digit_ne_zero_of_le k (not_lt.mp hold) hoff (congrArg Fin.val hzero)
      rw [hrest _ hdigit]
      refine iff_of_false not_holds_null fun hp => ?_
      have hsmall := lt_of_mem_level h.lt hle hp
      rw [Nat.div_lt_iff_lt_mul (pow_pos_of_neZero j), ← pow_add, Nat.sub_add_cancel hle] at hsmall
      exact hold hsmall
  · refine iff_of_true (holds_root hb) (mem_level.mpr (Or.inr ⟨Nat.succ_ne_zero n, ?_⟩))
    exact Nat.div_eq_of_lt hoff

/-- Completing a path costs the nodes it lacks. -/
theorem Spans.footprint_insert (h : Spans refs n b W) {w : ℕ} (hw : w < k ^ n) :
    footprint k n (Insert.insert w W) = footprint k n W + missing refs n b w := by
  have hlevel : ∀ j ∈ range (n + 1), #(level k (Insert.insert w W) j) =
      #(level k W j) + if ¬ Holds refs n b j w then 1 else 0 := by
    intro j hj
    have hholds := h.holds j (Nat.lt_succ_iff.mp (mem_range.mp hj)) w hw
    rw [level_insert]
    by_cases hmem : w / k ^ j ∈ level k W j
    · rw [insert_eq_of_mem hmem, if_neg (not_not.mpr (hholds.mpr hmem)), add_zero]
    · rw [card_insert_of_notMem hmem, if_pos (mt hholds.mp hmem)]
  rw [footprint, sum_congr rfl hlevel, sum_add_distrib, missing_eq, card_filter, ← footprint]

end Spans

end Egos.Lib.RadixTree
