import Egos.TreeDisk.Operations
import Mathlib.Algebra.BigOperators.Fin

/-!
# The Tree File System: Creation

`setup_freelist` builds the chain backwards, one node for up to 128 blocks: the node itself
and the up to 127 blocks after it. `wp_setupFreelist` shows that the chain holds exactly the
blocks it was given. `wp_create_fresh` then establishes the invariant, with every file
empty; `wp_create_again` says that a second creation changes nothing.
-/

namespace Egos.TreeDisk

open Egos.Lib Egos.Lib.BlockProg Egos.Lib.FreeList Egos.Lib.RadixTree Finset

/-! ## Ranges of blocks -/

theorem blockRange_add (a m n : Nat) :
    blockRange a (m + n) = blockRange a m + blockRange (a + m) n := by
  simp only [blockRange, Multiset.range_add, Multiset.map_add, Multiset.map_map,
    Function.comp_def, add_assoc]

theorem blockRange_succ (a n : Nat) :
    blockRange a (n + 1) = UInt32.ofNat a ::ₘ blockRange (a + 1) n := by
  rw [add_comm n 1, blockRange_add]
  rfl

theorem blockRange_eq_sum (a n : Nat) :
    blockRange a n = ∑ i ∈ range n, {UInt32.ofNat (a + i)} := by
  induction n with
  | zero => rfl
  | succ n ih =>
    rw [blockRange_add, sum_range_succ, ih]
    rfl

theorem mem_blockRange {a n : Nat} (h : a + n ≤ 2 ^ 32) {x : BlockNo} :
    x ∈ blockRange a n ↔ a ≤ x.toNat ∧ x.toNat < a + n := by
  rw [blockRange, Multiset.mem_map]
  constructor
  · rintro ⟨k, hk, rfl⟩
    rw [Multiset.mem_range] at hk
    rw [UInt32.toNat_ofNat']
    omega
  · rintro ⟨hle, hlt⟩
    refine ⟨x.toNat - a, Multiset.mem_range.mpr (by omega), ?_⟩
    rw [Nat.add_sub_cancel' hle, UInt32.ofNat_toNat]

theorem nodup_blockRange {a n : Nat} (h : a + n ≤ 2 ^ 32) : (blockRange a n).Nodup := by
  rw [blockRange]
  apply Multiset.Nodup.map_on _ (Multiset.nodup_range n)
  intro j hj k hk heq
  rw [Multiset.mem_range] at hj hk
  have hnat := congrArg UInt32.toNat heq
  rw [UInt32.toNat_ofNat', UInt32.toNat_ofNat'] at hnat
  omega

/-! ## The nodes of the free list -/

theorem fillRefs_spec (N : BlockNo) (slots : Nat) (nextFree : BlockNo) (data : Block)
    (hslots : slots < 128) :
    let taken := min slots (N.toNat - nextFree.toNat)
    (fillRefs N slots nextFree data).1 = slots - taken ∧
      (fillRefs N slots nextFree data).2.1 = UInt32.ofNat (nextFree.toNat + taken) ∧
      ∀ j : Fin 128, (fillRefs N slots nextFree data).2.2 j =
        if 128 - slots ≤ j ∧ j < 128 - slots + taken
        then UInt32.ofNat (nextFree.toNat + (j - (128 - slots))) else data j := by
  induction slots generalizing nextFree data with
  | zero => simp [fillRefs]
  | succ slots ih =>
    rw [fillRefs]
    split_ifs with hlt
    · rw [UInt32.lt_iff_toNat_lt] at hlt
      have hN := N.toNat_lt
      have hnext : (nextFree + 1).toNat = nextFree.toNat + 1 := toNat_add_one (by omega)
      obtain ⟨hleft, hnextFree, hdata⟩ := ih (nextFree + 1)
        (Function.update data (Fin.ofNat 128 (127 - slots)) nextFree) (by omega)
      have htaken : min (slots + 1) (N.toNat - nextFree.toNat) =
          min slots (N.toNat - (nextFree + 1).toNat) + 1 := by omega
      have hslot : ((Fin.ofNat 128 (127 - slots) : Fin 128) : Nat) = 127 - slots :=
        Nat.mod_eq_of_lt (by omega)
      rw [htaken]
      refine ⟨by omega, ?_, ?_⟩
      · rw [hnextFree, hnext]
        congr 1
        omega
      · intro j
        rw [hdata j, hnext]
        by_cases hj : j = Fin.ofNat 128 (127 - slots)
        · -- the slot this turn fills
          subst hj
          rw [hslot, if_neg (by omega), if_pos (by omega), Function.update_self]
          rw [show 127 - slots - (128 - (slots + 1)) = 0 by omega, Nat.add_zero,
            UInt32.ofNat_toNat]
        · have hjne : (j : Nat) ≠ 127 - slots := fun h => hj (Fin.ext (h.trans hslot.symm))
          rw [Function.update_of_ne hj]
          by_cases hin : 128 - slots ≤ j ∧
              (j : Nat) < 128 - slots + min slots (N.toNat - (nextFree.toNat + 1))
          · rw [if_pos hin, if_pos (by omega)]
            congr 1
            omega
          · rw [if_neg hin, if_neg (by omega)]
    · rw [UInt32.lt_iff_toNat_lt] at hlt
      have htaken : min (slots + 1) (N.toNat - nextFree.toNat) = 0 := by omega
      simp only [htaken]
      refine ⟨rfl, ?_, ?_⟩
      · rw [Nat.add_zero, UInt32.ofNat_toNat]
      · intro j
        rw [if_neg (by omega)]

theorem zeroRefs_spec (slots : Nat) (data : Block) (hslots : slots < 128) (j : Fin 128) :
    zeroRefs slots data j = if 128 - slots ≤ j then 0 else data j := by
  induction slots generalizing data with
  | zero =>
    rw [zeroRefs, if_neg]
    have := j.isLt
    omega
  | succ slots ih =>
    have hslot : ((Fin.ofNat 128 (127 - slots) : Fin 128) : Nat) = 127 - slots :=
      Nat.mod_eq_of_lt (by omega)
    rw [zeroRefs, ih _ (by omega)]
    by_cases hj : j = Fin.ofNat 128 (127 - slots)
    · rw [hj, Function.update_self, hslot, if_neg (by omega), if_pos (by omega)]
    · have hjne : (j : Nat) ≠ 127 - slots := fun h => hj (Fin.ext (h.trans hslot.symm))
      rw [Function.update_of_ne hj]
      by_cases hge : 128 - slots ≤ (j : Nat)
      · rw [if_pos hge, if_pos (by omega)]
      · rw [if_neg hge, if_neg (by omega)]

/-- How many blocks the node at block `next` refers to. -/
def nodeEntries (N next : Nat) : Nat := min 127 (N - (next + 1))

/-- The node at block `next` of a free list over blocks below `N`. -/
def freeNode (prev : BlockNo) (N next : Nat) : Block := fun j =>
  if j = 0 then prev else if j ≤ nodeEntries N next then UInt32.ofNat (next + j) else 0

/-- One turn of `setup_freelist` fills the array with this node. -/
theorem fillNode_eq (prev : BlockNo) (data : Block) {N next : BlockNo} (hlt : next.toNat < N.toNat) :
    (fillNode N prev next data).2 = freeNode prev N.toNat next.toNat ∧
      (fillNode N prev next data).1 =
        UInt32.ofNat (next.toNat + 1 + nodeEntries N.toNat next.toNat) := by
  have hN := N.toNat_lt
  have hnext : (next + 1).toNat = next.toNat + 1 := toNat_add_one (by omega)
  obtain ⟨hleft, hnextFree, hdata⟩ :=
    fillRefs_spec N 127 (next + 1) (Function.update data 0 prev) (by decide)
  rw [hnext] at hleft hnextFree hdata
  simp only [fillNode]
  generalize fillRefs N 127 (next + 1) (Function.update data 0 prev) = filled at *
  obtain ⟨slots, nextFree, data'⟩ := filled
  simp only at hleft hnextFree hdata ⊢
  refine ⟨?_, hnextFree⟩
  funext j
  rw [zeroRefs_spec _ _ (by omega), hleft, hdata j, freeNode, nodeEntries]
  by_cases hj : j = 0
  · subst hj
    have hzero : ((0 : Fin 128) : Nat) = 0 := rfl
    rw [if_neg (by omega), if_neg (by omega), Function.update_self, if_pos rfl]
  · have hpos : (j : Nat) ≠ 0 := fun h => hj (Fin.ext h)
    rw [if_neg hj, Function.update_of_ne hj]
    by_cases hle : (j : Nat) ≤ min 127 (N.toNat - (next.toNat + 1))
    · rw [if_neg (by omega), if_pos (by omega), if_pos hle]
      congr 1
      omega
    · rw [if_pos (by omega), if_neg hle]

/-- A node refers to the blocks right after it. -/
theorem entries_freeNode {prev : BlockNo} {N next : Nat} (hN : N ≤ 2 ^ 32) :
    entries (freeNode prev N next) = blockRange (next + 1) (nodeEntries N next) := by
  have hsum : ∀ (f : Fin 128 → Multiset BlockNo),
      ∑ i ∈ univ.erase 0, f i = ∑ i : Fin 127, f i.succ := by
    intro f
    have hsplit := add_sum_erase univ f (mem_univ 0)
    rw [Fin.sum_univ_succ] at hsplit
    exact add_left_cancel hsplit
  have hentry : ∀ i : Fin 127, entry (freeNode prev N next i.succ) =
      if (i : Nat) < nodeEntries N next then {UInt32.ofNat (next + 1 + i)} else 0 := by
    intro i
    have hval : ((i.succ : Fin 128) : Nat) = i + 1 := rfl
    have hne : i.succ ≠ 0 := Fin.succ_ne_zero i
    rw [freeNode, if_neg hne]
    by_cases hlt : (i : Nat) < nodeEntries N next
    · rw [if_pos (by omega), if_pos hlt, hval, show next + (i + 1) = next + 1 + i by omega]
      apply entry_of_ne
      intro hzero
      have hnat := congrArg UInt32.toNat hzero
      rw [UInt32.toNat_ofNat'] at hnat
      simp only [UInt32.toNat_zero, nodeEntries] at hnat hlt
      omega
    · rw [if_neg (by omega), if_neg hlt, entry_null]
  have hrange : (range 127).filter (· < nodeEntries N next) = range (nodeEntries N next) := by
    ext i
    rw [mem_filter, mem_range, mem_range, nodeEntries]
    omega
  rw [entries, hsum, sum_congr rfl fun i _ => hentry i,
    Fin.sum_univ_eq_sum_range (fun i => if i < nodeEntries N next
      then ({UInt32.ofNat (next + 1 + i)} : Multiset BlockNo) else 0) 127,
    ← sum_filter, hrange, blockRange_eq_sum]

/-! ## Setting up the free list -/

/-- Writing the node at block `next` puts it and its entries in front of the chain. -/
theorem chain_freeNode {N next prev : BlockNo} {d : Store} {L : Multiset BlockNo}
    (hchain : Chain d prev L) (hbelow : ∀ x ∈ L, x.toNat < next.toNat) (hpos : 0 < next.toNat) :
    Chain (Function.update d next (freeNode prev N.toNat next.toNat)) next
      (L + blockRange next.toNat (nodeEntries N.toNat next.toNat + 1)) := by
  have hne : next ≠ 0 := by
    rintro rfl
    exact absurd hpos (by simp)
  have hlink : Function.update d next (freeNode prev N.toNat next.toNat) next 0 = prev := by
    rw [Function.update_self]
    rfl
  have htail : Chain (Function.update d next (freeNode prev N.toNat next.toNat))
      (Function.update d next (freeNode prev N.toNat next.toNat) next 0) L := by
    rw [hlink]
    apply hchain.congr
    intro x hx
    apply Function.update_of_ne
    rintro rfl
    exact absurd (hbelow x hx) (lt_irrefl _)
  have hnode := Chain.node hne htail
  rw [Function.update_self, entries_freeNode (Nat.le_of_lt N.toNat_lt)] at hnode
  rwa [blockRange_succ, UInt32.ofNat_toNat, Multiset.add_cons, add_comm L]

/-- The loop of `setup_freelist` extends the chain by the blocks `next..N-1` and writes
    nothing else. The induction is on the turns left; the chain built so far lies below
    `next`, so the node of this turn does not disturb it. -/
theorem wp_setupFreelistLoop {valid : BlockNo → Bool} {N : BlockNo} {d : Store}
    {L : Multiset BlockNo} {E : String → Store → Prop} (fuel : Nat) (prev next : BlockNo)
    (data : Block) (hpos : 0 < next.toNat) (hle : next.toNat ≤ N.toNat)
    (hfuel : N.toNat - next.toNat ≤ fuel) (hvalid : ∀ b, next ≤ b → b < N → valid b = true)
    (hchain : Chain d prev L) (hbelow : ∀ x ∈ L, x.toNat < next.toNat) :
    (setupFreelistLoop N fuel prev next data).wp valid
      (fun h d' => Chain d' h (L + blockRange next.toNat (N.toNat - next.toNat)) ∧
        ∀ x : BlockNo, (x.toNat < next.toNat ∨ N.toNat ≤ x.toNat) → d' x = d x)
      E (fun _ => True) d := by
  have hdone : ∀ {d : Store} {L : Multiset BlockNo} {prev next : BlockNo}, Chain d prev L →
      N.toNat - next.toNat = 0 →
      Chain d prev (L + blockRange next.toNat (N.toNat - next.toNat)) := by
    intro d L prev next hchain hzero
    rw [hzero]
    simpa [blockRange] using hchain
  induction fuel generalizing d L prev next data with
  | zero => exact ⟨hdone hchain (by omega), fun _ _ => rfl⟩
  | succ fuel ih =>
    rw [setupFreelistLoop]
    by_cases hlt : next < N
    · rw [UInt32.lt_iff_toNat_lt] at hlt
      have hN := N.toNat_lt
      obtain ⟨hnode, hnextFree⟩ := fillNode_eq prev data hlt
      have hentries : nodeEntries N.toNat next.toNat ≤ N.toNat - (next.toNat + 1) :=
        Nat.min_le_right _ _
      have hnat : (fillNode N prev next data).1.toNat =
          next.toNat + (nodeEntries N.toNat next.toNat + 1) := by
        rw [hnextFree, UInt32.toNat_ofNat']
        omega
      have hnew := chain_freeNode (N := N) hchain hbelow hpos
      have hbelow' : ∀ x ∈ L + blockRange next.toNat (nodeEntries N.toNat next.toNat + 1),
          x.toNat < (fillNode N prev next data).1.toNat := by
        intro x hx
        rw [Multiset.mem_add, mem_blockRange (by omega)] at hx
        rcases hx with hx | hx
        · exact (hbelow x hx).trans (by omega)
        · omega
      have hvalid' : ∀ b, (fillNode N prev next data).1 ≤ b → b < N → valid b = true := by
        intro b hb
        apply hvalid b
        rw [UInt32.le_iff_toNat_le] at hb ⊢
        omega
      simp only [UInt32.lt_iff_toNat_lt, hlt, if_true, wp_bind, wp_writeOrPanic, hnode]
      refine ⟨hvalid next (UInt32.le_refl next) (UInt32.lt_iff_toNat_lt.mpr hlt), trivial, ?_⟩
      apply wp_mono _ (ih next _ _ (by omega) (by omega) (by omega) hvalid' hnew hbelow')
        _ fun _ _ he => he
      rintro h d' ⟨hchain', hframe⟩
      rw [hnat] at hchain' hframe
      refine ⟨?_, ?_⟩
      · rw [add_assoc, ← blockRange_add] at hchain'
        convert hchain' using 3
        omega
      · intro x hx
        rw [hframe x (by omega)]
        apply Function.update_of_ne
        rintro rfl
        omega
    · have hge : N.toNat - next.toNat = 0 := by
        rw [UInt32.lt_iff_toNat_lt] at hlt
        omega
      rw [if_neg hlt]
      exact ⟨hdone hchain hge, fun _ _ => rfl⟩

/-- `setup_freelist` puts exactly the blocks `next_free..nblocks-1` on the free list, and
    writes to no other block. -/
theorem wp_setupFreelist {valid : BlockNo → Bool} {N next : BlockNo} {d : Store}
    {E : String → Store → Prop} (stale : Block) (hpos : 0 < next.toNat)
    (hle : next.toNat ≤ N.toNat) (hvalid : ∀ b, next ≤ b → b < N → valid b = true) :
    (setupFreelist stale next N).wp valid
      (fun h d' => Chain d' h (blockRange next.toNat (N.toNat - next.toNat)) ∧
        ∀ x : BlockNo, (x.toNat < next.toNat ∨ N.toNat ≤ x.toNat) → d' x = d x)
      E (fun _ => True) d := by
  have h := wp_setupFreelistLoop (E := E) N.toNat 0 next stale hpos hle (by omega)
    hvalid (.nil : Chain d 0 0) (by simp)
  rwa [zero_add] at h

/-! ## Creating -/

/-- The number of inode blocks `treedisk_create` sets up. -/
def inodeblocksFor (ninodes : UInt32) : BlockNo := (ninodes + inodesPerBlock - 1) / inodesPerBlock

/-- The inode blocks `i..i+count-1` are cleared, nothing else is written. -/
theorem wp_clearInodeblocks {N : BlockNo} {d : Store} {E : String → Store → Prop} (count : Nat)
    (i : BlockNo) (hle : i.toNat + count ≤ N.toNat) :
    (clearInodeblocks count i).wp (inRange N)
      (fun r d' => r = 0 ∧ ∀ x : BlockNo, d' x =
        if i.toNat ≤ x.toNat ∧ x.toNat < i.toNat + count then nullBlock else d x)
      E (fun _ => True) d := by
  induction count generalizing d i with
  | zero =>
    simp only [clearInodeblocks, wp_pure]
    refine ⟨trivial, fun x => ?_⟩
    rw [if_neg (by omega)]
  | succ count ih =>
    have hN := N.toNat_lt
    have hnext : (i + 1).toNat = i.toNat + 1 := toNat_add_one (by omega)
    simp only [clearInodeblocks, wp_bind, wp_belowWrite, if_true, inRange_iff,
      UInt32.lt_iff_toNat_lt]
    refine ⟨by omega, trivial, ?_⟩
    apply wp_mono _ (ih (i + 1) (by omega)) _ fun _ _ he => he
    rintro r d' ⟨hr, hd'⟩
    refine ⟨hr, fun x => ?_⟩
    rw [hd' x, hnext]
    by_cases hx : x = i
    · rw [hx, if_neg (by omega), Function.update_self, if_pos (by omega)]
    · have hxi : x.toNat ≠ i.toNat := fun h => hx (UInt32.toNat_inj.mp h)
      rw [Function.update_of_ne hx]
      by_cases hin : i.toNat + 1 ≤ x.toNat ∧ x.toNat < i.toNat + 1 + count
      · rw [if_pos hin, if_pos (by omega)]
      · rw [if_neg hin, if_neg (by omega)]

theorem toNat_inodeblocksFor (ninodes : UInt32) :
    (inodeblocksFor ninodes).toNat = (ninodes.toNat + 63) % 2 ^ 32 / 64 := by
  have hround : ninodes + inodesPerBlock - 1 = ninodes + 63 := by
    rw [UInt32.sub_eq_add_neg, UInt32.add_assoc]
    rfl
  rw [inodeblocksFor, hround, UInt32.toNat_div, UInt32.toNat_add]
  rfl

/-- The sum in the size check of `treedisk_create` does not wrap. -/
theorem inodeblocksFor_add_two_le {N ninodes : UInt32} (h : ¬ N < inodeblocksFor ninodes + 2) :
    (inodeblocksFor ninodes).toNat + 2 ≤ N.toNat := by
  have hn := toNat_inodeblocksFor ninodes
  rw [UInt32.lt_iff_toNat_lt, UInt32.toNat_add, show UInt32.toNat 2 = 2 from rfl] at h
  omega

section Create

variable {N : BlockNo} {d : Store} {L : Multiset BlockNo} {E : String → Store → Prop}

/-- A store right after its creation: the free list holds every block that is neither the
    superblock nor an inode block, and the inode blocks are clear. -/
structure Formatted (N : BlockNo) (n : BlockNo) (d : Store) : Prop where
  le : n.toNat + 2 ≤ N.toNat
  ninodes_lt : n.toNat * 64 < 2 ^ 32
  nInodeblocks : (d 0).nInodeblocks = n
  chain : Chain d (d 0).freeList (blockRange (n.toNat + 1) (N.toNat - (n.toNat + 1)))
  clear : ∀ x : BlockNo, 1 ≤ x.toNat → x.toNat < 1 + n.toNat → d x = nullBlock

theorem Formatted.inode_clear {n : BlockNo} (h : Formatted N n d) {i : Nat}
    (hi : i < ninodesOf d) : d (inodeBlockOf i) = nullBlock := by
  rw [ninodesOf, h.nInodeblocks] at hi
  have hlt := h.ninodes_lt
  apply h.clear
  · rw [toNat_inodeBlockOf (by omega)]
    omega
  · rw [toNat_inodeBlockOf (by omega)]
    omega

theorem Formatted.fileNodes_eq {n : BlockNo} (h : Formatted N n d) {i : Nat}
    (hi : i < ninodesOf d) : fileNodes d i = 0 := by
  rw [fileNodes, rootOf, h.inode_clear hi]
  exact nodes_null _

theorem Formatted.nblocksOf_eq {n : BlockNo} (h : Formatted N n d) {i : Nat}
    (hi : i < ninodesOf d) : nblocksOf d i = 0 := by
  rw [nblocksOf, h.inode_clear hi]
  rfl

theorem Formatted.layout_eq {n : BlockNo} (h : Formatted N n d) :
    layout d (blockRange (n.toNat + 1) (N.toNat - (n.toNat + 1))) = blockRange 0 N.toNat := by
  have hle := h.le
  rw [layout, sum_eq_zero fun i hi => h.fileNodes_eq (mem_range.mp hi), add_zero,
    h.nInodeblocks, inodeBlocks,
    show N.toNat = 1 + n.toNat + (N.toNat - (n.toNat + 1)) by omega, blockRange_add,
    blockRange_add, show 1 + n.toNat + (N.toNat - (n.toNat + 1)) - (n.toNat + 1) =
      N.toNat - (n.toNat + 1) by omega, zero_add, zero_add, add_comm 1]
  rfl

/-- A formatted store satisfies the invariant. -/
theorem Formatted.fsInv {n : BlockNo} (h : Formatted N n d) :
    FsInv N d (blockRange (n.toNat + 1) (N.toNat - (n.toNat + 1))) := by
  have hN := N.toNat_lt
  refine ⟨h.chain, ?_, ?_, ?_, ?_⟩
  · rw [h.layout_eq]
    exact nodup_blockRange (by omega)
  · intro b
    rw [h.layout_eq, mem_blockRange (by omega), UInt32.lt_iff_toNat_lt]
    omega
  · rw [ninodesOf, h.nInodeblocks]
    exact h.ninodes_lt
  · intro i hi off _ _
    rw [rootOf, h.inode_clear hi]
    exact fileBlock_null _ _ _

/-- Every file of a formatted store is empty. -/
theorem Formatted.fileOf_eq {n : BlockNo} (h : Formatted N n d) {i : Nat}
    (hi : i < ninodesOf d) : fileOf d i = SparseArray.empty nullBlock := by
  have hsize := h.nblocksOf_eq hi
  apply SparseArray.ext
  · simp only [fileOf, hsize]
    rfl
  · funext off
    simp only [fileOf, hsize]
    rfl

/-- `treedisk_create` on a store without a superblock formats it, if it is large enough. -/
theorem wp_create_format (stale : Block) (ninodes : UInt32) (hzero : (d 0).nInodeblocks = 0)
    (hroom : ¬ N < inodeblocksFor ninodes + 2) :
    (treediskCreate stale N ninodes).wp (inRange N)
      (fun r d' => r = 0 ∧ Formatted N (inodeblocksFor ninodes) d') E (fun _ => True) d := by
  have hn := toNat_inodeblocksFor ninodes
  have hadd1 : (inodeblocksFor ninodes + 1).toNat = (inodeblocksFor ninodes).toNat + 1 :=
    toNat_add_one (by omega)
  unfold treediskCreate
  rw [← inodeblocksFor, if_neg hroom]
  have hle := inodeblocksFor_add_two_le hroom
  have hN : 0 < N := UInt32.lt_iff_toNat_lt.mpr (by rw [UInt32.toNat_zero]; omega)
  simp only [wp_bind, wp_belowRead, inRange_iff, hzero, if_true]
  refine ⟨hN, ?_⟩
  apply wp_mono _ (wp_setupFreelist stale (by omega) (by omega)
    fun _ _ hb => inRange_iff.mpr hb) _ fun _ _ he => he
  rintro head d₁ ⟨hchain, _⟩
  rw [hadd1] at hchain
  simp only [wp_belowWrite, inRange_iff, if_true]
  refine ⟨hN, trivial, ?_⟩
  have hone : UInt32.toNat 1 = 1 := rfl
  apply wp_mono _ (wp_clearInodeblocks _ 1 (by omega)) _ fun _ _ he => he
  rintro r d₂ ⟨hr, hd₂⟩
  rw [hone] at hd₂
  have hsuper : d₂ 0 = Function.update (Function.update nullBlock 0 (inodeblocksFor ninodes))
      1 head := by
    rw [hd₂, UInt32.toNat_zero, if_neg (by omega), Function.update_self]
  refine ⟨hr, by omega, by omega, ?_, ?_, ?_⟩
  · rw [hsuper]
    rfl
  · -- the free list lies behind the blocks written since it was set up
    rw [hsuper]
    apply hchain.congr
    intro x hx
    rw [mem_blockRange (by have := N.toNat_lt; omega)] at hx
    rw [hd₂, if_neg (by omega), Function.update_of_ne]
    rintro rfl
    simp only [UInt32.toNat_zero] at hx
    omega
  · intro x hx1 hxn
    rw [hd₂, if_pos ⟨hx1, hxn⟩]

/-- `treedisk_create` on a store without a superblock either finds it too small, or
    formats it. -/
theorem wp_create_fresh (stale : Block) (ninodes : UInt32)
    (hzero : (d 0).nInodeblocks = 0) :
    (treediskCreate stale N ninodes).wp (inRange N)
      (fun r d' => (r = -1 ∧ d' = d) ∨ (r = 0 ∧ Formatted N (inodeblocksFor ninodes) d'))
      E (fun _ => True) d := by
  by_cases hfew : N < inodeblocksFor ninodes + 2
  · unfold treediskCreate
    rw [← inodeblocksFor, if_pos hfew]
    exact Or.inl ⟨rfl, rfl⟩
  · exact wp_mono _ (wp_create_format stale ninodes hzero hfew) (fun _ _ hq => Or.inr hq)
      fun _ _ he => he

/-- `treedisk_create` on a store with a superblock changes nothing. -/
theorem wp_create_again (stale : Block) (ninodes : UInt32)
    (hne : (d 0).nInodeblocks ≠ 0) :
    (treediskCreate stale N ninodes).wp (inRange N)
      (fun r d' => (r = -1 ∨ r = 0) ∧ d' = d) E (fun _ => True) d := by
  unfold treediskCreate
  rw [← inodeblocksFor]
  by_cases hfew : N < inodeblocksFor ninodes + 2
  · rw [if_pos hfew]
    exact ⟨Or.inl rfl, rfl⟩
  · rw [if_neg hfew]
    have hle := inodeblocksFor_add_two_le hfew
    have hN : 0 < N := UInt32.lt_iff_toNat_lt.mpr (by rw [UInt32.toNat_zero]; omega)
    simp only [wp_bind, wp_belowRead, inRange_iff, hne, if_false, wp_pure]
    exact ⟨hN, Or.inr trivial, trivial⟩

end Create

end Egos.TreeDisk
