import Egos.Lib.RadixSpace
import Egos.TreeDisk.Refinement

/-!
# The Tree File System: Space

How many blocks the files take, and when a write finds the store full. The tree of a file
has the nodes that its written offsets need and the indirect blocks above offset 0, which
the growing loop inserts whether or not anything was written there (`Spans`).

- `wp_writeWalk_space`: the loop of `treedisk_write` completes the path of its offset and
  panics only if the free list is shorter than what the path lacks.
- `FsInv.wp_write_space`: the same for the whole write, with the levels it inserts.
- `spaced_of_run`: in every store that was created and then used, the trees span the offsets
  of the writes so far.

`treedisk_space` says from the calls alone how many blocks are free and whether the next
write succeeds.
-/

namespace Egos.TreeDisk

open Egos.Lib Egos.Lib.BlockProg Egos.Lib.FreeList Egos.Lib.RadixTree Finset

/-! ## The walk completes a path -/

/-- The tree below `r` has the nodes of the one below `b`, and those on the path of
    `offset`. -/
def Completes (d : Store) (n : Nat) (b offset : BlockNo) (d' : Store) (r : BlockNo) : Prop :=
  ∀ j off, Holds d' n r j off ↔ Holds d n b j off ∨ j ≤ n ∧ SameFrom 128 j n off offset.toNat

section Walk

variable {valid : BlockNo → Bool} {d d' : Store} {s : Snapshot} {L : Multiset BlockNo}
variable {n : Nat} {parentOff b r : BlockNo} {parent : Block} {slot : Fin 128}
variable {offset : BlockNo} {block : Block}

theorem completes_zero (hr : r ≠ 0) : Completes d 0 b offset d' r := by
  intro j off
  rw [holds_zero hr]
  constructor
  · rintro rfl
    exact Or.inr ⟨le_rfl, sameFrom_self 0⟩
  · rintro (h | ⟨h, _⟩)
    · exact h.2
    · exact Nat.le_zero.mp h

/-- A node that was just linked has one child, on the path. -/
theorem completes_link {d₁ : Store} {c : BlockNo} (hr : r ≠ 0)
    (hrefs : d' r = Function.update nullBlock (refIndex offset n) c)
    (hchild : Completes d₁ n 0 offset d' c) : Completes d (n + 1) 0 offset d' r := by
  intro j off
  rw [holds_succ hr, or_iff_right not_holds_null, hrefs, refIndex_eq_digit, Function.update_apply]
  by_cases hj : j = n + 1
  · rw [hj]
    exact iff_of_true (Or.inl rfl) ⟨le_rfl, sameFrom_self _⟩
  · rw [or_iff_right hj]
    split_ifs with hdigit
    · rw [hchild, or_iff_right not_holds_null]
      constructor
      · rintro ⟨hle, hsame⟩
        exact ⟨hle.trans (Nat.le_succ n), (sameFrom_succ hle).mpr ⟨hdigit, hsame⟩⟩
      · rintro ⟨hle, hsame⟩
        have hle' : j ≤ n := Nat.le_of_lt_succ (lt_of_le_of_ne hle hj)
        exact ⟨hle', ((sameFrom_succ hle').mp hsame).2⟩
    · refine iff_of_false not_holds_null fun h => hdigit ?_
      have hle' : j ≤ n := Nat.le_of_lt_succ (lt_of_le_of_ne h.1 hj)
      exact ((sameFrom_succ hle').mp h.2).1

/-- Below a node that was there, the path is completed in the tree of one child. -/
theorem completes_descend {c : BlockNo} (hb : b ≠ 0)
    (hrefs : d' b = Function.update (d b) (refIndex offset n) c)
    (hother : ∀ i ≠ refIndex offset n, ∀ x ∈ nodes d n (d b i), d' x = d x)
    (hchild : Completes d n (d b (refIndex offset n)) offset d' c) :
    Completes d (n + 1) b offset d' b := by
  intro j off
  rw [holds_succ hb, holds_succ hb, hrefs, Function.update_apply]
  by_cases hj : j = n + 1
  · rw [hj]
    exact iff_of_true (Or.inl rfl) (Or.inl (Or.inl rfl))
  · rw [or_iff_right hj, or_iff_right hj]
    have hlevel : j ≤ n + 1 → j ≤ n := fun hle => Nat.le_of_lt_succ (lt_of_le_of_ne hle hj)
    split_ifs with hdigit
    · rw [hchild, hdigit]
      refine or_congr_right ⟨?_, ?_⟩
      · rintro ⟨hle, hsame⟩
        refine ⟨hle.trans (Nat.le_succ n), (sameFrom_succ hle).mpr ⟨?_, hsame⟩⟩
        rw [hdigit, refIndex_eq_digit]
      · rintro ⟨hle, hsame⟩
        exact ⟨hlevel hle, ((sameFrom_succ (hlevel hle)).mp hsame).2⟩
    · rw [holds_congr (hother _ hdigit)]
      refine (or_iff_left fun h => hdigit ?_).symm
      rw [refIndex_eq_digit]
      exact ((sameFrom_succ (hlevel h.1)).mp h.2).1

/-- The allocation of the loop: if there is no block, the path lacks more than none. -/
theorem wp_alloc_or_short {Q : BlockNo × Snapshot → Store → Prop}
    (h : WalkPre valid d s L n parentOff parent slot) (hslot : parent slot = 0)
    (hQ : ∀ b s' d' L', Allocated d s L b L' s' d' → d' b = d b → Q (b, s') d') :
    (treediskAllocBlock s).wp valid Q
      (fun _ _ => L.card < missing d n (parent slot) offset.toNat) (fun _ => True) d := by
  apply wp_weaken _ (wp_alloc h.free h.nodup_parts.2.2.1 h.valid_zero fun x => h.valid_free)
  · rintro ⟨b, s'⟩ d' ⟨L', ha, hsame⟩
    exact hQ b s' d' L' ha hsame
  · rintro _ _ ⟨_, hL, _⟩
    rw [hslot, missing_null, hL]
    exact Nat.succ_pos n
  · exact fun _ _ => trivial

/-- The write loop completes the path of its offset, and panics only if the free list does
    not hold the blocks this takes. -/
theorem wp_writeWalk_space (h : WalkPre valid d s L n parentOff parent slot)
    (hlast : L = 0 → d parentOff = parent) :
    (treediskWriteWalk offset block n s parentOff parent slot).wp valid
      (fun _ d' => Completes d n (parent slot) offset d' (d' parentOff slot))
      (fun _ _ => L.card < missing d n (parent slot) offset.toNat) (fun _ => True) d := by
  -- as for `wp_writeWalk`, whose frame for the rest of the walk says what else has changed
  induction n generalizing d s L parentOff parent slot with
  | zero =>
    rw [treediskWriteWalk]
    by_cases hslot : parent slot = 0
    · rw [if_pos hslot, wp_bind]
      refine wp_alloc_or_short h hslot fun b s' d' L' ha _ => ?_
      have hbL : b ∈ L := ha.taken ▸ Multiset.mem_cons_self b L'
      simp only [wp_bind, wp_writeOrPanic]
      refine ⟨h.valid_parent, trivial, h.valid_free hbL, trivial, ?_⟩
      rw [(walked_leaf offset block h hslot ha).parent_eq, Function.update_self]
      exact completes_zero (ha.block_ne h.free)
    · simp only [hslot, if_false, wp_writeOrPanic]
      refine ⟨h.valid_tree (root_mem_nodes hslot), trivial, ?_⟩
      rw [(walked_overwrite offset block h hslot).parent_eq, Function.update_self]
      exact completes_zero hslot
  | succ n ih =>
    rw [treediskWriteWalk]
    by_cases hslot : parent slot = 0
    · rw [if_pos hslot, wp_bind]
      refine wp_alloc_or_short h hslot fun b s' d₁ L' ha hsame => ?_
      have hb := ha.block_ne h.free
      have hpre := linked_pre h ha (refIndex offset n)
      have hnull := linked_null h ha hsame
      simp only [wp_bind, wp_writeOrPanic]
      refine ⟨h.valid_parent, trivial, ?_⟩
      apply wp_weaken _ (wp_and _ (wp_writeWalk hpre hnull) (ih hpre hnull))
      · rintro _ d' ⟨⟨L'', r, hw, _⟩, hpath⟩
        rw [(replaced_link h hslot ha hw.replaced).parent_eq, Function.update_self, hslot]
        rw [hw.parent_eq, Function.update_self] at hpath
        exact completes_link hb hw.parent_eq hpath
      · rintro _ _ ⟨_, hshort⟩
        rw [show nullBlock (refIndex offset n) = 0 from rfl, missing_null] at hshort
        rw [hslot, missing_null, ha.taken, Multiset.card_cons]
        omega
      · exact fun _ _ => trivial
    · simp only [hslot, if_false, wp_bind, wp_readOrPanic]
      have hpre := descend_pre h hslot (refIndex offset n)
      refine ⟨h.valid_tree (root_mem_nodes hslot), ?_⟩
      apply wp_weaken _ (wp_and _ (wp_writeWalk hpre fun _ => rfl) (ih hpre fun _ => rfl))
      · rintro _ d' ⟨⟨L', r, hw, _⟩, hpath⟩
        rw [(replaced_descend h hslot hw.replaced).parent_eq, Function.update_self]
        rw [hw.parent_eq, Function.update_self] at hpath
        exact completes_descend hslot hw.parent_eq (descend_frame h hslot hw.frame).2.1 hpath
      · rintro _ _ ⟨_, hshort⟩
        rwa [missing_succ hslot, ← refIndex_eq_digit]
      · exact fun _ _ => trivial

end Walk

/-! ## Growing keeps the span -/

section Grow

variable {valid : BlockNo → Bool} {d : Store} {s : Snapshot} {L : Multiset BlockNo}
variable {W : Finset ℕ}

theorem wp_growLevels_spans {n : Nat} (turns : Nat) (h : Free d s L)
    (hnodup : (L + nodes d n s.root).Nodup) (hvalid0 : valid 0 = true)
    (hvalid : ∀ x ∈ L, valid x = true) (hspans : Spans d n s.root W) :
    (growLevels turns s).wp valid (fun s' d' => Spans d' (n + turns) s'.root W)
      (fun _ _ => True) (fun _ => True) d := by
  induction turns generalizing d s L n with
  | zero => exact hspans
  | succ turns ih =>
    simp only [growLevels, wp_bind]
    have hLn : L.Nodup := (Multiset.nodup_add.mp hnodup).1
    refine wp_weaken _ (wp_alloc h hLn hvalid0 hvalid) ?_ (fun _ _ _ => trivial)
      fun _ _ => trivial
    rintro ⟨b, s'⟩ d' ⟨L', ha, _⟩
    have hbL : b ∈ L := ha.taken ▸ Multiset.mem_cons_self b L'
    have hone := grown_one h hnodup ha
    have hspans' : Spans (Function.update d' b (growBlock s')) (n + 1) (s'.setRoot b).root W := by
      rw [setRoot_root]
      refine hspans.addRoot (ha.block_ne h) (grow_first ha) (fun i hi => ?_)
        fun x hx => grow_old hnodup ha hx
      rw [Function.update_self, growBlock, Function.update_of_ne hi]
      rfl
    have hnodup' : (L' + nodes (Function.update d' b (growBlock s')) (n + 1)
        (s'.setRoot b).root).Nodup := by
      rw [hone.conserve]
      exact hnodup
    simp only [wp_writeOrPanic]
    refine ⟨hvalid b hbL, trivial, ?_⟩
    rw [add_comm turns 1, ← add_assoc]
    exact ih hone.free hnodup' (fun x hx => hvalid x (ha.taken ▸ Multiset.mem_cons_of_mem hx))
      hspans'

end Grow

/-! ## Writing -/

section Write

variable {N : UInt32} {d d₁ : Store} {L L₁ : Multiset BlockNo} {W : Finset ℕ}
variable {i : Nat} {m : BlockNo} {s : Snapshot} {offset : BlockNo} {block : Block}

/-- The walk of a write, from a state that is ready for it. -/
theorem FsInv.wp_finish_space (h : FsInv N d L) (block : Block) (hi : i < ninodesOf d)
    (hr : Ready d L i m L₁ s d₁) (hroom : offset.toNat < 128 ^ treeDepth m)
    (hspans : Spans d₁ (treeDepth m) s.root W) :
    (treediskWriteWalk offset block (treeDepth m) s s.inodeBlockno s.inodeblock
      (rootWord s.inode)).wp (inRange N)
      (fun _ d' => Spans d' (depthOf d' i) (rootOf d' i) (insert offset.toNat W))
      (fun _ _ => L₁.card + footprint 128 (treeDepth m) W <
        footprint 128 (treeDepth m) (insert offset.toNat W)) (fun _ => True) d₁ := by
  have hdisk : d₁ s.inodeBlockno = s.inodeblock := by rw [hr.blockno, hr.onDisk]
  have hpre := h.ready_walkPre hi hr
  apply wp_weaken _ (wp_and _ (wp_writeWalk hpre fun _ => hdisk)
    (wp_writeWalk_space hpre fun _ => hdisk))
  · rintro _ d' ⟨⟨L', r, hw, _⟩, hpath⟩
    have hu := hr.inodeUpdate hw.replaced
    rw [depthOf, hu.nblocksOf_self, hu.rootOf_self]
    rw [hw.parent_eq, Function.update_self, rootWord_inode] at hpath
    exact hspans.insert hroom hpath
  · rintro _ _ ⟨_, hshort⟩
    rw [rootWord_inode] at hshort
    rw [hspans.footprint_insert hroom]
    omega
  · exact fun _ _ => trivial

/-- The size of file `i` after a write at `offset`. -/
def sizeAfter (d : Store) (i : Nat) (offset : BlockNo) : BlockNo :=
  if offset ≥ nblocksOf d i then offset + 1 else nblocksOf d i

theorem toNat_sizeAfter (hoff : offset.toNat ≤ 2 ^ 32 - 2) :
    (sizeAfter d i offset).toNat = max (nblocksOf d i).toNat (offset.toNat + 1) := by
  rw [sizeAfter]
  split_ifs with hge
  · rw [toNat_add_one hoff]
    rw [ge_iff_le, UInt32.le_iff_toNat_le] at hge
    omega
  · rw [ge_iff_le, UInt32.le_iff_toNat_le] at hge
    omega

/-- A write inside the file: no growth, no inode update. -/
theorem FsInv.wp_write_space_inside (h : FsInv N d L) {ino : UInt32} (block : Block)
    (hi : ino.toNat < ninodesOf d) (hlt : offset.toNat < (nblocksOf d ino.toNat).toNat)
    (hspans : Spans d (depthOf d ino.toNat) (rootOf d ino.toNat) W) :
    (treediskWrite ino offset block).wp (inRange N)
      (fun _ d' => Spans d' (depthOf d' ino.toNat) (rootOf d' ino.toNat) (insert offset.toNat W))
      (fun _ _ => L.card + footprint 128 (depthOf d ino.toNat) W <
        footprint 128 (depthOf d ino.toNat) (insert offset.toNat W)) (fun _ => True) d := by
  have hsize : (snapshotOf d ino.toNat).nblocks = nblocksOf d ino.toNat := rfl
  have hcheck : ¬ offset ≥ nblocksOf d ino.toNat := by
    rw [ge_iff_le, UInt32.le_iff_toNat_le]
    omega
  have hne : nblocksOf d ino.toNat ≠ 0 := by
    intro hzero
    rw [hzero] at hlt
    exact absurd hlt (Nat.not_lt_zero _)
  have hroom := lt_of_lt_of_le hlt (le_pow_treeDepth (nblocksOf d ino.toNat))
  simp only [treediskWrite, wp_bind]
  apply wp_mono _ (h.header.wp_getSnapshot ino) _ fun _ _ he => he
  rintro r d' ⟨rfl, rfl⟩
  simp only [hi, if_true, hsize, hcheck, decide_false, hne, if_false, Bool.false_eq_true,
    Nat.sub_self, Nat.add_zero, growLevels, wp_bind, wp_pure, lt_irrefl, Bool.or_self]
  exact h.wp_finish_space block hi (h.ready_inside hi) hroom hspans

/-- A write at or past the end of the file, below the last offset. -/
theorem FsInv.wp_write_space_past (h : FsInv N d L) {ino : UInt32} (block : Block)
    (hi : ino.toNat < ninodesOf d) (hge : (nblocksOf d ino.toNat).toNat ≤ offset.toNat)
    (hoff : offset.toNat ≤ 2 ^ 32 - 2)
    (hspans : Spans d (depthOf d ino.toNat) (rootOf d ino.toNat) W) :
    (treediskWrite ino offset block).wp (inRange N)
      (fun _ d' => Spans d' (depthOf d' ino.toNat) (rootOf d' ino.toNat) (insert offset.toNat W))
      (fun _ _ => L.card + footprint 128 (depthOf d ino.toNat) W <
        footprint 128 (treeDepth (offset + 1)) (insert offset.toNat W)) (fun _ => True) d := by
  have hsize : (snapshotOf d ino.toNat).nblocks = nblocksOf d ino.toNat := rfl
  have hcheck : offset ≥ nblocksOf d ino.toNat := UInt32.le_iff_toNat_le.mpr hge
  have hadd := toNat_add_one hoff
  have hne : offset + 1 ≠ 0 := by
    intro hzero
    rw [hzero] at hadd
    exact absurd hadd (by simp)
  have hdepth := treeDepth_add_one hoff
  have hgrow : depthOf d ino.toNat ≤ levels offset := treeDepth_le_levels hge
  have hroom : offset.toNat < 128 ^ treeDepth (offset + 1) := by
    have hle := le_pow_treeDepth (offset + 1)
    omega
  have hnodup := (Multiset.nodup_cons.mp (h.nodup_free_file hi)).2
  simp only [treediskWrite, wp_bind]
  apply wp_mono _ (h.header.wp_getSnapshot ino) _ fun _ _ he => he
  rintro r d' ⟨rfl, rfl⟩
  have hlevels : treeDepth (nblocksOf d' ino.toNat) +
      (levels offset - treeDepth (nblocksOf d' ino.toNat)) = levels offset := by
    rw [depthOf] at hgrow
    omega
  have hturns := hlevels.trans hdepth.symm
  simp only [hi, if_true, hsize, hcheck, decide_true, setNblocks_nblocks, hne, if_false,
    Bool.true_or, wp_bind, wp_writeOrPanic, wp_pure, hlevels]
  have hroot : ((snapshotOf d' ino.toNat).setNblocks (offset + 1)).root = rootOf d' ino.toNat :=
    setNblocks_root _ _
  have hfree : Free d' ((snapshotOf d' ino.toNat).setNblocks (offset + 1)) L :=
    ⟨rfl, h.chain⟩
  have hvalid : ∀ x ∈ L, inRange N x = true := fun x hx => inRange_iff.mpr (h.lt_of_mem_free hx)
  have hnodup' : (L + nodes d' (depthOf d' ino.toNat)
      ((snapshotOf d' ino.toNat).setNblocks (offset + 1)).root).Nodup := by
    rw [hroot]
    exact hnodup
  -- what the new levels cost is the same before and after they are inserted
  have hcost := footprint_add hspans.lt (levels offset - treeDepth (nblocksOf d' ino.toNat))
  rw [depthOf, hturns] at hcost
  apply wp_weaken _ (wp_and _
    (wp_growLevels (n := depthOf d' ino.toNat) _ hfree hnodup' (inRange_iff.mpr h.zero_lt) hvalid)
    (wp_growLevels_spans (n := depthOf d' ino.toNat) _ hfree hnodup'
      (inRange_iff.mpr h.zero_lt) hvalid (by rw [hroot]; exact hspans)))
  · rintro s d₁ ⟨⟨L₁, hg, _⟩, hgrown⟩
    have hr := h.ready_grown hi hturns hg
    have hkept := (h.grown_frame hi hturns hg).2
    rw [depthOf, hturns] at hgrown
    have hspans₁ : Spans (Function.update d₁ (inodeBlockOf ino.toNat) s.inodeblock)
        (treeDepth (offset + 1)) s.root W :=
      hgrown.congr fun x hx => hkept x (Multiset.mem_add.mpr (Or.inr hx))
    have hfinish := h.wp_finish_space block hi hr hroom hspans₁
    rw [inRange_iff, hr.blockno]
    refine ⟨h.inodeBlockOf_lt hi, trivial, ?_⟩
    rw [hr.blockno, hdepth] at hfinish
    refine wp_mono _ hfinish (fun _ _ hq => hq) fun _ _ hshort => ?_
    have htaken := hg.card
    rw [hdepth] at hcost ⊢
    rw [depthOf]
    omega
  · rintro _ _ ⟨⟨_, hshort⟩, _⟩
    have hle := footprint_le_insert (k := 128) (n := treeDepth (offset + 1)) (W := W) offset.toNat
    rw [depthOf]
    omega
  · exact fun _ _ => trivial

/-- `treedisk_write` to an inode that exists, at any offset but the last: the tree spans the
    offset as well, or there are fewer free blocks than this takes. -/
theorem FsInv.wp_write_space (h : FsInv N d L) {ino : UInt32} (block : Block)
    (hi : ino.toNat < ninodesOf d) (hoff : offset.toNat ≤ 2 ^ 32 - 2)
    (hspans : Spans d (depthOf d ino.toNat) (rootOf d ino.toNat) W) :
    (treediskWrite ino offset block).wp (inRange N)
      (fun _ d' => Spans d' (depthOf d' ino.toNat) (rootOf d' ino.toNat) (insert offset.toNat W))
      (fun _ _ => L.card + footprint 128 (depthOf d ino.toNat) W <
        footprint 128 (treeDepth (sizeAfter d ino.toNat offset)) (insert offset.toNat W))
      (fun _ => True) d := by
  rw [sizeAfter]
  split_ifs with hge
  · exact h.wp_write_space_past block hi (UInt32.le_iff_toNat_le.mp hge) hoff hspans
  · rw [ge_iff_le, UInt32.le_iff_toNat_le, not_le] at hge
    exact h.wp_write_space_inside block hi hge hspans

end Write

/-! ## The store as a whole -/

section Store

variable {N : UInt32} {d d' : Store} {L : Multiset BlockNo} {W : UInt32 → Finset ℕ}
variable {calls : List Call}

/-- Blocks are counted: what is not free is the superblock, an inode block or in a tree. -/
theorem FsInv.card_free (h : FsInv N d L) :
    L.card + (1 + (d 0).nInodeblocks.toNat + ∑ i ∈ range (ninodesOf d), (fileNodes d i).card) =
      N.toNat := by
  have hN := N.toNat_lt
  have hlayout : layout d L = blockRange 0 N.toNat := by
    refine (Multiset.Nodup.ext h.nodup (nodup_blockRange (by omega))).mpr fun b => ?_
    rw [h.mem_layout, mem_blockRange (by omega), UInt32.lt_iff_toNat_lt]
    omega
  have hcard : ∀ a n, (blockRange a n).card = n := fun a n => by simp [blockRange]
  have htotal := congrArg Multiset.card hlayout
  rw [hcard, layout, Multiset.card_add, Multiset.card_add, Multiset.card_add,
    Multiset.card_singleton, inodeBlocks, hcard, Multiset.card_sum] at htotal
  omega

/-- The tree of every inode spans the offsets `W` of that inode. -/
structure Spaced (d : Store) (W : UInt32 → Finset ℕ) : Prop where
  spans : ∀ ino : UInt32, ino.toNat < ninodesOf d →
    Spans d (depthOf d ino.toNat) (rootOf d ino.toNat) (W ino)
  size : ∀ ino : UInt32, ino.toNat < ninodesOf d →
    (nblocksOf d ino.toNat).toNat = (W ino).sup (· + 1)
  /-- Nothing was ever written to an inode that does not exist. -/
  absent : ∀ ino : UInt32, ¬ ino.toNat < ninodesOf d → W ino = ∅

theorem spaced_format {n : BlockNo} (h : Formatted N n d) : Spaced d fun _ => ∅ := by
  refine ⟨fun ino hi => ?_, fun ino hi => ?_, fun _ _ => rfl⟩
  · rw [depthOf, h.nblocksOf_eq hi, treeDepth_zero, rootOf, h.inode_clear hi]
    exact spans_null
  · rw [h.nblocksOf_eq hi]
    rfl

/-- The offsets written to inode `ino`. -/
def offsetsOf (calls : List Call) (ino : UInt32) : Finset ℕ :=
  ((writesTo ino calls).map Prod.fst).toFinset

theorem offsetsOf_write (calls : List Call) (ino : UInt32) (offset : BlockNo) (block : Block) :
    offsetsOf (calls ++ [.write ino offset block]) =
      Function.update (offsetsOf calls) ino (insert offset.toNat (offsetsOf calls ino)) := by
  funext j
  rw [Function.update_apply]
  split_ifs with hj
  · ext x
    simp [offsetsOf, writesTo, hj]
  · simp [offsetsOf, writesTo, Ne.symm hj]

theorem offsetsOf_append (calls calls' : List Call) (ino : UInt32) :
    offsetsOf (calls ++ calls') ino = offsetsOf calls ino ∪ offsetsOf calls' ino := by
  simp [offsetsOf, writesTo]

theorem offsetsOf_create (calls : List Call) (stale : Block) (ninodes : UInt32) :
    offsetsOf (calls ++ [.create stale ninodes]) = offsetsOf calls := by
  funext j
  simp [offsetsOf, writesTo]

/-- A write adds its offset to the tree of its inode and leaves the other trees. -/
theorem Spaced.write (h : Spaced d W) (hinv : FsInv N d L) {ino : UInt32} {offset : BlockNo}
    {block : Block} (hi : ino.toNat < ninodesOf d) (hoff : offset.toNat ≤ 2 ^ 32 - 2)
    (hrun : (treediskWrite ino offset block).run (inRange N) d = (.returned 0, d')) :
    Spaced d' (Function.update W ino (insert offset.toNat (W ino))) := by
  have hstart : Intact N d ino.toNat offset d :=
    hinv.intact_of_untouched hi (Untouched.refl d L)
  obtain ⟨⟨_, hw, _⟩, hintact⟩ :=
    post_of_wp (wp_last _ (hinv.wp_write_accepted block hi hoff) hstart) hrun
  have hself := post_of_wp (hinv.wp_write_space block hi hoff (h.spans ino hi)) hrun
  have hninodes : ninodesOf d' = ninodesOf d := by rw [ninodesOf, ninodesOf, hw.nInodeblocks]
  have hother : ∀ j : UInt32, j.toNat < ninodesOf d → j ≠ ino → SameFile d d' j.toNat :=
    fun j hj hne => hintact.other _ hj fun heq => hne (UInt32.toNat_inj.mp heq)
  refine ⟨fun j hj => ?_, fun j hj => ?_, fun j hj => ?_⟩
  · rw [hninodes] at hj
    rw [Function.update_apply]
    split_ifs with hji
    · rw [hji]
      exact hself
    · have hsame := hother j hj hji
      rw [hsame.root, hsame.depth]
      exact (h.spans j hj).congr hsame.tree
  · rw [hninodes] at hj
    rw [Function.update_apply]
    split_ifs with hji
    · have hsize : (nblocksOf d' ino.toNat).toNat =
          max (nblocksOf d ino.toNat).toNat (offset.toNat + 1) :=
        congrArg SparseArray.size hw.file
      rw [hji, hsize, h.size ino hi, sup_insert, max_comm]
    · rw [(hother j hj hji).nblocks, h.size j hj]
  · rw [hninodes] at hj
    have hji : j ≠ ino := by
      rintro rfl
      exact hj hi
    rw [Function.update_of_ne hji]
    exact h.absent j hj

/-- In a store that was created and then used, the trees span the offsets written. -/
theorem spaced_of_run (h : Reached N calls d) : Spaced d (offsetsOf calls) := by
  obtain ⟨d₀, d₁, stale, ninodes, hzero, hcreate, hrun⟩ := h
  have hstart : ∃ n, Formatted N n d₁ := by
    rcases post_of_wp (wp_create_fresh (E := fun _ _ => True) stale ninodes hzero) hcreate with
      ⟨hr, _⟩ | ⟨_, hformat⟩
    · exact absurd hr (by decide)
    · exact ⟨_, hformat⟩
  obtain ⟨n, hformat⟩ := hstart
  refine (hrun.invariant_log (P := fun calls d => Spaced d (offsetsOf calls) ∧
    ∃ m, Represents N d m) ⟨spaced_format hformat, _, represents_format hformat⟩ ?_).1
  rintro calls d call d' ⟨hspaced, m, hfiles⟩ hstep
  refine ⟨?_, _, hfiles.step hstep⟩
  cases hstep with
  | @write ino offset block _ hoff hwrite =>
    obtain ⟨hi, _⟩ := hfiles.write hoff hwrite
    obtain ⟨L, hinv⟩ := hfiles.inv
    rw [offsetsOf_write]
    exact hspaced.write hinv hi hoff hwrite
  | create hrun =>
    rw [offsetsOf_create]
    rcases create_cases hrun with rfl | ⟨hnone, n', hformat'⟩
    · exact hspaced
    · -- a store without inodes has taken no write
      have hempty : offsetsOf calls = fun _ => ∅ := by
        funext ino
        apply hspaced.absent
        rw [ninodesOf, hnone]
        exact Nat.not_lt_zero _
      rw [hempty]
      exact spaced_format hformat'

/-! ## Space, from the calls alone -/

/-- The depth of a tree is the least with room for the file. -/
theorem treeDepth_eq_clog (n : BlockNo) : treeDepth n = Nat.clog 128 n.toNat := by
  apply Nat.le_antisymm
  · rcases Nat.eq_zero_or_pos n.toNat with hzero | hpos
    · rw [UInt32.toNat_inj.mp (hzero.trans UInt32.toNat_zero.symm), treeDepth_zero]
      exact Nat.zero_le _
    · have hle := Nat.le_pow_clog (b := 128) (by decide) n.toNat
      rw [treeDepth_of_pos hpos]
      apply levels_le_of_lt_pow
      rw [toNat_sub_one hpos]
      omega
  · exact Nat.clog_le_of_le_pow (le_pow_treeDepth n)

/-- The number of blocks that a file takes whose written offsets are `W`. -/
def fileSpace (W : Finset ℕ) : ℕ := footprint 128 (Nat.clog 128 (W.sup (· + 1))) W

/-- The number of blocks in use after the calls, in a store with `n` inode blocks. -/
def spaceOf (n : ℕ) (calls : List Call) : ℕ :=
  1 + n + ∑ i ∈ range (n * 64), fileSpace (offsetsOf calls (UInt32.ofNat i))

theorem fileSpace_empty : fileSpace ∅ = 0 := rfl

/-- More offsets take more space. -/
theorem fileSpace_mono {V V' : Finset ℕ} (h : V ⊆ V') : fileSpace V ≤ fileSpace V' := by
  have hdepth : Nat.clog 128 (V.sup (· + 1)) ≤ Nat.clog 128 (V'.sup (· + 1)) :=
    Nat.clog_mono_right 128 (sup_mono h)
  rw [fileSpace, fileSpace, footprint, footprint]
  calc ∑ j ∈ range (Nat.clog 128 (V.sup (· + 1)) + 1), #(level 128 V j)
      ≤ ∑ j ∈ range (Nat.clog 128 (V.sup (· + 1)) + 1), #(level 128 V' j) :=
        sum_le_sum fun j _ => card_le_card (level_mono h j)
    _ ≤ ∑ j ∈ range (Nat.clog 128 (V'.sup (· + 1)) + 1), #(level 128 V' j) :=
        sum_le_sum_of_subset (range_mono (Nat.add_le_add_right hdepth 1))

theorem Spaced.card_fileNodes (h : Spaced d W) (ino : UInt32) (hi : ino.toNat < ninodesOf d) :
    (fileNodes d ino.toNat).card = fileSpace (W ino) := by
  rw [fileNodes, (h.spans ino hi).card_nodes, depthOf, treeDepth_eq_clog, h.size ino hi, fileSpace]

/-- The number of free blocks. -/
theorem Spaced.card_free (h : Spaced d (offsetsOf calls)) (hinv : FsInv N d L) :
    L.card + spaceOf (d 0).nInodeblocks.toNat calls = N.toNat := by
  have hlt := hinv.ninodes_lt
  rw [← hinv.card_free, spaceOf]
  congr 2
  refine sum_congr rfl fun i hi => ?_
  have hi' : i < ninodesOf d := mem_range.mp hi
  have hword : (UInt32.ofNat i).toNat = i := UInt32.toNat_ofNat_of_lt (hi'.trans hlt)
  have hcard := h.card_fileNodes (UInt32.ofNat i) (by rwa [hword])
  rw [hword] at hcard
  exact hcard.symm

/-- A write changes the space of its own file. -/
theorem spaceOf_write (calls : List Call) {n : ℕ} (hn : n * 64 < 2 ^ 32) {ino : UInt32}
    (hi : ino.toNat < n * 64) (offset : BlockNo) (block : Block) :
    spaceOf n (calls ++ [.write ino offset block]) + fileSpace (offsetsOf calls ino) =
      spaceOf n calls + fileSpace (insert offset.toNat (offsetsOf calls ino)) := by
  have hmem : ino.toNat ∈ range (n * 64) := mem_range.mpr hi
  have hother : ∀ i ∈ (range (n * 64)).erase ino.toNat,
      fileSpace (offsetsOf (calls ++ [.write ino offset block]) (UInt32.ofNat i)) =
        fileSpace (offsetsOf calls (UInt32.ofNat i)) := by
    intro i hi'
    obtain ⟨hne, hlt⟩ := mem_erase.mp hi'
    rw [offsetsOf_write, Function.update_of_ne]
    rintro rfl
    exact hne (UInt32.toNat_ofNat_of_lt ((mem_range.mp hlt).trans hn)).symm
  rw [spaceOf, spaceOf, ← add_sum_erase _ _ hmem, ← add_sum_erase _ _ hmem,
    sum_congr rfl hother, UInt32.ofNat_toNat, offsetsOf_write, Function.update_self]
  omega

theorem spaceOf_mono (n : ℕ) (calls calls' : List Call) :
    spaceOf n calls ≤ spaceOf n (calls ++ calls') := by
  refine Nat.add_le_add_left (sum_le_sum fun i _ => fileSpace_mono ?_) _
  rw [offsetsOf_append]
  exact subset_union_left

/-- Calls that write one new file add the space of this file. -/
theorem spaceOf_append {n : ℕ} (hn : n * 64 < 2 ^ 32) {calls' : List Call} {ino : UInt32}
    (hi : ino.toNat < n * 64) (hfresh : offsetsOf calls ino = ∅)
    (hother : ∀ j ≠ ino, offsetsOf calls' j = ∅) :
    spaceOf n (calls ++ calls') = spaceOf n calls + fileSpace (offsetsOf calls' ino) := by
  have hmem : ino.toNat ∈ range (n * 64) := mem_range.mpr hi
  have hrest : ∀ i ∈ (range (n * 64)).erase ino.toNat,
      fileSpace (offsetsOf (calls ++ calls') (UInt32.ofNat i)) =
        fileSpace (offsetsOf calls (UInt32.ofNat i)) := by
    intro i hi'
    obtain ⟨hne, hlt⟩ := mem_erase.mp hi'
    rw [offsetsOf_append, hother, union_empty]
    rintro rfl
    exact hne (UInt32.toNat_ofNat_of_lt ((mem_range.mp hlt).trans hn)).symm
  rw [spaceOf, spaceOf, ← add_sum_erase _ _ hmem, ← add_sum_erase _ _ hmem,
    sum_congr rfl hrest, UInt32.ofNat_toNat, offsetsOf_append, hfresh, empty_union, fileSpace_empty]
  omega

/-- The space of the file after a write, with the depth as the code computes it. -/
theorem Spaced.fileSpace_insert (h : Spaced d W) {ino : UInt32} (hi : ino.toNat < ninodesOf d)
    {offset : BlockNo} (hoff : offset.toNat ≤ 2 ^ 32 - 2) :
    fileSpace (insert offset.toNat (W ino)) =
      footprint 128 (treeDepth (sizeAfter d ino.toNat offset)) (insert offset.toNat (W ino)) := by
  rw [fileSpace, treeDepth_eq_clog, toNat_sizeAfter hoff, h.size ino hi, sup_insert, max_comm]

/-- A write in a store that was created and then used: it succeeds, and the files with it fit
    the store, or it panics, and they would not. -/
theorem Reached.wp_write (h : Reached N calls d) {ino : UInt32} {offset : BlockNo} (block : Block)
    (hi : ino.toNat < ninodesOf d) (hoff : offset.toNat ≤ 2 ^ 32 - 2) :
    (treediskWrite ino offset block).wp (inRange N)
      (fun r d' => r = 0 ∧ Reached N (calls ++ [.write ino offset block]) d' ∧
        (d' 0).nInodeblocks = (d 0).nInodeblocks ∧
        spaceOf (d 0).nInodeblocks.toNat (calls ++ [.write ino offset block]) ≤ N.toNat)
      (fun msg _ => msg = fullMessage ∧
        N.toNat < spaceOf (d 0).nInodeblocks.toNat (calls ++ [.write ino offset block]))
      (fun _ => True) d := by
  have hspaced := spaced_of_run h
  obtain ⟨L, hinv⟩ := (represents_of_run h).inv
  have hfree := hspaced.card_free hinv
  apply wp_weaken _ (wp_run _ (wp_and _ (hinv.wp_write_accepted block hi hoff)
    (hinv.wp_write_space block hi hoff (hspaced.spans ino hi))))
  · rintro r d' ⟨⟨⟨rfl, hw, _⟩, _⟩, hrun⟩
    obtain ⟨d₀, d₁, stale, ninodes, hzero, hcreate, hcalls⟩ := h
    have hnext : Reached N (calls ++ [.write ino offset block]) d' :=
      ⟨d₀, d₁, stale, ninodes, hzero, hcreate, .snoc hcalls (.write hoff hrun)⟩
    -- the files after the write are in a store of the same size
    obtain ⟨L', hinv'⟩ := hw.inv
    have hfree' := (spaced_of_run hnext).card_free hinv'
    rw [hw.nInodeblocks] at hfree'
    exact ⟨rfl, hnext, hw.nInodeblocks, by omega⟩
  · rintro msg _ ⟨⟨⟨rfl, _⟩, hshort⟩, _⟩
    have hspace := spaceOf_write calls hinv.ninodes_lt hi offset block
    rw [hspaced.fileSpace_insert hi hoff, ← hspaced.card_fileNodes ino hi, fileNodes,
      (hspaced.spans ino hi).card_nodes] at hspace
    exact ⟨rfl, by omega⟩
  · exact fun _ _ => trivial

/-- In every store that was created and then used, the number of free blocks and the result
    of the next write follow from the offsets written so far: the write succeeds exactly if
    the files then fit the store, and otherwise panics on an empty free list. -/
theorem treedisk_space (h : Reached N calls d) :
    (∃ L, Chain d (d 0).freeList L ∧
      L.card + spaceOf (d 0).nInodeblocks.toNat calls = N.toNat) ∧
    ∀ (ino : UInt32) (offset : BlockNo) (block : Block), ino.toNat < ninodesOf d →
      offset.toNat ≤ 2 ^ 32 - 2 →
      ((treediskWrite ino offset block).run (inRange N) d).1 =
        if spaceOf (d 0).nInodeblocks.toNat (calls ++ [.write ino offset block]) ≤ N.toNat
        then .returned 0 else .halted fullMessage := by
  obtain ⟨L, hinv⟩ := (represents_of_run h).inv
  refine ⟨⟨L, hinv.chain, (spaced_of_run h).card_free hinv⟩, fun ino offset block hi hoff => ?_⟩
  have hwrite := h.wp_write block hi hoff
  match hrun : (treediskWrite ino offset block).run (inRange N) d with
  | (.returned r, d') =>
    obtain ⟨rfl, _, _, hfits⟩ := post_of_wp hwrite hrun
    rw [if_pos hfits]
  | (.halted msg, d') =>
    obtain ⟨rfl, hfull⟩ := stop_of_wp hwrite hrun
    rw [if_neg (not_le.mpr hfull)]

/-- The file grows by two levels, and with them there is room for its second block. -/
theorem treedisk_space_usedStore :
    spaceOf 1 [.write 0 3 fun _ => 7, .write 0 200 fun _ => 8] = 7 ∧
      ((treediskWrite 0 200 fun _ => 8).run (inRange 10) usedStore).1 = .returned 0 := by
  have hspace : spaceOf 1 [.write 0 3 fun _ => 7, .write 0 200 fun _ => 8] = 7 := by decide +kernel
  have hblocks : (usedStore 0).nInodeblocks.toNat = 1 := by decide +kernel
  refine ⟨hspace, ?_⟩
  rw [(treedisk_space reached_usedStore).2 0 200 _ (by decide +kernel) (by decide), hblocks,
    List.singleton_append, hspace]
  rfl

end Store

end Egos.TreeDisk
