import Egos.TreeDisk.Alloc
import Egos.TreeDisk.Levels

/-!
# The Tree File System: Walking and Growing a Tree

The three loops over the tree of a file, each as an operation on radix trees:

- `wp_readWalk`: the loop of `treedisk_read` returns `fileBlock`, the block at the end of
  the path of an offset, zeros for a hole.
- `Walked`: the loop of `treedisk_write` replaces the block of one offset. Blocks it
  links into the tree come out of the free list, every other block of the tree and
  everything outside tree, parent block, superblock and free list is untouched. The loop
  itself is in `Egos.TreeDisk.WriteLoop`.
- `wp_growLevels`: the loop that inserts indirect blocks above the root keeps every block
  of the old tree and adds zeros for the new offsets.
-/

namespace Egos.TreeDisk

open Egos.Lib Egos.Lib.BlockProg Egos.Lib.FreeList Egos.Lib.RadixTree

/-! ## The block of an offset -/

/-- The block at offset `off` of the tree of depth `n` below `b`; a hole is zeros. -/
def fileBlock (d : Store) (n : Nat) (b : BlockNo) (off : Nat) : Block :=
  if leaf d n b off = 0 then nullBlock else d (leaf d n b off)

@[simp] theorem fileBlock_null (d : Store) (n off : Nat) : fileBlock d n 0 off = nullBlock := by
  simp [fileBlock]

theorem fileBlock_zero {d : Store} {b : BlockNo} (hb : b ≠ 0) (off : Nat) :
    fileBlock d 0 b off = d b := by
  simp [fileBlock, leaf, hb]

theorem fileBlock_succ {d : Store} {n : Nat} {b : BlockNo} (hb : b ≠ 0) (off : Nat) :
    fileBlock d (n + 1) b off = fileBlock d n (d b (digit 128 n off)) off := by
  simp only [fileBlock, leaf_succ hb]

/-- The blocks of a tree only depend on the store at the blocks of the tree. -/
theorem fileBlock_congr {d d' : Store} {n : Nat} {b : BlockNo}
    (h : ∀ x ∈ nodes d n b, d' x = d x) (off : Nat) :
    fileBlock d' n b off = fileBlock d n b off := by
  simp only [fileBlock, leaf_congr h]
  split_ifs with hleaf
  · rfl
  · exact h _ (leaf_mem_nodes hleaf)

/-! ## Reading -/

/-- The read loop returns the block at the end of the path and changes nothing. -/
theorem wp_readWalk {valid : BlockNo → Bool} {d : Store} {E : String → Store → Prop}
    (offset : BlockNo) (n : Nat) (b : BlockNo) (hvalid : ∀ x ∈ nodes d n b, valid x = true) :
    (treediskReadWalk offset n b).wp valid
      (fun r d' => r = some (fileBlock d n b offset.toNat) ∧ d' = d) E (fun _ => True) d := by
  induction n generalizing b with
  | zero =>
    by_cases hb : b = 0
    · simp [treediskReadWalk, hb]
    · have hroot : valid b = true := hvalid b (root_mem_nodes hb)
      simp [treediskReadWalk, hb, hroot, fileBlock_zero hb]
  | succ n ih =>
    by_cases hb : b = 0
    · simp [treediskReadWalk, hb]
    · have hroot : valid b = true := hvalid b (root_mem_nodes hb)
      simp only [treediskReadWalk, hb, if_false, wp_bind, wp_belowRead]
      refine ⟨hroot, ?_⟩
      rw [fileBlock_succ hb, refIndex_eq_digit]
      apply ih
      intro x hx
      exact hvalid x (Multiset.mem_of_le (nodes_child_le hb _) hx)

/-- Along a route the read loop finds the block at its end, whatever the rest of the tree
    looks like. -/
theorem wp_readWalk_route {valid : BlockNo → Bool} {d : Store} {E : String → Store → Prop}
    {offset : BlockNo} {n : Nat} {b x : BlockNo}
    (hroute : Route (fun y => valid y = true) d offset.toNat n b x) :
    (treediskReadWalk offset n b).wp valid (fun r d' => r = some (d x) ∧ d' = d) E
      (fun _ => True) d := by
  induction hroute with
  | last hx hP =>
    simp only [treediskReadWalk, hx, if_false, wp_belowRead]
    exact ⟨hP, trivial, trivial⟩
  | next hb hP _ ih =>
    simp only [treediskReadWalk, hb, if_false, wp_bind, wp_belowRead]
    rw [refIndex_eq_digit]
    exact ⟨hP, ih⟩

/-! ## Writing -/

/-- What the write loop may rely on: the buffered parent block is the one on disk, unless
    the slot to fill is empty, and parent, free list and tree share no block. -/
structure WalkPre (valid : BlockNo → Bool) (d : Store) (s : Snapshot) (L : Multiset BlockNo)
    (n : Nat) (parentOff : BlockNo) (parent : Block) (slot : Fin 128) : Prop where
  free : Free d s L
  nodup : (parentOff ::ₘ (L + nodes d n (parent slot))).Nodup
  parent_ne : parentOff ≠ 0
  buffer : d parentOff = parent ∨ parent slot = 0
  valid_zero : valid 0 = true
  valid_mem : ∀ x ∈ parentOff ::ₘ (L + nodes d n (parent slot)), valid x = true

/-- What the write loop leaves behind: `r` is the new root below the parent's slot. -/
structure Walked (d : Store) (L : Multiset BlockNo) (n : Nat) (parentOff : BlockNo)
    (parent : Block) (slot : Fin 128) (offset : BlockNo) (block : Block)
    (L' : Multiset BlockNo) (r : BlockNo) (d' : Store) : Prop where
  chain : Chain d' (d' 0).freeList L'
  nInodeblocks : (d' 0).nInodeblocks = (d 0).nInodeblocks
  root_ne : r ≠ 0
  parent_eq : d' parentOff = Function.update parent slot r
  conserve : L' + nodes d' n r = L + nodes d n (parent slot)
  content : ∀ off, fileBlock d' n r off =
    if off % 128 ^ n = offset.toNat % 128 ^ n then block else fileBlock d n (parent slot) off
  frame : ∀ x, x ≠ 0 → x ≠ parentOff → x ∉ L → x ∉ nodes d n (parent slot) → d' x = d x

/-- The same with a root that may still be null: what there is of the tree when the walk
    panics, with `block` what is read at the offset. -/
structure Replaced (d : Store) (L : Multiset BlockNo) (n : Nat) (parentOff : BlockNo)
    (parent : Block) (slot : Fin 128) (offset : BlockNo) (block : Block)
    (L' : Multiset BlockNo) (r : BlockNo) (d' : Store) : Prop where
  chain : Chain d' (d' 0).freeList L'
  nInodeblocks : (d' 0).nInodeblocks = (d 0).nInodeblocks
  parent_eq : d' parentOff = Function.update parent slot r
  conserve : L' + nodes d' n r = L + nodes d n (parent slot)
  content : ∀ off, fileBlock d' n r off =
    if off % 128 ^ n = offset.toNat % 128 ^ n then block else fileBlock d n (parent slot) off
  frame : ∀ x, x ≠ 0 → x ≠ parentOff → x ∉ L → x ∉ nodes d n (parent slot) → d' x = d x

section Walk

variable {valid : BlockNo → Bool} {d : Store} {s : Snapshot} {L : Multiset BlockNo}
variable {n : Nat} {parentOff : BlockNo} {parent : Block} {slot : Fin 128}
variable {offset : BlockNo} {block : Block}

theorem Walked.replaced {L' : Multiset BlockNo} {r : BlockNo} {d' : Store}
    (h : Walked d L n parentOff parent slot offset block L' r d') :
    Replaced d L n parentOff parent slot offset block L' r d' :=
  ⟨h.chain, h.nInodeblocks, h.parent_eq, h.conserve, h.content, h.frame⟩

theorem Replaced.walked {L' : Multiset BlockNo} {r : BlockNo} {d' : Store}
    (h : Replaced d L n parentOff parent slot offset block L' r d') (hr : r ≠ 0) :
    Walked d L n parentOff parent slot offset block L' r d' :=
  ⟨h.chain, h.nInodeblocks, hr, h.parent_eq, h.conserve, h.content, h.frame⟩

theorem WalkPre.nodup_parts (h : WalkPre valid d s L n parentOff parent slot) :
    parentOff ∉ L ∧ parentOff ∉ nodes d n (parent slot) ∧ L.Nodup ∧
      (nodes d n (parent slot)).Nodup ∧ ∀ x ∈ L, x ∉ nodes d n (parent slot) := by
  have hnodup := h.nodup
  rw [Multiset.nodup_cons, Multiset.mem_add, not_or, Multiset.nodup_add] at hnodup
  obtain ⟨⟨hL, hT⟩, hLn, hTn, hdisj⟩ := hnodup
  exact ⟨hL, hT, hLn, hTn, fun x hx => Multiset.disjoint_left.mp hdisj hx⟩

theorem WalkPre.valid_parent (h : WalkPre valid d s L n parentOff parent slot) :
    valid parentOff = true :=
  h.valid_mem parentOff (Multiset.mem_cons_self _ _)

theorem WalkPre.valid_free (h : WalkPre valid d s L n parentOff parent slot) {x : BlockNo}
    (hx : x ∈ L) : valid x = true :=
  h.valid_mem x (Multiset.mem_cons_of_mem (Multiset.mem_add.mpr (Or.inl hx)))

theorem WalkPre.valid_tree (h : WalkPre valid d s L n parentOff parent slot) {x : BlockNo}
    (hx : x ∈ nodes d n (parent slot)) : valid x = true :=
  h.valid_mem x (Multiset.mem_cons_of_mem (Multiset.mem_add.mpr (Or.inr hx)))

/-- The data block exists already: it is overwritten in place. -/
theorem walked_overwrite (offset : BlockNo) (block : Block)
    (h : WalkPre valid d s L 0 parentOff parent slot)
    (hb : parent slot ≠ 0) :
    Walked d L 0 parentOff parent slot offset block L (parent slot)
      (Function.update d (parent slot) block) := by
  obtain ⟨_, hparent, _, _, hdisj⟩ := h.nodup_parts
  have hroot : parent slot ∈ nodes d 0 (parent slot) := root_mem_nodes hb
  have hparent_ne : parentOff ≠ parent slot := by
    intro heq
    exact hparent (by rw [heq]; exact hroot)
  have hsuper : Function.update d (parent slot) block 0 = d 0 :=
    Function.update_of_ne hb.symm _ d
  refine ⟨?_, by rw [hsuper], hb, ?_, ?_, ?_, ?_⟩
  · rw [hsuper, h.free.super]
    apply h.free.chain.congr
    intro x hx
    apply Function.update_of_ne
    rintro rfl
    exact hdisj _ hx hroot
  · rw [Function.update_of_ne hparent_ne, h.buffer.resolve_right hb, Function.update_eq_self]
  · rw [nodes_zero hb, nodes_zero hb]
  · intro off
    rw [fileBlock_zero hb, Function.update_self]
    simp [Nat.mod_one]
  · intro x _ _ _ hx
    rw [nodes_zero hb, Multiset.mem_singleton] at hx
    exact Function.update_of_ne hx _ d

/-- After an allocation, the parent block is written with the new block in its slot. -/
theorem linked_free {b : BlockNo} {L' : Multiset BlockNo} {s' : Snapshot} {d' : Store}
    (h : WalkPre valid d s L n parentOff parent slot) (ha : Allocated d s L b L' s' d') :
    Free (Function.update d' parentOff (Function.update parent slot b)) s' L' := by
  obtain ⟨hparentL, _⟩ := h.nodup_parts
  refine ⟨?_, ?_⟩
  · rw [Function.update_of_ne h.parent_ne.symm, ha.free.super]
  · apply ha.free.chain.congr
    intro x hx
    apply Function.update_of_ne
    rintro rfl
    exact hparentL (ha.taken ▸ Multiset.mem_cons_of_mem hx)

theorem Allocated.block_ne {b : BlockNo} {L' : Multiset BlockNo} {s' : Snapshot} {d' : Store}
    (hfree : Free d s L) (ha : Allocated d s L b L' s' d') : b ≠ 0 :=
  hfree.chain.ne_zero_of_mem (ha.taken ▸ Multiset.mem_cons_self b L')

/-- The loop starts again below a block just linked: its buffer is all zeros, so what the
    block holds on disk does not matter. -/
theorem linked_pre {b : BlockNo} {L' : Multiset BlockNo} {s' : Snapshot} {d' : Store}
    (h : WalkPre valid d s L (n + 1) parentOff parent slot) (ha : Allocated d s L b L' s' d')
    (idx : Fin 128) :
    WalkPre valid (Function.update d' parentOff (Function.update parent slot b)) s' L' n b
      nullBlock idx := by
  obtain ⟨_, _, hLn, _⟩ := h.nodup_parts
  have hnull : nullBlock idx = 0 := rfl
  refine ⟨linked_free h ha, ?_, ha.block_ne h.free, Or.inr hnull, h.valid_zero, ?_⟩
  · rw [hnull, nodes_null, add_zero, ← ha.taken]
    exact hLn
  · intro x hx
    rw [hnull, nodes_null, add_zero, ← ha.taken] at hx
    exact h.valid_free hx

/-- A data block is allocated, linked and written. -/
theorem walked_leaf (offset : BlockNo) (block : Block) {b : BlockNo} {L' : Multiset BlockNo}
    {s' : Snapshot} {d' : Store} (h : WalkPre valid d s L 0 parentOff parent slot) (hslot : parent slot = 0)
    (ha : Allocated d s L b L' s' d') :
    Walked d L 0 parentOff parent slot offset block L' b
      (Function.update (Function.update d' parentOff (Function.update parent slot b)) b
        block) := by
  obtain ⟨hparentL, _, hLn, _⟩ := h.nodup_parts
  have hb : b ≠ 0 := ha.block_ne h.free
  have hbL : b ∈ L := ha.taken ▸ Multiset.mem_cons_self b L'
  have hbL' : b ∉ L' := (Multiset.nodup_cons.mp (ha.taken ▸ hLn)).1
  have hparent_ne : parentOff ≠ b := by
    rintro rfl
    exact hparentL hbL
  have hfree := linked_free h ha
  have hsuper : Function.update (Function.update d' parentOff (Function.update parent slot b))
      b block 0 = s'.superblock := by
    rw [Function.update_of_ne hb.symm, hfree.super]
  refine ⟨?_, ?_, hb, ?_, ?_, ?_, ?_⟩
  · rw [hsuper]
    apply hfree.chain.congr
    intro x hx
    apply Function.update_of_ne
    rintro rfl
    exact hbL' hx
  · rw [hsuper, h.free.super]
    exact ha.same.nInodeblocks
  · rw [Function.update_of_ne hparent_ne, Function.update_self]
  · rw [nodes_zero hb, hslot, nodes_null, add_zero, ha.taken, add_comm, Multiset.singleton_add]
  · intro off
    rw [fileBlock_zero hb, Function.update_self]
    simp [Nat.mod_one]
  · intro x hx0 hxp hxL _
    have hxb : x ≠ b := by
      rintro rfl
      exact hxL hbL
    rw [Function.update_of_ne hxb, Function.update_of_ne hxp, ha.frame x hx0 hxL]

/-- `d'` is `d` outside the superblock, block `p`, the blocks `L` and the blocks `T`. -/
def SameOutside (d d' : Store) (p : BlockNo) (L T : Multiset BlockNo) : Prop :=
  ∀ x, x ≠ 0 → x ≠ p → x ∉ L → x ∉ T → d' x = d x

/-- What is written below a block just linked stays within the free list. -/
theorem link_frame {b : BlockNo} {L₁ : Multiset BlockNo} {s₁ : Snapshot} {d₁ d₂ : Store}
    {idx : Fin 128} (h : WalkPre valid d s L (n + 1) parentOff parent slot)
    (ha : Allocated d s L b L₁ s₁ d₁)
    (hframe : SameOutside (Function.update d₁ parentOff (Function.update parent slot b)) d₂ b L₁
      (nodes (Function.update d₁ parentOff (Function.update parent slot b)) n
        (nullBlock idx))) :
    d₂ parentOff = Function.update parent slot b ∧
      ∀ x, x ≠ 0 → x ≠ parentOff → x ∉ L → d₂ x = d x := by
  obtain ⟨hparentL, _⟩ := h.nodup_parts
  have hbL : b ∈ L := ha.taken ▸ Multiset.mem_cons_self b L₁
  have hsub : ∀ x, x ∈ L₁ → x ∈ L := fun x hx => ha.taken ▸ Multiset.mem_cons_of_mem hx
  have hsame : ∀ x, x ≠ 0 → x ∉ L →
      d₂ x = Function.update d₁ parentOff (Function.update parent slot b) x := by
    intro x hx0 hxL
    apply hframe x hx0
    · rintro rfl
      exact hxL hbL
    · exact fun hx => hxL (hsub x hx)
    · -- the tree of a null reference is empty
      rw [show nullBlock idx = 0 from rfl, nodes_null]
      exact Multiset.notMem_zero x
  constructor
  · rw [hsame parentOff h.parent_ne hparentL, Function.update_self]
  · intro x hx0 hxp hxL
    rw [hsame x hx0 hxL, Function.update_of_ne hxp, ha.frame x hx0 hxL]

/-- An indirect block is allocated and linked, and the walk goes on below it. -/
theorem replaced_link {b r : BlockNo} {L₁ L₂ : Multiset BlockNo} {s₁ : Snapshot} {d₁ d₂ : Store}
    (h : WalkPre valid d s L (n + 1) parentOff parent slot) (hslot : parent slot = 0)
    (ha : Allocated d s L b L₁ s₁ d₁)
    (hw : Replaced (Function.update d₁ parentOff (Function.update parent slot b)) L₁ n b nullBlock
      (refIndex offset n) offset block L₂ r d₂) :
    Replaced d L (n + 1) parentOff parent slot offset block L₂ b d₂ := by
  obtain ⟨hparent, hframe⟩ := link_frame h ha hw.frame
  have hb : b ≠ 0 := ha.block_ne h.free
  have hnull : ∀ i : Fin 128, nullBlock i = 0 := fun _ => rfl
  -- below `b` only the child on the path of the offset is not a hole
  have hother : ∀ i ≠ refIndex offset n, d₂ b i = 0 := by
    intro i hi
    rw [hw.parent_eq, Function.update_of_ne hi, hnull]
  have hchild : d₂ b (refIndex offset n) = r := by
    rw [hw.parent_eq, Function.update_self]
  refine ⟨hw.chain, ?_, hparent, ?_, ?_, fun x hx0 hxp hxL _ => hframe x hx0 hxp hxL⟩
  · rw [hw.nInodeblocks, Function.update_of_ne h.parent_ne.symm]
    exact (ha.untouched h.free).nInodeblocks
  · have hconserve := hw.conserve
    rw [hnull, nodes_null, add_zero] at hconserve
    rw [nodes_addRoot hb hchild hother, hslot, nodes_null, add_zero, Multiset.add_cons,
      hconserve, ha.taken]
  · intro off
    rw [fileBlock_succ hb, hslot, fileBlock_null]
    simp only [mod_pow_succ_eq_iff]
    by_cases hdigit : digit 128 n off = refIndex offset n
    · rw [hdigit, hchild, hw.content off, hnull, fileBlock_null, refIndex_eq_digit]
      simp
    · rw [hother _ hdigit, fileBlock_null, if_neg]
      rw [← refIndex_eq_digit]
      exact fun hand => hdigit hand.1

/-- The loop goes on below an indirect block that exists already. -/
theorem descend_pre (h : WalkPre valid d s L (n + 1) parentOff parent slot)
    (hb : parent slot ≠ 0) (idx : Fin 128) :
    WalkPre valid d s L n (parent slot) (d (parent slot)) idx := by
  have hle : parent slot ::ₘ (L + nodes d n (d (parent slot) idx)) ≤
      L + nodes d (n + 1) (parent slot) := by
    rw [nodes_succ hb, Multiset.add_cons, Multiset.cons_le_cons_iff]
    apply add_le_add_right
    exact Finset.single_le_sum (f := fun i => nodes d n (d (parent slot) i))
      (fun _ _ => Multiset.zero_le _) (Finset.mem_univ idx)
  have hle' := hle.trans (Multiset.le_cons_self _ parentOff)
  exact ⟨h.free, Multiset.nodup_of_le hle' h.nodup, hb, Or.inl rfl, h.valid_zero,
    fun x hx => h.valid_mem x (Multiset.mem_of_le hle' hx)⟩

/-- What is written below an indirect block that exists already stays away from the parent
    and from the trees of the other references. -/
theorem descend_frame {d' : Store} {idx : Fin 128}
    (h : WalkPre valid d s L (n + 1) parentOff parent slot) (hb : parent slot ≠ 0)
    (hframe : SameOutside d d' (parent slot) L (nodes d n (d (parent slot) idx))) :
    d' parentOff = d parentOff ∧
      (∀ i ≠ idx, ∀ x ∈ nodes d n (d (parent slot) i), d' x = d x) ∧
      SameOutside d d' parentOff L (nodes d (n + 1) (parent slot)) := by
  obtain ⟨hparentL, hparentT, _, hTn, hdisj⟩ := h.nodup_parts
  have hchild_le : ∀ i, nodes d n (d (parent slot) i) ≤ nodes d (n + 1) (parent slot) :=
    nodes_child_le hb
  have hroot : parent slot ∈ nodes d (n + 1) (parent slot) := root_mem_nodes hb
  have hout : ∀ x, x ≠ 0 → x ∉ L → x ∉ nodes d (n + 1) (parent slot) → d' x = d x := by
    intro x hx0 hxL hxT
    refine hframe x hx0 ?_ hxL fun hx => hxT (Multiset.mem_of_le (hchild_le _) hx)
    rintro rfl
    exact hxT hroot
  refine ⟨hout parentOff h.parent_ne hparentL hparentT, ?_, fun x hx0 _ => hout x hx0⟩
  intro i hi x hx
  have hxT := Multiset.mem_of_le (hchild_le i) hx
  apply hframe x (ne_zero_of_mem_nodes hx)
  · rintro rfl
    exact root_notMem_child hTn hb i hx
  · exact fun hxL => hdisj x hxL hxT
  · exact notMem_other_child hTn hb hi hx

/-- A walk below an existing indirect block is a walk at that block: the trees of the
    other references are framed out. -/
theorem replaced_descend {r : BlockNo} {L' : Multiset BlockNo} {d' : Store}
    (h : WalkPre valid d s L (n + 1) parentOff parent slot) (hb : parent slot ≠ 0)
    (hw : Replaced d L n (parent slot) (d (parent slot)) (refIndex offset n) offset block L' r
      d') :
    Replaced d L (n + 1) parentOff parent slot offset block L' (parent slot) d' := by
  obtain ⟨hparent, hsibling, hframe⟩ := descend_frame h hb hw.frame
  refine ⟨hw.chain, hw.nInodeblocks, ?_, ?_, ?_, hframe⟩
  · rw [hparent, h.buffer.resolve_right hb, Function.update_eq_self]
  · exact nodes_graft hb hw.parent_eq (fun i hi => nodes_congr (hsibling i hi)) hw.conserve
  · intro off
    rw [fileBlock_succ hb, fileBlock_succ hb, hw.parent_eq]
    simp only [mod_pow_succ_eq_iff]
    by_cases hdigit : digit 128 n off = refIndex offset n
    · rw [hdigit, Function.update_self, hw.content off, refIndex_eq_digit]
      simp
    · rw [Function.update_of_ne hdigit, fileBlock_congr (hsibling _ hdigit), if_neg]
      rw [← refIndex_eq_digit]
      exact fun hand => hdigit hand.1

/-- A walk that finds no block to link leaves the tree as it is. -/
theorem replaced_stuck (offset : BlockNo) (h : WalkPre valid d s L n parentOff parent slot)
    (hslot : parent slot = 0) (hparent : d parentOff = parent) :
    Replaced d L n parentOff parent slot offset (fileBlock d n (parent slot) offset.toNat) L 0
      d := by
  refine ⟨?_, rfl, ?_, ?_, ?_, fun _ _ _ _ _ => rfl⟩
  · rw [h.free.super]
    exact h.free.chain
  · rw [hparent, ← hslot, Function.update_eq_self]
  · rw [hslot]
  · intro off
    simp only [hslot, fileBlock_null, ite_self]

end Walk

/-! ## Growing -/

/-- What the growing loop leaves behind after inserting `turns` levels above the root of a
    tree of depth `n`. -/
structure Grown (d : Store) (s : Snapshot) (L : Multiset BlockNo) (n turns : Nat)
    (L' : Multiset BlockNo) (s' : Snapshot) (d' : Store) : Prop where
  free : Free d' s' L'
  inodeblock : s'.inodeblock = Function.update s.inodeblock (rootWord s.inode) s'.root
  inodeBlockno : s'.inodeBlockno = s.inodeBlockno
  inode : s'.inode = s.inode
  nInodeblocks : s'.superblock.nInodeblocks = s.superblock.nInodeblocks
  card : L.card = L'.card + turns
  conserve : L' + nodes d' (n + turns) s'.root = L + nodes d n s.root
  content : ∀ off < 128 ^ (n + turns), fileBlock d' (n + turns) s'.root off =
    if off < 128 ^ n then fileBlock d n s.root off else nullBlock
  frame : ∀ x, x ≠ 0 → x ∉ L → d' x = d x

section Grow

variable {valid : BlockNo → Bool} {d : Store} {s : Snapshot} {L : Multiset BlockNo}

@[simp] theorem setRoot_root (s : Snapshot) (b : BlockNo) : (s.setRoot b).root = b := by
  simp [Snapshot.setRoot, Snapshot.root]

theorem SameInode.root {s s' : Snapshot} (h : SameInode s s') : s'.root = s.root := by
  rw [Snapshot.root, Snapshot.root, h.inodeblock, h.inode]

theorem grown_refl {n : Nat} (h : Free d s L) : Grown d s L n 0 L s d := by
  refine ⟨h, ?_, rfl, rfl, rfl, rfl, rfl, ?_, fun _ _ _ => rfl⟩
  · rw [Snapshot.root, Function.update_eq_self]
  · intro off hoff
    rw [add_zero] at hoff ⊢
    rw [if_pos hoff]

/-- The indirect block of one turn: the old root is its first reference. -/
def growBlock (s : Snapshot) : Block := Function.update nullBlock 0 s.root

/-- The old tree shares no block with the free list, so one turn of the loop keeps it. -/
theorem grow_old {n : Nat} {b : BlockNo} {L' : Multiset BlockNo} {s' : Snapshot} {d' : Store}
    (hnodup : (L + nodes d n s.root).Nodup) (ha : Allocated d s L b L' s' d') {x : BlockNo}
    (hx : x ∈ nodes d n s.root) : Function.update d' b (growBlock s') x = d x := by
  have hbL : b ∈ L := ha.taken ▸ Multiset.mem_cons_self b L'
  have hxL : x ∉ L := fun hxL =>
    Multiset.disjoint_left.mp (Multiset.nodup_add.mp hnodup).2.2 hxL hx
  have hxb : x ≠ b := by
    rintro rfl
    exact hxL hbL
  rw [Function.update_of_ne hxb, ha.frame x (ne_zero_of_mem_nodes hx) hxL]

theorem grow_first {b : BlockNo} {L' : Multiset BlockNo} {s' : Snapshot} {d' : Store}
    (ha : Allocated d s L b L' s' d') : Function.update d' b (growBlock s') b 0 = s.root := by
  rw [Function.update_self, growBlock, Function.update_self]
  exact ha.same.root

/-- One turn of the loop: a block is allocated, gets the old root as its first reference
    and becomes the new root. -/
theorem grown_one {n : Nat} {b : BlockNo} {L' : Multiset BlockNo} {s' : Snapshot} {d' : Store}
    (h : Free d s L) (hnodup : (L + nodes d n s.root).Nodup)
    (ha : Allocated d s L b L' s' d') :
    Grown d s L n 1 L' (s'.setRoot b) (Function.update d' b (growBlock s')) := by
  have hb : b ≠ 0 := ha.block_ne h
  have hbL : b ∈ L := ha.taken ▸ Multiset.mem_cons_self b L'
  have hbL' : b ∉ L' :=
    (Multiset.nodup_cons.mp (ha.taken ▸ (Multiset.nodup_add.mp hnodup).1)).1
  have hold : ∀ x ∈ nodes d n s.root, Function.update d' b (growBlock s') x = d x :=
    fun x hx => grow_old hnodup ha hx
  have hrest : ∀ i ≠ 0, Function.update d' b (growBlock s') b i = 0 := by
    intro i hi
    rw [Function.update_self, growBlock, Function.update_of_ne hi]
    rfl
  refine ⟨⟨?_, ?_⟩, ?_, ha.same.inodeBlockno, ha.same.inode, ha.same.nInodeblocks, ?_, ?_, ?_,
    ?_⟩
  · rw [Function.update_of_ne hb.symm, ha.free.super]
    rfl
  · apply ha.free.chain.congr
    intro x hx
    apply Function.update_of_ne
    rintro rfl
    exact hbL' hx
  · rw [setRoot_root, Snapshot.setRoot, ha.same.inodeblock, ha.same.inode]
  · rw [ha.taken, Multiset.card_cons]
  · rw [setRoot_root, nodes_addRoot hb (grow_first ha) hrest, nodes_congr hold,
      Multiset.add_cons, ha.taken, Multiset.cons_add]
  · intro off hoff
    rw [setRoot_root, fileBlock_succ hb]
    split_ifs with hlt
    · have hdigit : digit 128 n off = 0 := Fin.ext (digit_eq_zero_of_lt 128 hlt)
      rw [hdigit, grow_first ha, fileBlock_congr hold]
    · have hdigit : digit 128 n off ≠ 0 := by
        intro hzero
        exact digit_ne_zero_of_le 128 (not_lt.mp hlt) hoff (congrArg Fin.val hzero)
      rw [hrest _ hdigit, fileBlock_null]
  · intro x hx0 hxL
    have hxb : x ≠ b := by
      rintro rfl
      exact hxL hbL
    rw [Function.update_of_ne hxb, ha.frame x hx0 hxL]

/-- The routes through addresses of the store that the tree of depth `n` below `b` has in
    `d` all lead to the same blocks in the tree of depth `n'` below `b'` in `d'`. -/
def KeepsRoutes (valid : BlockNo → Bool) (d : Store) (n : Nat) (b : BlockNo) (d' : Store)
    (n' : Nat) (b' : BlockNo) : Prop :=
  ∀ off < 128 ^ n, ∀ x, Route (fun y => valid y = true) d off n b x →
    Route (fun y => valid y = true) d' off n' b' x

/-- The first reference of the new root leads to the old tree. -/
theorem keepsRoutes_grow {n : Nat} {b : BlockNo} {L' : Multiset BlockNo} {s' : Snapshot}
    {d' : Store} (h : Free d s L) (hnodup : (L + nodes d n s.root).Nodup)
    (hvalid : ∀ x ∈ L, valid x = true) (ha : Allocated d s L b L' s' d') :
    KeepsRoutes valid d n s.root (Function.update d' b (growBlock s')) (n + 1)
      (s'.setRoot b).root := by
  intro off hoff x hroute
  have hdigit : digit 128 n off = 0 := Fin.ext (digit_eq_zero_of_lt 128 hoff)
  rw [setRoot_root]
  refine .next (ha.block_ne h) (hvalid b (ha.taken ▸ Multiset.mem_cons_self b L')) ?_
  rw [hdigit, grow_first ha]
  exact hroute.congr fun y hy => grow_old hnodup ha hy

theorem KeepsRoutes.trans {n n₁ n₂ : Nat} {b b₁ b₂ : BlockNo} {d₁ d₂ : Store}
    (h₁ : KeepsRoutes valid d n b d₁ n₁ b₁) (h₂ : KeepsRoutes valid d₁ n₁ b₁ d₂ n₂ b₂)
    (hle : n ≤ n₁) : KeepsRoutes valid d n b d₂ n₂ b₂ := by
  intro off hoff x hroute
  exact h₂ off (lt_of_lt_of_le hoff (Nat.pow_le_pow_right (by decide) hle)) x
    (h₁ off hoff x hroute)

theorem grown_trans {n m₁ m₂ : Nat} {L₁ L₂ : Multiset BlockNo} {s₁ s₂ : Snapshot}
    {d₁ d₂ : Store} (h₁ : Grown d s L n m₁ L₁ s₁ d₁) (h₂ : Grown d₁ s₁ L₁ (n + m₁) m₂ L₂ s₂ d₂)
    (hsub : ∀ x ∈ L₁, x ∈ L) : Grown d s L n (m₁ + m₂) L₂ s₂ d₂ := by
  refine ⟨h₂.free, ?_, h₂.inodeBlockno.trans h₁.inodeBlockno, h₂.inode.trans h₁.inode,
    h₂.nInodeblocks.trans h₁.nInodeblocks, ?_, ?_, ?_, ?_⟩
  · rw [h₂.inodeblock, h₁.inodeblock, h₁.inode, Function.update_idem]
  · rw [h₁.card, h₂.card]
    omega
  · rw [← add_assoc, h₂.conserve, h₁.conserve]
  · intro off hoff
    rw [← add_assoc] at hoff ⊢
    rw [h₂.content off hoff]
    have hpow : 128 ^ n ≤ 128 ^ (n + m₁) := Nat.pow_le_pow_right (by decide) (by omega)
    by_cases hlt : off < 128 ^ (n + m₁)
    · rw [if_pos hlt, h₁.content off hlt]
    · rw [if_neg hlt, if_neg (fun hn => hlt (lt_of_lt_of_le hn hpow))]
  · intro x hx0 hxL
    rw [h₂.frame x hx0 (fun hx => hxL (hsub x hx)), h₁.frame x hx0 hxL]

/-- The growing loop of `treedisk_write`. It panics only when the free list holds fewer
    blocks than there are levels to insert, and nothing that can be reached changes. -/
theorem wp_growLevels {n : Nat} (turns : Nat) (h : Free d s L)
    (hnodup : (L + nodes d n s.root).Nodup) (hvalid0 : valid 0 = true)
    (hvalid : ∀ x ∈ L, valid x = true) :
    (growLevels turns s).wp valid
      (fun s' d' => ∃ L', Grown d s L n turns L' s' d' ∧
        KeepsRoutes valid d n s.root d' (n + turns) s'.root)
      (fun msg _ => msg = fullMessage ∧ L.card < turns) (Untouched d L) d := by
  -- one level for each turn; the tree of the next turn is the one grown so far
  induction turns generalizing d s L n with
  | zero => exact ⟨L, grown_refl h, fun _ _ _ hroute => hroute⟩
  | succ turns ih =>
    simp only [growLevels, wp_bind]
    have hLn : L.Nodup := (Multiset.nodup_add.mp hnodup).1
    apply wp_mono _ (wp_alloc h hLn hvalid0 hvalid)
    · rintro ⟨b, s'⟩ d' ⟨L', ha, _⟩
      have hbL : b ∈ L := ha.taken ▸ Multiset.mem_cons_self b L'
      have hsub : ∀ x ∈ L', x ∈ L := fun x hx => ha.taken ▸ Multiset.mem_cons_of_mem hx
      have hone := grown_one h hnodup ha
      have hroutes := keepsRoutes_grow h hnodup hvalid ha
      have huntouched : Untouched d L (Function.update d' b (growBlock s')) := by
        refine ⟨?_, hone.frame⟩
        rw [Function.update_of_ne (ha.block_ne h).symm]
        exact (ha.untouched h).nInodeblocks
      simp only [wp_writeOrPanic]
      refine ⟨hvalid b hbL, huntouched, ?_⟩
      have hnodup' : (L' + nodes (Function.update d' b (growBlock s')) (n + 1)
          (s'.setRoot b).root).Nodup := by
        rw [hone.conserve]
        exact hnodup
      apply wp_weaken _ (ih hone.free hnodup' fun x hx => hvalid x (hsub x hx))
      · rintro s'' d'' ⟨L'', hgrown, hroutes'⟩
        refine ⟨L'', ?_, ?_⟩
        · rw [add_comm turns 1]
          exact grown_trans hone hgrown hsub
        · rw [add_comm turns 1, ← add_assoc]
          exact hroutes.trans hroutes' (Nat.le_succ n)
      · rintro msg _ ⟨hmsg, hcard⟩
        refine ⟨hmsg, ?_⟩
        rw [ha.taken, Multiset.card_cons]
        omega
      · intro d'' hlater
        refine ⟨hlater.nInodeblocks.trans huntouched.nInodeblocks, fun x hx0 hxL => ?_⟩
        rw [hlater.frame x hx0 fun hx => hxL (hsub x hx), huntouched.frame x hx0 hxL]
    · rintro msg d' ⟨hmsg, hL, _⟩
      exact ⟨hmsg, by simp [hL]⟩

end Grow

end Egos.TreeDisk
