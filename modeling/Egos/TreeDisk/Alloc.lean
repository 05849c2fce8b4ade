import Egos.Lib.FreeList
import Egos.TreeDisk.Code

/-!
# The Tree File System: Allocation

What `treedisk_alloc_block` does to the free list. The store is read as a pointer graph,
so the free list is an `Egos.Lib.FreeList.Chain` from `superblock.free_list`.

The result `wp_alloc` covers both ways a block is found, and the panic: a block leaves the
chain, everything outside the superblock and the chain is untouched, and the buffered
superblock of the snapshot stays equal to the one on disk. The block found still holds what
it held on the free list; `Free.last_null` says what that is for the last one.
-/

namespace Egos.TreeDisk

open Egos.Lib Egos.Lib.BlockProg Egos.Lib.FreeList

/-- The contents of the store below. -/
abbrev Store := BlockNo → Block

/-! ## Calls to the store below -/

section Calls

variable {α : Type} {valid : BlockNo → Bool} {E : String → Store → Prop} {I : Store → Prop}
variable {d : Store}

@[simp] theorem wp_belowRead {Q : Option Block → Store → Prop} (b : BlockNo) :
    (belowRead b).wp valid Q E I d ↔ valid b = true ∧ Q (some (d b)) d :=
  Iff.rfl

@[simp] theorem wp_belowWrite {Q : Bool → Store → Prop} (b : BlockNo) (block : Block) :
    (belowWrite b block).wp valid Q E I d ↔
      valid b = true ∧ I (Function.update d b block) ∧ Q true (Function.update d b block) :=
  Iff.rfl

@[simp] theorem wp_panic {Q : α → Store → Prop} (s : String) :
    (panic s : Disk α).wp valid Q E I d ↔ E s d :=
  Iff.rfl

@[simp] theorem wp_readOrPanic {Q : Block → Store → Prop} (s : String) (b : BlockNo) :
    (readOrPanic s b).wp valid Q E I d ↔ valid b = true ∧ Q (d b) d := by
  simp only [readOrPanic, wp_bind, wp_belowRead, wp_pure]

@[simp] theorem wp_writeOrPanic {Q : Unit → Store → Prop} (s : String) (b : BlockNo)
    (block : Block) :
    (writeOrPanic s b block).wp valid Q E I d ↔
      valid b = true ∧ I (Function.update d b block) ∧ Q () (Function.update d b block) := by
  simp only [writeOrPanic, wp_bind, wp_belowWrite, if_true, wp_pure]

end Calls

/-! ## Scanning a free-list block -/

theorem scanRefs_ne_zero {refs : Block} {i : Nat} (h : scanRefs refs i ≠ 0) :
    refs (scanRefs refs i) ≠ 0 := by
  induction i with
  | zero => exact absurd rfl h
  | succ i ih =>
    rw [scanRefs] at h ⊢
    split_ifs with href
    · exact href
    · rw [if_neg href] at h
      exact ih h

theorem scanRefs_eq_zero {refs : Block} {i : Nat} (hi : i < 128) (h : scanRefs refs i = 0) :
    ∀ j : Fin 128, j ≠ 0 → (j : Nat) ≤ i → refs j = 0 := by
  induction i with
  | zero =>
    intro j hj hle
    exact absurd (Fin.ext (Nat.le_zero.mp hle)) hj
  | succ i ih =>
    have hslot : ((Fin.ofNat 128 (i + 1) : Fin 128) : Nat) = i + 1 := Nat.mod_eq_of_lt hi
    rw [scanRefs] at h
    split_ifs at h with href
    · -- the slot found is not slot 0
      have hzero : i + 1 = 0 := by rw [← hslot, h]; rfl
      omega
    · rw [not_not] at href
      intro j hj hle
      rcases Nat.lt_or_eq_of_le hle with hlt | heq
      · exact ih (by omega) h j hj (by omega)
      · have hjs : j = Fin.ofNat 128 (i + 1) := Fin.ext (by rw [heq, hslot])
        rw [hjs, href]

/-! ## Allocation -/

/-- The free list `L` as the code sees it: the buffered superblock is the one on disk and
    the chain starts at its `free_list`. -/
structure Free (d : Store) (s : Snapshot) (L : Multiset BlockNo) : Prop where
  super : d 0 = s.superblock
  chain : Chain d s.superblock.freeList L

/-- `s'` is `s` up to the `free_list` field of the buffered superblock. -/
structure SameInode (s s' : Snapshot) : Prop where
  inodeblock : s'.inodeblock = s.inodeblock
  inodeBlockno : s'.inodeBlockno = s.inodeBlockno
  inode : s'.inode = s.inode
  nInodeblocks : s'.superblock.nInodeblocks = s.superblock.nInodeblocks

theorem SameInode.refl (s : Snapshot) : SameInode s s :=
  ⟨rfl, rfl, rfl, rfl⟩

@[simp] theorem setFreeList_freeList (s : Snapshot) (b : BlockNo) :
    (s.setFreeList b).superblock.freeList = b := by
  simp [Snapshot.setFreeList, Block.freeList]

@[simp] theorem setFreeList_nInodeblocks (s : Snapshot) (b : BlockNo) :
    (s.setFreeList b).superblock.nInodeblocks = s.superblock.nInodeblocks := by
  simp [Snapshot.setFreeList, Block.nInodeblocks]

theorem SameInode.setFreeList (s : Snapshot) (b : BlockNo) : SameInode s (s.setFreeList b) :=
  ⟨rfl, rfl, rfl, setFreeList_nInodeblocks s b⟩

/-- The state after an allocation of `b` from the free list `L`. -/
structure Allocated (d : Store) (s : Snapshot) (L : Multiset BlockNo) (b : BlockNo)
    (L' : Multiset BlockNo) (s' : Snapshot) (d' : Store) : Prop where
  taken : L = b ::ₘ L'
  free : Free d' s' L'
  same : SameInode s s'
  frame : ∀ x, x ≠ 0 → x ∉ L → d' x = d x

/-- Nothing has changed but the free list. -/
structure Untouched (d : Store) (L : Multiset BlockNo) (d' : Store) : Prop where
  nInodeblocks : (d' 0).nInodeblocks = (d 0).nInodeblocks
  frame : ∀ x, x ≠ 0 → x ∉ L → d' x = d x

theorem Untouched.refl (d : Store) (L : Multiset BlockNo) : Untouched d L d :=
  ⟨rfl, fun _ _ _ => rfl⟩

/-- The message of the panic on an empty free list. -/
def fullMessage : String := "treedisk_alloc_block: inode store is full\n"

variable {valid : BlockNo → Bool} {d : Store} {s : Snapshot} {L : Multiset BlockNo}

theorem Allocated.untouched {b : BlockNo} {L' : Multiset BlockNo} {s' : Snapshot} {d' : Store}
    (h : Free d s L) (ha : Allocated d s L b L' s' d') : Untouched d L d' := by
  refine ⟨?_, ha.frame⟩
  rw [ha.free.super, h.super]
  exact ha.same.nInodeblocks

/-- The last free block is all zeros on disk. -/
theorem Free.last_null (h : Free d s L) {b : BlockNo} (hL : L = {b}) : d b = nullBlock := by
  funext i
  exact h.chain.null_of_singleton hL i

/-- Taking a reference out of the first free-list block. -/
theorem allocated_take {i : Fin 128} (h : Free d s L) (hnodup : L.Nodup)
    (hb : s.superblock.freeList ≠ 0) (hi : i ≠ 0) (hx : d s.superblock.freeList i ≠ 0) :
    ∃ L', Allocated d s L (d s.superblock.freeList i) L' s
      (Function.update d s.superblock.freeList
        (Function.update (d s.superblock.freeList) i 0)) ∧
      d s.superblock.freeList i ≠ s.superblock.freeList := by
  obtain ⟨L', htaken, hchain⟩ := h.chain.take hb hnodup hi hx
    (Function.update_self _ _ d) (fun y hy => Function.update_of_ne hy _ d)
  have hmem : s.superblock.freeList ∈ L := h.chain.head_mem hb
  refine ⟨L', ⟨htaken, ⟨?_, hchain⟩, SameInode.refl s, ?_⟩, ?_⟩
  · rw [Function.update_of_ne (fun h0 => hb h0.symm), h.super]
  · intro x _ hxL
    have hne : x ≠ s.superblock.freeList := by
      rintro rfl
      exact hxL hmem
    exact Function.update_of_ne hne _ d
  · -- the node stays on the list, the block taken does not
    intro heq
    have hhead : s.superblock.freeList ∈ L' := hchain.head_mem hb
    rw [htaken] at hnodup
    exact (Multiset.nodup_cons.mp hnodup).1 (by rw [heq]; exact hhead)

/-- Using up the first free-list block. -/
theorem allocated_pop (h : Free d s L) (hb : s.superblock.freeList ≠ 0)
    (hempty : ∀ i : Fin 128, i ≠ 0 → d s.superblock.freeList i = 0) :
    ∃ L', Allocated d s L s.superblock.freeList L'
      (s.setFreeList (d s.superblock.freeList 0))
      (Function.update d 0 (s.setFreeList (d s.superblock.freeList 0)).superblock) := by
  obtain ⟨L', htaken, hchain⟩ := h.chain.pop hb hempty
  have hne : ∀ x ∈ L', x ≠ 0 := by
    intro x hx
    exact h.chain.ne_zero_of_mem (htaken ▸ Multiset.mem_cons_of_mem hx)
  refine ⟨L', htaken, ⟨Function.update_self _ _ d, ?_⟩, SameInode.setFreeList s _, ?_⟩
  · rw [setFreeList_freeList]
    exact hchain.congr fun x hx => Function.update_of_ne (hne x hx) _ d
  · intro x hx0 _
    exact Function.update_of_ne hx0 _ d

/-- `treedisk_alloc_block` takes one block out of the free list and leaves its content as it
    is, or panics because the list is empty; nothing else can go wrong. -/
theorem wp_alloc (h : Free d s L) (hnodup : L.Nodup) (hvalid0 : valid 0 = true)
    (hvalid : ∀ x ∈ L, valid x = true) :
    (treediskAllocBlock s).wp valid
      (fun r d' => ∃ L', Allocated d s L r.1 L' r.2 d' ∧ d' r.1 = d r.1)
      (fun msg d' => msg = fullMessage ∧ L = 0 ∧ d' = d) (Untouched d L) d := by
  unfold treediskAllocBlock
  by_cases hb : s.superblock.freeList = 0
  · simp only [hb, if_true, wp_panic]
    exact ⟨rfl, h.chain.eq_zero_of_null hb, trivial⟩
  · have hmem : valid s.superblock.freeList = true := hvalid _ (h.chain.head_mem hb)
    simp only [hb, if_false, wp_bind, wp_readOrPanic]
    refine ⟨hmem, ?_⟩
    by_cases hi : scanRefs (d s.superblock.freeList) 127 = 0
    · simp only [hi, if_true, wp_bind, wp_writeOrPanic, wp_pure]
      obtain ⟨L', ha⟩ := allocated_pop h hb fun j hj =>
        scanRefs_eq_zero (by decide) hi j hj (Nat.lt_succ_iff.mp j.isLt)
      exact ⟨hvalid0, ha.untouched h, L', ha, Function.update_of_ne hb _ d⟩
    · simp only [hi, if_false, wp_bind, wp_writeOrPanic, wp_pure]
      obtain ⟨L', ha, hne⟩ := allocated_take h hnodup hb hi (scanRefs_ne_zero hi)
      exact ⟨hmem, ha.untouched h, L', ha, Function.update_of_ne hne _ d⟩

end Egos.TreeDisk
