import Egos.TreeDisk.FileSystem
import Egos.TreeDisk.WriteLoop

/-!
# The Tree File System: Stages of a Write

A write goes through three stages: the tree grows in the snapshot (`Grown`), the inode
block is written back, and the walk replaces one block (`Walked`). `Ready` is the state
between the last two.

- At the end, `FsInv.written` and `written_fileOf` put the stages together.
- Between any two writes to the store below, `Intact` says what can still be read:
  `FsInv.intact_of_untouched` for the first stage, `FsInv.intact_of_torn` for the walk.
- On a full store, `Kept` says that nothing readable has changed, from
  `FsInv.kept_of_untouched` and `FsInv.kept_of_replaced`.
-/

namespace Egos.TreeDisk

open Egos.Lib Egos.Lib.BlockProg Egos.Lib.FreeList Egos.Lib.RadixTree Finset

/-- The addresses of a store of `N` blocks. -/
def inRange (N : UInt32) (b : BlockNo) : Bool := decide (b < N)

@[simp] theorem inRange_iff {N b : UInt32} : inRange N b = true ↔ b < N := by
  simp [inRange]

/-- The snapshot of an accepted inode. -/
def snapshotOf (d : Store) (i : Nat) : Snapshot :=
  ⟨d 0, d (inodeBlockOf i), inodeBlockOf i, inodeSlotOf i⟩

section Stages

variable {N : UInt32} {d : Store} {L : Multiset BlockNo}

theorem FsInv.fileBlock_eq_get (h : FsInv N d L) {i : Nat} (hi : i < ninodesOf d) {off : Nat}
    (hoff : off < 128 ^ depthOf d i) :
    fileBlock d (depthOf d i) (rootOf d i) off = (fileOf d i).get off := by
  simp only [fileOf]
  split_ifs with hlt
  · rfl
  · exact h.slack i hi off (not_lt.mp hlt) hoff

/-! ## Before the walk -/

theorem setNblocks_nblocks (s : Snapshot) (n : BlockNo) : (s.setNblocks n).nblocks = n := by
  simp [Snapshot.setNblocks, Snapshot.nblocks]

theorem setNblocks_root (s : Snapshot) (n : BlockNo) : (s.setNblocks n).root = s.root := by
  show Function.update _ _ _ _ = _
  rw [Function.update_of_ne (rootWord_ne_nblocksWord _ _)]
  rfl

/-- The state in which the walk of a write to inode `i` starts: the inode block on disk is
    the buffered one and gives the file `m` blocks. -/
structure Ready (d : Store) (L : Multiset BlockNo) (i : Nat) (m : BlockNo)
    (L' : Multiset BlockNo) (s : Snapshot) (d' : Store) : Prop where
  free : Free d' s L'
  blockno : s.inodeBlockno = inodeBlockOf i
  inode : s.inode = inodeSlotOf i
  onDisk : d' (inodeBlockOf i) = s.inodeblock
  inodeblock : s.inodeblock = Function.update
    (Function.update (d (inodeBlockOf i)) (nblocksWord (inodeSlotOf i)) m)
    (rootWord (inodeSlotOf i)) s.root
  nInodeblocks : (d' 0).nInodeblocks = (d 0).nInodeblocks
  conserve : L' + nodes d' (treeDepth m) s.root = L + fileNodes d i
  content : ∀ off < 128 ^ treeDepth m, fileBlock d' (treeDepth m) s.root off = (fileOf d i).get off
  frame : ∀ x, x ≠ 0 → x ≠ inodeBlockOf i → x ∉ L → d' x = d x

theorem FsInv.free_snapshot (h : FsInv N d L) (i : Nat) : Free d (snapshotOf d i) L :=
  ⟨rfl, h.chain⟩

/-- A write below the size starts its walk on the store as it is. -/
theorem FsInv.ready_inside (h : FsInv N d L) {i : Nat} (hi : i < ninodesOf d) :
    Ready d L i (nblocksOf d i) L (snapshotOf d i) d := by
  refine ⟨h.free_snapshot i, rfl, rfl, rfl, ?_, rfl, rfl, ?_, fun _ _ _ _ => rfl⟩
  · show d (inodeBlockOf i) = _
    rw [nblocksOf, Function.update_eq_self]
    exact (Function.update_eq_self _ _).symm
  · intro off hoff
    exact h.fileBlock_eq_get hi hoff

/-- Neither the grown tree nor the rest of the free list contains the inode block. -/
theorem FsInv.grown_frame (h : FsInv N d L) {i : Nat} (hi : i < ninodesOf d) {m : BlockNo}
    {turns : Nat} {L' : Multiset BlockNo} {s : Snapshot} {d' : Store}
    (hturns : depthOf d i + turns = treeDepth m)
    (hg : Grown d ((snapshotOf d i).setNblocks m) L (depthOf d i) turns L' s d') :
    L' + nodes d' (treeDepth m) s.root = L + fileNodes d i ∧
      ∀ x ∈ L' + nodes d' (treeDepth m) s.root,
        Function.update d' (inodeBlockOf i) s.inodeblock x = d' x := by
  have hroot : ((snapshotOf d i).setNblocks m).root = rootOf d i := setNblocks_root _ _
  have hconserve : L' + nodes d' (treeDepth m) s.root = L + fileNodes d i := by
    rw [← hturns, hg.conserve, hroot]
    rfl
  refine ⟨hconserve, fun x hx => ?_⟩
  apply Function.update_of_ne
  rintro rfl
  rw [hconserve] at hx
  exact (Multiset.nodup_cons.mp (h.nodup_free_file hi)).1 hx

/-- A write at or past the end starts its walk after the tree has grown and the inode block
    has been written back. -/
theorem FsInv.ready_grown (h : FsInv N d L) {i : Nat} (hi : i < ninodesOf d) {m : BlockNo}
    {turns : Nat} {L' : Multiset BlockNo} {s : Snapshot} {d' : Store}
    (hturns : depthOf d i + turns = treeDepth m)
    (hg : Grown d ((snapshotOf d i).setNblocks m) L (depthOf d i) turns L' s d') :
    Ready d L i m L' s (Function.update d' (inodeBlockOf i) s.inodeblock) := by
  have hne : inodeBlockOf i ≠ 0 := inodeBlockOf_ne_zero (hi.trans h.ninodes_lt)
  have hroot : ((snapshotOf d i).setNblocks m).root = rootOf d i := setNblocks_root _ _
  obtain ⟨hconserve, hframe⟩ := h.grown_frame hi hturns hg
  have htree : ∀ x ∈ nodes d' (treeDepth m) s.root,
      Function.update d' (inodeBlockOf i) s.inodeblock x = d' x := fun x hx =>
    hframe x (Multiset.mem_add.mpr (Or.inr hx))
  refine ⟨⟨?_, ?_⟩, hg.inodeBlockno, hg.inode, Function.update_self _ _ d', ?_, ?_, ?_, ?_, ?_⟩
  · rw [Function.update_of_ne hne.symm, hg.free.super]
  · exact hg.free.chain.congr fun x hx => hframe x (Multiset.mem_add.mpr (Or.inl hx))
  · rw [hg.inodeblock]
    rfl
  · rw [Function.update_of_ne hne.symm, hg.free.super]
    exact hg.nInodeblocks
  · rw [nodes_congr htree, hconserve]
  · intro off hoff
    rw [fileBlock_congr htree]
    rw [← hturns] at hoff ⊢
    rw [hg.content off hoff, hroot]
    split_ifs with hlt
    · exact h.fileBlock_eq_get hi hlt
    · -- the old tree had no room for this offset, so the file did not reach it
      rw [(fileOf d i).beyond]
      exact (le_pow_treeDepth (nblocksOf d i)).trans (not_lt.mp hlt)
  · intro x hx0 hxi hxL
    rw [Function.update_of_ne hxi, hg.frame x hx0 hxL]

/-- The routes of the old tree are routes of the grown one. -/
theorem FsInv.keepsRoutes_grown (h : FsInv N d L) {i : Nat} (hi : i < ninodesOf d) {m : BlockNo}
    {turns : Nat} {L' : Multiset BlockNo} {s : Snapshot} {d' : Store}
    (hturns : depthOf d i + turns = treeDepth m)
    (hg : Grown d ((snapshotOf d i).setNblocks m) L (depthOf d i) turns L' s d')
    (hroutes : KeepsRoutes (inRange N) d (depthOf d i) (rootOf d i) d' (depthOf d i + turns)
      s.root) :
    KeepsRoutes (inRange N) d (depthOf d i) (rootOf d i)
      (Function.update d' (inodeBlockOf i) s.inodeblock) (treeDepth m) s.root := by
  obtain ⟨_, hframe⟩ := h.grown_frame hi hturns hg
  intro off hoff x hroute
  have hgrown := hroutes off hoff x hroute
  rw [hturns] at hgrown
  exact hgrown.congr fun y hy => hframe y (Multiset.mem_add.mpr (Or.inr hy))

/-! ## After the walk -/

variable {i : Nat} {m : BlockNo} {L₁ L₂ : Multiset BlockNo} {s : Snapshot} {d₁ d₂ : Store}

theorem rootWord_inode (s : Snapshot) : s.inodeblock (rootWord s.inode) = s.root := rfl

theorem FsInv.ready_walkPre (h : FsInv N d L) (hi : i < ninodesOf d)
    (hr : Ready d L i m L₁ s d₁) :
    WalkPre (inRange N) d₁ s L₁ (treeDepth m) s.inodeBlockno s.inodeblock
      (rootWord s.inode) := by
  have hnodup := h.nodup_free_file hi
  rw [hr.blockno]
  refine ⟨hr.free, ?_, inodeBlockOf_ne_zero (hi.trans h.ninodes_lt), Or.inl hr.onDisk,
    inRange_iff.mpr h.zero_lt, ?_⟩
  · rw [rootWord_inode, hr.conserve]
    exact hnodup
  · intro x hx
    rw [rootWord_inode, hr.conserve, Multiset.mem_cons, Multiset.mem_add] at hx
    rw [inRange_iff]
    rcases hx with rfl | hx | hx
    · exact h.inodeBlockOf_lt hi
    · exact h.lt_of_mem_free hx
    · exact h.lt_of_mem_fileNodes hi hx

variable {offset : BlockNo} {block : Block} {r : BlockNo}

/-- After the walk only the two words of inode `i` have changed outside its own blocks. -/
theorem Ready.inodeUpdate (hr : Ready d L i m L₁ s d₁)
    (hw : Replaced d₁ L₁ (treeDepth m) s.inodeBlockno s.inodeblock (rootWord s.inode) offset block
      L₂ r d₂) : InodeUpdate d L i m r d₂ := by
  refine ⟨hw.nInodeblocks.trans hr.nInodeblocks, ?_, ?_⟩
  · have hparent := hw.parent_eq
    rw [hr.blockno, hr.inodeblock, hr.inode, Function.update_idem] at hparent
    exact hparent
  · intro x hx
    have hnot : x ∉ L₁ + nodes d₁ (treeDepth m) s.root := by
      rw [hr.conserve, Multiset.mem_add, not_or]
      exact ⟨hx.notMem_free, hx.notMem_file⟩
    rw [Multiset.mem_add, not_or] at hnot
    rw [hw.frame x hx.ne_zero (by rw [hr.blockno]; exact hx.ne_inode) hnot.1 hnot.2,
      hr.frame x hx.ne_zero hx.ne_inode hx.notMem_free]

/-- The block the walk leaves at each offset the new tree has room for. -/
theorem Ready.content_after (hr : Ready d L i m L₁ s d₁)
    (hw : Replaced d₁ L₁ (treeDepth m) s.inodeBlockno s.inodeblock (rootWord s.inode) offset block
      L₂ r d₂) (hroom : offset.toNat < 128 ^ treeDepth m) {off : Nat}
    (hoff : off < 128 ^ treeDepth m) :
    fileBlock d₂ (treeDepth m) r off =
      if off = offset.toNat then block else (fileOf d i).get off := by
  rw [hw.content off, Nat.mod_eq_of_lt hoff, Nat.mod_eq_of_lt hroom, rootWord_inode,
    hr.content off hoff]

/-- A write leaves the file with its new block. -/
theorem written_fileOf (hr : Ready d L i m L₁ s d₁)
    (hw : Replaced d₁ L₁ (treeDepth m) s.inodeBlockno s.inodeblock (rootWord s.inode) offset block
      L₂ r d₂) (hm : m.toNat = max (nblocksOf d i).toNat (offset.toNat + 1)) :
    fileOf d₂ i = (fileOf d i).write offset.toNat block := by
  have hu := hr.inodeUpdate hw
  have hdepth := le_pow_treeDepth m
  apply SparseArray.ext
  · show (nblocksOf d₂ i).toNat = _
    rw [hu.nblocksOf_self, hm]
    rfl
  · funext off
    show (if off < (nblocksOf d₂ i).toNat then fileBlock d₂ (depthOf d₂ i) (rootOf d₂ i) off
      else nullBlock) = Function.update (fileOf d i).get offset.toNat block off
    rw [depthOf, hu.nblocksOf_self, hu.rootOf_self, Function.update_apply]
    by_cases hlt : off < m.toNat
    · rw [if_pos hlt, hr.content_after hw (by omega) (by omega)]
    · rw [if_neg hlt, if_neg (by omega), (fileOf d i).beyond]
      show (nblocksOf d i).toNat ≤ off
      omega

/-- A write preserves the invariant. -/
theorem FsInv.written (h : FsInv N d L) (hi : i < ninodesOf d) (hr : Ready d L i m L₁ s d₁)
    (hw : Replaced d₁ L₁ (treeDepth m) s.inodeBlockno s.inodeblock (rootWord s.inode) offset block
      L₂ r d₂) (hm : m.toNat = max (nblocksOf d i).toNat (offset.toNat + 1)) :
    FsInv N d₂ L₂ := by
  have hu := hr.inodeUpdate hw
  have hdepth : depthOf d₂ i = treeDepth m := by rw [depthOf, hu.nblocksOf_self]
  have hle := le_pow_treeDepth m
  have hconserve : L₂ + fileNodes d₂ i = L + fileNodes d i := by
    rw [fileNodes, hdepth, hu.rootOf_self, hw.conserve, rootWord_inode, hr.conserve]
  -- blocks have moved between the free list and this tree only
  have hlayout := hu.layout_eq h hi hconserve
  refine ⟨hw.chain, ?_, ?_, ?_, ?_⟩
  · rw [hlayout]
    exact h.nodup
  · rw [hlayout]
    exact h.mem_layout
  · rw [hu.ninodes_eq]
    exact h.ninodes_lt
  · intro j hj off hge hlt
    rw [hu.ninodes_eq] at hj
    by_cases hji : j = i
    · subst hji
      rw [hdepth] at hlt ⊢
      rw [hu.nblocksOf_self] at hge
      rw [hu.rootOf_self, hr.content_after hw (by omega) hlt, if_neg (by omega),
        (fileOf d j).beyond]
      show (nblocksOf d j).toNat ≤ off
      omega
    · have hsame := hu.sameFile h hi hj hji
      rw [hsame.content_eq off]
      rw [hsame.depth] at hlt
      rw [hsame.nblocks] at hge
      exact h.slack j hj off hge hlt

/-- What a write of `block` at `offset` of inode `i` does to a file system. -/
structure Written (N : UInt32) (d : Store) (i : Nat) (offset : BlockNo) (block : Block)
    (d' : Store) : Prop where
  inv : ∃ L', FsInv N d' L'
  nInodeblocks : (d' 0).nInodeblocks = (d 0).nInodeblocks
  file : fileOf d' i = (fileOf d i).write offset.toNat block
  other : ∀ j < ninodesOf d, j ≠ i → fileOf d' j = fileOf d j

/-- As long as only free blocks have changed, the inode blocks and all trees are as before. -/
theorem FsInv.sameFile_of_untouched (h : FsInv N d L) (hu : Untouched d L d₂) {j : Nat}
    (hj : j < ninodesOf d) : SameFile d d₂ j := by
  obtain ⟨_, _, hLT, hI⟩ := h.nodup_parts
  have hinode : d₂ (inodeBlockOf j) = d (inodeBlockOf j) :=
    hu.frame _ (inodeBlockOf_ne_zero (hj.trans h.ninodes_lt)) (hI _ (inodeBlockOf_mem hj)).1
  refine ⟨congrFun hinode _, congrFun hinode _, fun x hx => ?_⟩
  exact hu.frame x (ne_zero_of_mem_nodes hx) fun hxL =>
    hLT x hxL (Multiset.mem_of_le (fileNodes_le_sum hj) hx)

/-! ## Between two writes -/

/-- What an interrupted write to `offset` of inode `i` leaves: the other files are as before,
    and every block of file `i` is still found, with its content unless it is the one at
    `offset`. Holes of file `i` may show anything. -/
structure Intact (N : UInt32) (d : Store) (i : Nat) (offset : BlockNo) (d' : Store) : Prop where
  nInodeblocks : (d' 0).nInodeblocks = (d 0).nInodeblocks
  other : ∀ j < ninodesOf d, j ≠ i → SameFile d d' j
  size : (nblocksOf d i).toNat ≤ (nblocksOf d' i).toNat
  route : ∀ off < (nblocksOf d i).toNat, ∀ x,
    Route (fun y => inRange N y = true) d off (depthOf d i) (rootOf d i) x →
      Route (fun y => inRange N y = true) d' off (depthOf d' i) (rootOf d' i) x ∧
        (off ≠ offset.toNat → d' x = d x)

/-- While the tree grows, nothing on disk refers to its new blocks. -/
theorem FsInv.intact_of_untouched (h : FsInv N d L) (hi : i < ninodesOf d)
    (hu : Untouched d L d₂) : Intact N d i offset d₂ := by
  have hsame := h.sameFile_of_untouched hu hi
  refine ⟨hu.nInodeblocks, fun j hj _ => h.sameFile_of_untouched hu hj, by rw [hsame.nblocks], ?_⟩
  intro off _ x hroute
  rw [hsame.root, hsame.depth]
  exact ⟨hroute.congr hsame.tree, fun _ => hsame.tree x hroute.end_mem⟩

/-- During the walk the inode block has the new size, and a root that is only replaced if it
    was null. -/
theorem Ready.inodeUpdate_of_torn (hr : Ready d L i m L₁ s d₁)
    (ht : Torn (inRange N) d₁ L₁ (treeDepth m) s.inodeBlockno s.inodeblock (rootWord s.inode)
      offset d₂) : ∃ r, InodeUpdate d L i m r d₂ ∧ (s.root ≠ 0 → r = s.root) := by
  have hparent := ht.parent_eq
  rw [hr.blockno, hr.onDisk, hr.inode] at hparent
  have hblock : ∃ r, d₂ (inodeBlockOf i) = Function.update
      (Function.update (d (inodeBlockOf i)) (nblocksWord (inodeSlotOf i)) m)
      (rootWord (inodeSlotOf i)) r ∧ (s.root ≠ 0 → r = s.root) := by
    rcases hparent with heq | ⟨hnull, r, heq⟩
    · exact ⟨s.root, by rw [heq, ← hr.inodeblock], fun _ => rfl⟩
    · refine ⟨r, ?_, fun hne => absurd ?_ hne⟩
      · rw [heq, hr.inodeblock, Function.update_idem]
      · rw [← rootWord_inode, hr.inode, hnull]
  obtain ⟨r, heq, hne⟩ := hblock
  refine ⟨r, ⟨ht.nInodeblocks.trans hr.nInodeblocks, heq, ?_⟩, hne⟩
  intro x hx
  have hnot : x ∉ L₁ + nodes d₁ (treeDepth m) s.root := by
    rw [hr.conserve, Multiset.mem_add, not_or]
    exact ⟨hx.notMem_free, hx.notMem_file⟩
  rw [Multiset.mem_add, not_or] at hnot
  rw [ht.frame x hx.ne_zero (by rw [hr.blockno]; exact hx.ne_inode) hnot.1 hnot.2,
    hr.frame x hx.ne_zero hx.ne_inode hx.notMem_free]

/-- During the walk, and just before it. -/
theorem FsInv.intact_of_torn (h : FsInv N d L) (hi : i < ninodesOf d)
    (hr : Ready d L i m L₁ s d₁)
    (hroutes : KeepsRoutes (inRange N) d (depthOf d i) (rootOf d i) d₁ (treeDepth m) s.root)
    (hm : m.toNat = max (nblocksOf d i).toNat (offset.toNat + 1))
    (ht : Torn (inRange N) d₁ L₁ (treeDepth m) s.inodeBlockno s.inodeblock (rootWord s.inode)
      offset d₂) : Intact N d i offset d₂ := by
  obtain ⟨r, hu, hroot⟩ := hr.inodeUpdate_of_torn ht
  have hdepth : depthOf d₂ i = treeDepth m := by rw [depthOf, hu.nblocksOf_self]
  have hle := le_pow_treeDepth m
  have hle' := le_pow_treeDepth (nblocksOf d i)
  refine ⟨hu.nInodeblocks, fun j hj hne => hu.sameFile h hi hj hne, ?_, ?_⟩
  · rw [hu.nblocksOf_self]
    omega
  · intro off hoff x hroute
    have hroute₁ := hroutes off (lt_of_lt_of_le hoff hle') x hroute
    obtain ⟨hroute₂, hdata⟩ := ht.route off x hroute₁
    rw [hdepth, hu.rootOf_self, hroot hroute₁.root_ne]
    refine ⟨hroute₂, fun hne => ?_⟩
    rw [Nat.mod_eq_of_lt (by omega), Nat.mod_eq_of_lt (by omega)] at hdata
    -- growing has not changed the block, for it was in the tree before
    have hx : x ∈ fileNodes d i := hroute.end_mem
    have hnodup := h.nodup_free_file hi
    rw [Multiset.nodup_cons, Multiset.mem_add, not_or, Multiset.nodup_add] at hnodup
    obtain ⟨⟨_, hinode⟩, _, _, hdisj⟩ := hnodup
    rw [hdata hne]
    apply hr.frame x (ne_zero_of_mem_nodes hx)
    · rintro rfl
      exact hinode hx
    · exact fun hxL => Multiset.disjoint_left.mp hdisj hxL hx

/-! ## On a full store -/

/-- What a write to inode `i` leaves when it runs out of blocks: file `i` may have become
    longer, and nothing else can be told from what is read. -/
structure Kept (N : UInt32) (d : Store) (i : Nat) (d' : Store) : Prop where
  nInodeblocks : (d' 0).nInodeblocks = (d 0).nInodeblocks
  nodes_lt : ∀ j < ninodesOf d, ∀ x ∈ fileNodes d' j, x < N
  other : ∀ j < ninodesOf d, j ≠ i → SameFile d d' j
  size : (nblocksOf d i).toNat ≤ (nblocksOf d' i).toNat
  get : ∀ off, (fileOf d' i).get off = (fileOf d i).get off

/-- The store is full while the tree grows. -/
theorem FsInv.kept_of_untouched (h : FsInv N d L) (hi : i < ninodesOf d)
    (hu : Untouched d L d₂) : Kept N d i d₂ := by
  have hsame : ∀ j < ninodesOf d, SameFile d d₂ j := fun j hj => h.sameFile_of_untouched hu hj
  refine ⟨hu.nInodeblocks, ?_, fun j hj _ => hsame j hj, by rw [(hsame i hi).nblocks],
    fun off => by rw [(hsame i hi).fileOf_eq]⟩
  intro j hj x hx
  rw [(hsame j hj).fileNodes_eq] at hx
  exact h.lt_of_mem_fileNodes hj hx

/-- The store is full during the walk. -/
theorem FsInv.kept_of_replaced (h : FsInv N d L) (hi : i < ninodesOf d)
    (hr : Ready d L i m L₁ s d₁)
    (hm : m.toNat = max (nblocksOf d i).toNat (offset.toNat + 1))
    (hw : Replaced d₁ L₁ (treeDepth m) s.inodeBlockno s.inodeblock (rootWord s.inode) offset
      (fileBlock d₁ (treeDepth m) (s.inodeblock (rootWord s.inode)) offset.toNat) L₂ r d₂) :
    Kept N d i d₂ := by
  have hu := hr.inodeUpdate hw
  have hinv := h.written hi hr hw hm
  have hle := le_pow_treeDepth m
  -- the walk has written back what was read at the offset before
  have hfile := written_fileOf hr hw hm
  rw [rootWord_inode, hr.content offset.toNat (by omega)] at hfile
  refine ⟨hu.nInodeblocks, ?_, fun j hj hne => hu.sameFile h hi hj hne, ?_, ?_⟩
  · intro j hj x hx
    exact hinv.lt_of_mem_fileNodes (by rwa [hu.ninodes_eq]) hx
  · rw [hu.nblocksOf_self]
    omega
  · intro off
    rw [hfile]
    exact congrFun (Function.update_eq_self _ _) off

end Stages

end Egos.TreeDisk
