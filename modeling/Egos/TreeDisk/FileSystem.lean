import Egos.Lib.SparseArray
import Egos.TreeDisk.Walk

/-!
# The Tree File System: Invariant

The whole store read as a file system: inode `i` is a root reference and a size in block
`1 + i / 64`, its file is the radix tree below the root, and the free list hangs off the
superblock.

- `layout d L` lists, with multiplicity, every block the file system accounts for: the
  superblock, the inode blocks, the free blocks `L` and the blocks of every tree.
- `FsInv N d L` says that this list is exactly the blocks `0..N-1`, each once.
- `fileOf d i` is the sparse array that inode `i` stands for.

`Outside` is the frame condition of a write to inode `i`; `InodeUpdate.layout_eq` and
`InodeUpdate.sameFile` turn it into conservation of blocks and of the other files.
-/

namespace Egos.TreeDisk

open Egos.Lib Egos.Lib.BlockProg Egos.Lib.FreeList Egos.Lib.RadixTree Finset

/-! ## Inodes -/

/-- The block of inode `i`. -/
def inodeBlockOf (i : Nat) : BlockNo := UInt32.ofNat (1 + i / 64)

/-- The position of inode `i` in its block. -/
def inodeSlotOf (i : Nat) : Fin 64 := ⟨i % 64, Nat.mod_lt _ (by decide)⟩

/-- The root reference of inode `i`. -/
def rootOf (d : Store) (i : Nat) : BlockNo := d (inodeBlockOf i) (rootWord (inodeSlotOf i))

/-- The size field of inode `i`. -/
def nblocksOf (d : Store) (i : Nat) : BlockNo :=
  d (inodeBlockOf i) (nblocksWord (inodeSlotOf i))

/-- The depth of the tree of inode `i`. -/
def depthOf (d : Store) (i : Nat) : Nat := treeDepth (nblocksOf d i)

/-- The blocks of the tree of inode `i`. -/
def fileNodes (d : Store) (i : Nat) : Multiset BlockNo := nodes d (depthOf d i) (rootOf d i)

/-- The number of inodes. -/
def ninodesOf (d : Store) : Nat := (d 0).nInodeblocks.toNat * 64

/-- The file of inode `i`. -/
def fileOf (d : Store) (i : Nat) : SparseArray nullBlock where
  size := (nblocksOf d i).toNat
  get off :=
    if off < (nblocksOf d i).toNat then fileBlock d (depthOf d i) (rootOf d i) off else nullBlock
  beyond := fun _ hoff => if_neg (not_lt.mpr hoff)

/-! ## The invariant -/

/-- The `n` blocks from block `a` on. -/
def blockRange (a n : Nat) : Multiset BlockNo := (Multiset.range n).map fun k => UInt32.ofNat (a + k)

/-- The blocks `1..n` that hold inodes. -/
def inodeBlocks (n : Nat) : Multiset BlockNo := blockRange 1 n

/-- Every block the file system accounts for, with multiplicity. -/
def layout (d : Store) (L : Multiset BlockNo) : Multiset BlockNo :=
  {0} + inodeBlocks (d 0).nInodeblocks.toNat + (L + ∑ i ∈ range (ninodesOf d), fileNodes d i)

/-- The invariant of a file system on `N` blocks with free blocks `L`. -/
structure FsInv (N : UInt32) (d : Store) (L : Multiset BlockNo) : Prop where
  chain : Chain d (d 0).freeList L
  nodup : (layout d L).Nodup
  mem_layout : ∀ b, b ∈ layout d L ↔ b < N
  /-- The number of inodes fits a word, so the bound check of the code does not wrap. -/
  ninodes_lt : ninodesOf d < 2 ^ 32
  /-- A tree has no data at the offsets it has room for beyond the size of the file. -/
  slack : ∀ i < ninodesOf d, ∀ off, (nblocksOf d i).toNat ≤ off → off < 128 ^ depthOf d i →
    fileBlock d (depthOf d i) (rootOf d i) off = nullBlock

/-! ## Words of an inode block -/

theorem rootWord_ne_nblocksWord (i j : Fin 64) : rootWord i ≠ nblocksWord j := by
  intro h
  have hval : 2 * (i : Nat) = 2 * j + 1 := congrArg Fin.val h
  omega

theorem rootWord_inj {i j : Fin 64} (h : rootWord i = rootWord j) : i = j := by
  have hval : 2 * (i : Nat) = 2 * j := congrArg Fin.val h
  exact Fin.ext (by omega)

theorem nblocksWord_inj {i j : Fin 64} (h : nblocksWord i = nblocksWord j) : i = j := by
  have hval : 2 * (i : Nat) + 1 = 2 * j + 1 := congrArg Fin.val h
  exact Fin.ext (by omega)

theorem toNat_inodeBlockOf {i : Nat} (h : i < 2 ^ 32) : (inodeBlockOf i).toNat = 1 + i / 64 := by
  rw [inodeBlockOf, UInt32.toNat_ofNat']
  omega

theorem inodeBlockOf_ne_zero {i : Nat} (h : i < 2 ^ 32) : inodeBlockOf i ≠ 0 := by
  intro hzero
  have hnat := toNat_inodeBlockOf h
  rw [hzero] at hnat
  simp only [UInt32.toNat_zero] at hnat
  omega

/-- Two inodes at the same position of the same block are the same. -/
theorem eq_of_inodeBlockOf_eq {i j : Nat} (hi : i < 2 ^ 32) (hj : j < 2 ^ 32)
    (hblock : inodeBlockOf i = inodeBlockOf j) (hslot : inodeSlotOf i = inodeSlotOf j) :
    i = j := by
  have hb : 1 + i / 64 = 1 + j / 64 := by
    rw [← toNat_inodeBlockOf hi, hblock, toNat_inodeBlockOf hj]
  have hs : i % 64 = j % 64 := congrArg Fin.val hslot
  omega

theorem inodeBlockOf_mem {n i : Nat} (h : i < n * 64) : inodeBlockOf i ∈ inodeBlocks n := by
  rw [inodeBlocks, blockRange, Multiset.mem_map]
  exact ⟨i / 64, Multiset.mem_range.mpr (by omega), rfl⟩

/-! ## What the invariant says about single blocks -/

section Parts

variable {N : UInt32} {d : Store} {L : Multiset BlockNo}

theorem sum_fileNodes_split {i : Nat} (h : i < ninodesOf d) :
    ∑ j ∈ range (ninodesOf d), fileNodes d j =
      fileNodes d i + ∑ j ∈ (range (ninodesOf d)).erase i, fileNodes d j :=
  (add_sum_erase _ _ (mem_range.mpr h)).symm

theorem fileNodes_le_sum {i : Nat} (h : i < ninodesOf d) :
    fileNodes d i ≤ ∑ j ∈ range (ninodesOf d), fileNodes d j := by
  rw [sum_fileNodes_split h]
  exact Multiset.le_add_right _ _

theorem FsInv.lt_of_mem_free (h : FsInv N d L) {x : BlockNo} (hx : x ∈ L) : x < N := by
  rw [← h.mem_layout, layout]
  simp only [Multiset.mem_add]
  exact Or.inr (Or.inl hx)

theorem FsInv.lt_of_mem_fileNodes (h : FsInv N d L) {i : Nat} (hi : i < ninodesOf d)
    {x : BlockNo} (hx : x ∈ fileNodes d i) : x < N := by
  rw [← h.mem_layout, layout]
  simp only [Multiset.mem_add]
  exact Or.inr (Or.inr (Multiset.mem_of_le (fileNodes_le_sum hi) hx))

theorem FsInv.zero_lt (h : FsInv N d L) : 0 < N := by
  rw [← h.mem_layout, layout]
  simp only [Multiset.mem_add]
  exact Or.inl (Or.inl (Multiset.mem_singleton_self 0))

theorem FsInv.inodeBlockOf_lt (h : FsInv N d L) {i : Nat} (hi : i < ninodesOf d) :
    inodeBlockOf i < N := by
  rw [← h.mem_layout, layout]
  simp only [Multiset.mem_add]
  exact Or.inl (Or.inr (inodeBlockOf_mem hi))

/-- Free blocks and trees are disjoint from each other, from the inode blocks and from the
    superblock. -/
theorem FsInv.nodup_parts (h : FsInv N d L) :
    L.Nodup ∧ (∑ i ∈ range (ninodesOf d), fileNodes d i).Nodup ∧
      (∀ x ∈ L, x ∉ ∑ i ∈ range (ninodesOf d), fileNodes d i) ∧
      (∀ x ∈ inodeBlocks (d 0).nInodeblocks.toNat,
        x ∉ L ∧ x ∉ ∑ i ∈ range (ninodesOf d), fileNodes d i) := by
  obtain ⟨_, hright, hdisj⟩ := Multiset.nodup_add.mp h.nodup
  obtain ⟨hL, hT, hLT⟩ := Multiset.nodup_add.mp hright
  refine ⟨hL, hT, fun x hx => Multiset.disjoint_left.mp hLT hx, fun x hx => ?_⟩
  have hnot := Multiset.disjoint_left.mp hdisj (Multiset.mem_add.mpr (Or.inr hx))
  exact ⟨fun hxL => hnot (Multiset.mem_add.mpr (Or.inl hxL)),
    fun hxT => hnot (Multiset.mem_add.mpr (Or.inr hxT))⟩

theorem FsInv.nodup_free_file (h : FsInv N d L) {i : Nat} (hi : i < ninodesOf d) :
    (inodeBlockOf i ::ₘ (L + fileNodes d i)).Nodup := by
  obtain ⟨hL, hT, hLT, hI⟩ := h.nodup_parts
  have hle := fileNodes_le_sum hi
  obtain ⟨hIL, hIT⟩ := hI _ (inodeBlockOf_mem hi)
  rw [Multiset.nodup_cons, Multiset.mem_add, not_or, Multiset.nodup_add]
  exact ⟨⟨hIL, fun hx => hIT (Multiset.mem_of_le hle hx)⟩, hL, Multiset.nodup_of_le hle hT,
    Multiset.disjoint_left.mpr fun hx hx' => hLT _ hx (Multiset.mem_of_le hle hx')⟩

/-! ## The frame of a write -/

/-- The blocks a write to inode `i` may not touch. -/
structure Outside (d : Store) (L : Multiset BlockNo) (i : Nat) (x : BlockNo) : Prop where
  ne_zero : x ≠ 0
  ne_inode : x ≠ inodeBlockOf i
  notMem_free : x ∉ L
  notMem_file : x ∉ fileNodes d i

theorem FsInv.outside_inodeBlock (h : FsInv N d L) {i j : Nat} (hi : i < ninodesOf d)
    (hj : j < ninodesOf d) (hne : inodeBlockOf j ≠ inodeBlockOf i) :
    Outside d L i (inodeBlockOf j) := by
  obtain ⟨_, _, _, hI⟩ := h.nodup_parts
  obtain ⟨hL, hT⟩ := hI _ (inodeBlockOf_mem hj)
  exact ⟨inodeBlockOf_ne_zero (hj.trans h.ninodes_lt), hne, hL,
    fun hx => hT (Multiset.mem_of_le (fileNodes_le_sum hi) hx)⟩

theorem FsInv.outside_other_file (h : FsInv N d L) {i j : Nat} (hi : i < ninodesOf d)
    (hj : j < ninodesOf d) (hne : j ≠ i) {x : BlockNo} (hx : x ∈ fileNodes d j) :
    Outside d L i x := by
  obtain ⟨_, hT, hLT, hI⟩ := h.nodup_parts
  have hxT := Multiset.mem_of_le (fileNodes_le_sum hj) hx
  refine ⟨ne_zero_of_mem_nodes hx, ?_, fun hxL => hLT x hxL hxT, ?_⟩
  · rintro rfl
    exact (hI _ (inodeBlockOf_mem hi)).2 hxT
  · -- two trees of the same sum share no block
    rw [sum_fileNodes_split hi, Multiset.nodup_add] at hT
    intro hxi
    have hrest : x ∈ ∑ l ∈ (range (ninodesOf d)).erase i, fileNodes d l :=
      Multiset.mem_sum.mpr ⟨j, mem_erase.mpr ⟨hne, mem_range.mpr hj⟩, hx⟩
    exact Multiset.disjoint_left.mp hT.2.2 hxi hrest

/-- File `j` has the same inode and the same tree in both stores. -/
structure SameFile (d d' : Store) (j : Nat) : Prop where
  root : rootOf d' j = rootOf d j
  nblocks : nblocksOf d' j = nblocksOf d j
  tree : ∀ x ∈ fileNodes d j, d' x = d x

section SameFile

variable {d' : Store} {j : Nat}

theorem SameFile.depth (h : SameFile d d' j) : depthOf d' j = depthOf d j := by
  rw [depthOf, depthOf, h.nblocks]

theorem SameFile.fileNodes_eq (h : SameFile d d' j) : fileNodes d' j = fileNodes d j := by
  rw [fileNodes, h.root, h.depth]
  exact nodes_congr h.tree

theorem SameFile.leaf_eq (h : SameFile d d' j) (off : Nat) :
    leaf d' (depthOf d' j) (rootOf d' j) off = leaf d (depthOf d j) (rootOf d j) off := by
  rw [h.root, h.depth]
  exact leaf_congr h.tree off

theorem SameFile.content_eq (h : SameFile d d' j) (off : Nat) :
    fileBlock d' (depthOf d' j) (rootOf d' j) off =
      fileBlock d (depthOf d j) (rootOf d j) off := by
  rw [h.root, h.depth]
  exact fileBlock_congr h.tree off

theorem SameFile.fileOf_eq (h : SameFile d d' j) : fileOf d' j = fileOf d j := by
  apply SparseArray.ext
  · simp only [fileOf, h.nblocks]
  · funext off
    simp only [fileOf, h.nblocks, h.content_eq off]

end SameFile

/-- What a write to inode `i` leaves behind: block `inodeBlockOf i` is rewritten at the two
    words of inode `i` only, and nothing outside changes. -/
structure InodeUpdate (d : Store) (L : Multiset BlockNo) (i : Nat) (n : BlockNo) (r : BlockNo)
    (d' : Store) : Prop where
  nInodeblocks : (d' 0).nInodeblocks = (d 0).nInodeblocks
  inodeblock : d' (inodeBlockOf i) = Function.update
    (Function.update (d (inodeBlockOf i)) (nblocksWord (inodeSlotOf i)) n)
    (rootWord (inodeSlotOf i)) r
  outside : ∀ x, Outside d L i x → d' x = d x

variable {d' : Store} {i : Nat} {n r : BlockNo}

theorem InodeUpdate.ninodes_eq (hu : InodeUpdate d L i n r d') : ninodesOf d' = ninodesOf d := by
  rw [ninodesOf, ninodesOf, hu.nInodeblocks]

theorem InodeUpdate.rootOf_self (hu : InodeUpdate d L i n r d') : rootOf d' i = r := by
  rw [rootOf, hu.inodeblock, Function.update_self]

theorem InodeUpdate.nblocksOf_self (hu : InodeUpdate d L i n r d') : nblocksOf d' i = n := by
  rw [nblocksOf, hu.inodeblock, Function.update_of_ne (rootWord_ne_nblocksWord _ _).symm,
    Function.update_self]

/-- Every other inode keeps both words. -/
theorem InodeUpdate.inode_other (h : FsInv N d L) (hu : InodeUpdate d L i n r d')
    (hi : i < ninodesOf d) {j : Nat} (hj : j < ninodesOf d)
    (hne : j ≠ i) : rootOf d' j = rootOf d j ∧ nblocksOf d' j = nblocksOf d j := by
  by_cases hblock : inodeBlockOf j = inodeBlockOf i
  · have hslot : inodeSlotOf j ≠ inodeSlotOf i := fun hs =>
      hne (eq_of_inodeBlockOf_eq (hj.trans h.ninodes_lt) (hi.trans h.ninodes_lt) hblock hs)
    constructor
    · rw [rootOf, rootOf, hblock, hu.inodeblock,
        Function.update_of_ne (fun hw => hslot (rootWord_inj hw)),
        Function.update_of_ne (rootWord_ne_nblocksWord _ _)]
    · rw [nblocksOf, nblocksOf, hblock, hu.inodeblock,
        Function.update_of_ne (rootWord_ne_nblocksWord _ _).symm,
        Function.update_of_ne (fun hw => hslot (nblocksWord_inj hw))]
  · have heq : d' (inodeBlockOf j) = d (inodeBlockOf j) :=
      hu.outside _ (h.outside_inodeBlock hi hj hblock)
    exact ⟨congrFun heq _, congrFun heq _⟩

theorem InodeUpdate.sameFile (h : FsInv N d L) (hu : InodeUpdate d L i n r d')
    (hi : i < ninodesOf d) {j : Nat} (hj : j < ninodesOf d) (hne : j ≠ i) :
    SameFile d d' j := by
  obtain ⟨hroot, hsize⟩ := hu.inode_other h hi hj hne
  exact ⟨hroot, hsize, fun x hx => hu.outside x (h.outside_other_file hi hj hne hx)⟩

/-- If free list and the tree of inode `i` together keep their blocks, so does the whole
    file system. -/
theorem InodeUpdate.layout_eq (h : FsInv N d L) (hu : InodeUpdate d L i n r d')
    (hi : i < ninodesOf d) {L' : Multiset BlockNo}
    (hconserve : L' + fileNodes d' i = L + fileNodes d i) : layout d' L' = layout d L := by
  have hi' : i < ninodesOf d' := by rwa [hu.ninodes_eq]
  have hrest : ∑ j ∈ (range (ninodesOf d)).erase i, fileNodes d' j =
      ∑ j ∈ (range (ninodesOf d)).erase i, fileNodes d j := by
    apply sum_congr rfl
    intro j hj
    exact (hu.sameFile h hi (mem_range.mp (mem_of_mem_erase hj))
      (ne_of_mem_erase hj)).fileNodes_eq
  rw [layout, layout, sum_fileNodes_split hi', sum_fileNodes_split hi, hu.ninodes_eq, hrest,
    hu.nInodeblocks, ← add_assoc L', hconserve, ← add_assoc L]

end Parts

end Egos.TreeDisk
