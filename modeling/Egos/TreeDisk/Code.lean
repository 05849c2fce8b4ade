import Mathlib.Algebra.Ring.Int.Defs
import Mathlib.Algebra.Ring.Nat
import Mathlib.Data.UInt
import Egos.Lib.BlockProg

/-!
# The Tree File System: Code

The functions of `library/file/file1.c` over the layout of `library/file/file1.h`.

The inode store below is an interface (`inode_intf`) that treedisk only reaches through
`read` and `write`, so every function is a program of `Egos.Lib.BlockProg`; `getsize`
returns a constant and is a parameter of `treediskCreate`. A `panic` ends in `FATAL` and
never returns: it is the `halt` of that language.

## Reading guide

- `uint` and `block_no` are 32 bits wide and wrap, as `UInt32` does.
- A block has 512 bytes, and every field the code reads in one is an aligned 32-bit
  word, so a block is its 128 words. `union treedisk_block` is how the words are read:
  the superblock is words 0 and 1, inode `i` of an inode block is words `2i` and
  `2i + 1`, and reference `i` of an indirect or free-list block is word `i`.
- The number of tree levels never exceeds 5, so `nlevels` is a natural number.
-/

namespace Egos.TreeDisk

open Egos.Lib

/-! ## Layout -/

/-- `block_no`: the index of a block. -/
abbrev BlockNo := UInt32

/-- `block_t`, read as words. -/
abbrev Block := Fin 128 → UInt32

/-- Literals are words of a block. -/
instance neZeroWords : NeZero 128 := ⟨by decide⟩

/-- `REFS_PER_BLOCK`: 512 bytes of 4-byte references. -/
def refsPerBlock : UInt32 := 128

/-- `INODES_PER_BLOCK`: 512 bytes of 8-byte inodes. -/
def inodesPerBlock : UInt32 := 64

/-- `null_block`: a block filled with null bytes. -/
def nullBlock : Block := fun _ => 0

/-- `superblock.n_inodeblocks` -/
def Block.nInodeblocks (b : Block) : BlockNo := b 0

/-- `superblock.free_list` -/
def Block.freeList (b : Block) : BlockNo := b 1

/-- The word that holds `inodes[i].root`. -/
def rootWord (i : Fin 64) : Fin 128 := ⟨2 * i, by omega⟩

/-- The word that holds `inodes[i].nblocks`. -/
def nblocksWord (i : Fin 64) : Fin 128 := ⟨2 * i + 1, by omega⟩

/-- Programs over the store below. -/
abbrev Disk := BlockProg BlockNo Block

/-- `panic` -/
def panic {α : Type} (s : String) : Disk α := .halt s

/-- `(*below->read)(below, below_ino, b, &block)`; `none` is a negative result. -/
def belowRead (b : BlockNo) : Disk (Option Block) := .read b .ret

/-- `(*below->write)(below, below_ino, b, &block)`; `false` is a negative result. -/
def belowWrite (b : BlockNo) (block : Block) : Disk Bool := .write b block .ret

/-- A read whose failure is a panic. -/
def readOrPanic (s : String) (b : BlockNo) : Disk Block := do
  match ← belowRead b with
  | some block => pure block
  | none => panic s

/-- A write whose failure is a panic. -/
def writeOrPanic (s : String) (b : BlockNo) (block : Block) : Disk Unit := do
  if ← belowWrite b block then pure () else panic s

/-! ## Levels of the tree -/

/-- The do-while loop of `treedisk_init` that finds the log of the number of references
    per block. -/
def logRpbLoop : Nat → Nat → Nat
  | 0, logRpb => logRpb
  | fuel + 1, logRpb =>
      if (refsPerBlock - 1) >>> UInt32.ofNat (logRpb + 1) ≠ 0
      then logRpbLoop fuel (logRpb + 1) else logRpb + 1

/-- `log_rpb`, which starts at 0 and is set by the first `treedisk_init`. -/
def logRpb : Nat := logRpbLoop 32 0

/-- `log_shift_r` -/
def logShiftR (x : BlockNo) (nbits : Nat) : BlockNo :=
  if nbits ≥ 32 then 0 else x >>> UInt32.ofNat nbits

/-- `while (log_shift_r(x, nlevels * log_rpb) != 0) nlevels++;` -/
def levelLoop (x : BlockNo) : Nat → Nat → Nat
  | 0, nlevels => nlevels
  | fuel + 1, nlevels =>
      if logShiftR x (nlevels * logRpb) ≠ 0 then levelLoop x fuel (nlevels + 1) else nlevels

/-- The level loop from `nlevels = 0`; `levelLoop_spec` shows that 32 turns are enough. -/
def levels (x : BlockNo) : Nat := levelLoop x 32 0

/-- The number of levels in the tree of a file with `nblocks` blocks. -/
def treeDepth (nblocks : BlockNo) : Nat :=
  if nblocks > 0 then levels (nblocks - 1) else 0

/-- `log_shift_r(offset, nlevels * log_rpb) % REFS_PER_BLOCK` -/
def refIndex (offset : BlockNo) (nlevels : Nat) : Fin 128 :=
  ⟨(logShiftR offset (nlevels * logRpb) % refsPerBlock).toNat, by
    rw [UInt32.toNat_mod]
    exact Nat.mod_lt _ (by decide)⟩

/-! ## Snapshots -/

/-- `struct treedisk_snapshot`; `inode` is the index that the pointer `inode` selects
    in the inode block. -/
structure Snapshot where
  superblock : Block
  inodeblock : Block
  inodeBlockno : BlockNo
  inode : Fin 64

namespace Snapshot

/-- `snapshot->inode->root` -/
def root (s : Snapshot) : BlockNo := s.inodeblock (rootWord s.inode)

/-- `snapshot->inode->nblocks` -/
def nblocks (s : Snapshot) : BlockNo := s.inodeblock (nblocksWord s.inode)

/-- `snapshot->inode->root = b` -/
def setRoot (s : Snapshot) (b : BlockNo) : Snapshot :=
  { s with inodeblock := Function.update s.inodeblock (rootWord s.inode) b }

/-- `snapshot->inode->nblocks = n` -/
def setNblocks (s : Snapshot) (n : BlockNo) : Snapshot :=
  { s with inodeblock := Function.update s.inodeblock (nblocksWord s.inode) n }

/-- `snapshot->superblock.superblock.free_list = b` -/
def setFreeList (s : Snapshot) (b : BlockNo) : Snapshot :=
  { s with superblock := Function.update s.superblock 1 b }

end Snapshot

/-- `inode_no % INODES_PER_BLOCK` -/
def inodeIndex (inodeNo : UInt32) : Fin 64 :=
  ⟨(inodeNo % inodesPerBlock).toNat, by
    rw [UInt32.toNat_mod]
    exact Nat.mod_lt _ (by decide)⟩

/-- `treedisk_get_snapshot`; `none` is the result -1. -/
def treediskGetSnapshot (inodeNo : UInt32) : Disk (Option Snapshot) := do
  match ← belowRead 0 with
  | none => pure none
  | some superblock =>
    -- "inode number too large"
    if inodeNo ≥ superblock.nInodeblocks * inodesPerBlock then pure none
    else
      let inodeBlockno := 1 + inodeNo / inodesPerBlock
      match ← belowRead inodeBlockno with
      | none => pure none
      | some inodeblock =>
        pure (some ⟨superblock, inodeblock, inodeBlockno, inodeIndex inodeNo⟩)

/-! ## Allocation -/

/-- `for (i = REFS_PER_BLOCK; --i > 0;) if (refs[i] != 0) break;`, from slot `i` down:
    the last slot in use, 0 if there is none. -/
def scanRefs (refs : Block) : Nat → Fin 128
  | 0 => 0
  | i + 1 => if refs (Fin.ofNat 128 (i + 1)) ≠ 0 then Fin.ofNat 128 (i + 1) else scanRefs refs i

/-- `treedisk_alloc_block` -/
def treediskAllocBlock (snapshot : Snapshot) : Disk (BlockNo × Snapshot) := do
  let b := snapshot.superblock.freeList
  if b = 0 then panic "treedisk_alloc_block: inode store is full\n"
  else
    let freelistblock ← readOrPanic "treedisk_alloc_block" b
    let i := scanRefs freelistblock 127
    if i = 0 then
      -- no reference left: use the free-list block itself
      let snapshot := snapshot.setFreeList (freelistblock 0)
      writeOrPanic "treedisk_alloc_block: superblock" 0 snapshot.superblock
      pure (b, snapshot)
    else
      let freeBlockno := freelistblock i
      writeOrPanic "treedisk_alloc_block: freelistblock" b (Function.update freelistblock i 0)
      pure (freeBlockno, snapshot)

/-! ## Reading -/

/-- A 32-bit `uint` returned as an `int`. -/
def toInt (n : UInt32) : Int :=
  if n.toNat < 2 ^ 31 then n.toNat else (n.toNat : Int) - 2 ^ 32

/-- `treedisk_getsize` -/
def treediskGetsize (ino : UInt32) : Disk Int := do
  match ← treediskGetSnapshot ino with
  | none => pure (-1)
  | some snapshot => pure (toInt snapshot.nblocks)

/-- The `for` loop of `treedisk_read` with `nlevels` levels to go. -/
def treediskReadWalk (offset : BlockNo) : Nat → BlockNo → Disk (Option Block)
  | 0, b => if b = 0 then pure (some nullBlock) else belowRead b
  | nlevels + 1, b =>
      if b = 0 then pure (some nullBlock)
      else do
        match ← belowRead b with
        | none => pure none
        | some tib => treediskReadWalk offset nlevels (tib (refIndex offset nlevels))

/-- `treedisk_read`; `some block` is the result 0 with the block read, `none` is -1. -/
def treediskRead (ino : UInt32) (offset : BlockNo) : Disk (Option Block) := do
  match ← treediskGetSnapshot ino with
  | none => pure none
  | some snapshot =>
    -- "offset too large"
    if offset ≥ snapshot.nblocks then pure none
    else treediskReadWalk offset (treeDepth snapshot.nblocks) snapshot.root

/-! ## Writing -/

/-- The loop of `treedisk_write` that inserts indirect blocks above the root, with
    `nlevels_after - nlevels` turns to go. -/
def growLevels : Nat → Snapshot → Disk Snapshot
  | 0, snapshot => pure snapshot
  | turns + 1, snapshot => do
      let (indir, snapshot) ← treediskAllocBlock snapshot
      let tib := Function.update nullBlock 0 snapshot.root
      let snapshot := snapshot.setRoot indir
      writeOrPanic "treedisk_write: indirect block" indir tib
      growLevels turns snapshot

/-- The `for` loop of `treedisk_write` with `nlevels` levels to go. The pointers
    `parent_no` and `parent_block` of the source are the slot `parentNo` of the buffered
    block `parentBlock`, which belongs at `parentOff` on disk. The buffer `tib` is
    declared inside the loop but keeps its storage from one turn to the next, which is
    what `parent_no` relies on. -/
def treediskWriteWalk (offset : BlockNo) (block : Block) :
    Nat → Snapshot → BlockNo → Block → Fin 128 → Disk Unit
  | nlevels, snapshot, parentOff, parentBlock, parentNo => do
      let b := parentBlock parentNo
      if b = 0 then
        let (b, snapshot) ← treediskAllocBlock snapshot
        writeOrPanic "treedisk_write: parent" parentOff (Function.update parentBlock parentNo b)
        match nlevels with
        | 0 => writeOrPanic "treedisk_write: data block" b block
        | nlevels + 1 =>
          treediskWriteWalk offset block nlevels snapshot b nullBlock (refIndex offset nlevels)
      else
        match nlevels with
        | 0 => writeOrPanic "treedisk_write: data block" b block
        | nlevels + 1 => do
          let tib ← readOrPanic "treedisk_write" b
          treediskWriteWalk offset block nlevels snapshot b tib (refIndex offset nlevels)

/-- `treedisk_write` -/
def treediskWrite (ino : UInt32) (offset : BlockNo) (block : Block) : Disk Int := do
  match ← treediskGetSnapshot ino with
  | none => pure (-1)
  | some snapshot =>
    let nlevels := treeDepth snapshot.nblocks
    -- Files cannot shrink by writing.
    let enlarge : Bool := decide (offset ≥ snapshot.nblocks)
    let nlevelsAfter := if enlarge then levels offset else nlevels
    let snapshot := if enlarge then snapshot.setNblocks (offset + 1) else snapshot
    -- Grow the number of levels as needed by inserting indirect blocks.
    let insert : Nat := if snapshot.nblocks = 0 then 0 else nlevelsAfter - nlevels
    let nlevels := if snapshot.nblocks = 0 then nlevelsAfter else nlevels + insert
    let snapshot ← growLevels insert snapshot
    -- If the inode block was updated, write it back now.
    if enlarge || decide (0 < insert) then
      writeOrPanic "treedisk_write: inode block" snapshot.inodeBlockno snapshot.inodeblock
    treediskWriteWalk offset block nlevels snapshot snapshot.inodeBlockno snapshot.inodeblock
      (rootWord snapshot.inode)
    pure 0

/-! ## Creating -/

/-- `for (i = 1; i < REFS_PER_BLOCK && next_free < nblocks; i++)`, with `slots` slots to
    go: the slots left, the next free block and the node. -/
def fillRefs (nblocks : BlockNo) : Nat → BlockNo → Block → Nat × BlockNo × Block
  | 0, nextFree, data => (0, nextFree, data)
  | slots + 1, nextFree, data =>
      if nextFree < nblocks then
        fillRefs nblocks slots (nextFree + 1)
          (Function.update data (Fin.ofNat 128 (127 - slots)) nextFree)
      else (slots + 1, nextFree, data)

/-- `for (; i < REFS_PER_BLOCK; i++) freelist_data[i] = 0;` -/
def zeroRefs : Nat → Block → Block
  | 0, data => data
  | slots + 1, data => zeroRefs slots (Function.update data (Fin.ofNat 128 (127 - slots)) 0)

/-- One turn of the `while` loop of `setup_freelist`: the array `freelist_data` is filled
    for the node at block `nextFree`, which links back to `freelistBlock`. Returns the next
    free block and the array. -/
def fillNode (nblocks freelistBlock nextFree : BlockNo) (data : Block) : BlockNo × Block :=
  let data := Function.update data 0 freelistBlock
  let (slots, nextFree, data) := fillRefs nblocks 127 (nextFree + 1) data
  (nextFree, zeroRefs slots data)

/-- The `while` loop of `setup_freelist`. `data` is the array `freelist_data`, which is
    never cleared between turns. -/
def setupFreelistLoop (nblocks : BlockNo) : Nat → BlockNo → BlockNo → Block → Disk BlockNo
  | 0, freelistBlock, _, _ => pure freelistBlock
  | fuel + 1, freelistBlock, nextFree, data =>
      if nextFree < nblocks then do
        let turn := fillNode nblocks freelistBlock nextFree data
        writeOrPanic "treedisk_setup_freelist" nextFree turn.2
        setupFreelistLoop nblocks fuel nextFree turn.1 turn.2
      else pure freelistBlock

/-- `setup_freelist`; the initial content `stale` of the array `freelist_data` is
    whatever the stack holds. -/
def setupFreelist (stale : Block) (nextFree nblocks : BlockNo) : Disk BlockNo :=
  setupFreelistLoop nblocks nblocks.toNat 0 nextFree stale

/-- `for (uint i = 1; i <= n_inodeblocks; i++)`, with `count` blocks to go from `i`. -/
def clearInodeblocks : Nat → BlockNo → Disk Int
  | 0, _ => pure 0
  | count + 1, i => do
      if ← belowWrite i nullBlock then clearInodeblocks count (i + 1) else pure (-1)

/-- `treedisk_create` on a store of `getsize` blocks. The check that a
    `union treedisk_block` fills a block is a compile-time constant. -/
def treediskCreate (stale : Block) (getsize ninodes : UInt32) : Disk Int := do
  let nInodeblocks := (ninodes + inodesPerBlock - 1) / inodesPerBlock
  let nblocks := getsize
  -- "too few blocks"
  if nblocks < nInodeblocks + 2 then pure (-1)
  else
    match ← belowRead 0 with
    | none => pure (-1)
    | some superblock =>
      if superblock.nInodeblocks = 0 then
        let freeList ← setupFreelist stale (nInodeblocks + 1) nblocks
        let superblock := Function.update (Function.update nullBlock 0 nInodeblocks) 1 freeList
        if ← belowWrite 0 superblock then clearInodeblocks nInodeblocks.toNat 1
        else pure (-1)
      else pure 0

end Egos.TreeDisk
