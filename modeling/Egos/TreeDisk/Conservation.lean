import Egos.TreeDisk.Refinement

/-!
# The Tree File System: Conservation and Frame

Two results about every store that was created and then used.

- `treedisk_conserves_blocks`: each block of the store is the superblock, an inode block,
  free, or at one place of one file, and no call goes outside the store.
- `treedisk_write_frame_iff`: a write that returns 0 does to its own file what a write
  should do and leaves the others alone, unless its offset is the last one. There
  `offset + 1` wraps: `write_last_offset_corrupts` shows that the file shrinks to nothing
  and that the tree is walked at a depth it does not have, through data blocks.
-/

namespace Egos.TreeDisk

open Egos.Lib Egos.Lib.BlockProg Egos.Lib.FreeList Egos.Lib.RadixTree Finset

variable {N : UInt32} {d d' : Store} {L : Multiset BlockNo} {calls : List Call}

/-! ## Every block has one place -/

/-- A block of a tree is at one place of one file. -/
theorem FsInv.exists_unique_place (h : FsInv N d L) {b : BlockNo}
    (hb : b ∈ ∑ i ∈ range (ninodesOf d), fileNodes d i) :
    ∃! place : ℕ × List (Fin 128), place.1 < ninodesOf d ∧
      place.2.length ≤ depthOf d place.1 ∧ follow d (rootOf d place.1) place.2 = b := by
  obtain ⟨_, hT, _, _⟩ := h.nodup_parts
  obtain ⟨i, hi, hbi⟩ := Multiset.mem_sum.mp hb
  rw [mem_range] at hi
  obtain ⟨hb0, path, hlen, hpath⟩ := mem_nodes_iff.mp hbi
  refine ⟨(i, path), ⟨hi, hlen, hpath⟩, ?_⟩
  rintro ⟨j, path'⟩ ⟨hj, hlen', hpath'⟩
  have hbj : b ∈ fileNodes d j := mem_nodes_iff.mpr ⟨hb0, path', hlen', hpath'⟩
  have hji : j = i := by
    by_contra hne
    exact (h.outside_other_file hi hj hne hbj).notMem_file hbi
  subst hji
  have hnodup : (fileNodes d j).Nodup := Multiset.nodup_of_le (fileNodes_le_sum hi) hT
  have hpaths : path' = path := path_unique hnodup hb0 hlen' hlen hpath' hpath
  rw [hpaths]

/-! ## No call leaves the store -/

theorem create_accesses_lt (stale : Block) (ninodes : UInt32) (d : Store) :
    ∀ b ∈ (treediskCreate stale N ninodes).accesses (inRange N) d, b < N := by
  intro b hb
  rw [← inRange_iff]
  by_cases hzero : (d 0).nInodeblocks = 0
  · exact accesses_of_wp (wp_create_fresh (E := fun _ _ => True) stale ninodes hzero) b hb
  · exact accesses_of_wp (wp_create_again (E := fun _ _ => True) stale ninodes hzero) b hb

theorem FsInv.accesses_lt (h : FsInv N d L) (ino : UInt32) (off : BlockNo) :
    (∀ b ∈ (treediskRead ino off).accesses (inRange N) d, b < N) ∧
      (∀ b ∈ (treediskGetsize ino).accesses (inRange N) d, b < N) ∧
      (off.toNat ≤ 2 ^ 32 - 2 → ∀ block,
        ∀ b ∈ (treediskWrite ino off block).accesses (inRange N) d, b < N) := by
  refine ⟨fun b hb => ?_, fun b hb => ?_, fun hoff block b hb => ?_⟩
  · exact inRange_iff.mp (accesses_of_wp 
      (h.header.wp_read (E := fun _ _ => True) ino off (h.nodes_lt ino)) b hb)
  · exact inRange_iff.mp (accesses_of_wp (h.header.wp_getsize (E := fun _ _ => True) ino) b hb)
  · exact inRange_iff.mp (accesses_of_wp (h.wp_write ino block hoff) b hb)

/-- Block conservation. In every store that was created and then used, the superblock, the
    inode blocks, the free blocks and the blocks of the trees are together the blocks
    `0..N-1`, each exactly once; a block of a tree has exactly one inode and one path of at
    most its depth; and no call passes on a block number outside the store. -/
theorem treedisk_conserves_blocks (h : Reached N calls d) :
    (∃ L : Multiset BlockNo, Chain d (d 0).freeList L ∧
      ∀ b, ({0} + inodeBlocks (d 0).nInodeblocks.toNat +
        (L + ∑ i ∈ range (ninodesOf d), fileNodes d i)).count b = if b < N then 1 else 0) ∧
    (∀ b ∈ ∑ i ∈ range (ninodesOf d), fileNodes d i,
      ∃! place : ℕ × List (Fin 128), place.1 < ninodesOf d ∧
        place.2.length ≤ depthOf d place.1 ∧ follow d (rootOf d place.1) place.2 = b) ∧
    (∀ (ino : UInt32) (off : BlockNo),
      (∀ b ∈ (treediskRead ino off).accesses (inRange N) d, b < N) ∧
      (∀ b ∈ (treediskGetsize ino).accesses (inRange N) d, b < N) ∧
      (off.toNat ≤ 2 ^ 32 - 2 → ∀ block,
        ∀ b ∈ (treediskWrite ino off block).accesses (inRange N) d, b < N)) ∧
    (∀ stale ninodes d₀, ∀ b ∈ (treediskCreate stale N ninodes).accesses (inRange N) d₀, b < N) := by
  obtain ⟨L, hinv⟩ := (represents_of_run h).inv
  refine ⟨⟨L, hinv.chain, fun b => ?_⟩, fun b hb => hinv.exists_unique_place hb,
    hinv.accesses_lt, fun stale ninodes d₀ => create_accesses_lt stale ninodes d₀⟩
  split_ifs with hb
  · exact Multiset.count_eq_one_of_mem hinv.nodup ((hinv.mem_layout b).mpr hb)
  · exact Multiset.count_eq_zero_of_notMem fun hmem => hb ((hinv.mem_layout b).mp hmem)

theorem treedisk_conserves_blocks_usedStore :
    Reached 10 [.write 0 3 fun _ => 7] usedStore ∧
      ∃ L : Multiset BlockNo, Chain usedStore (usedStore 0).freeList L ∧
        ∀ b, ({0} + inodeBlocks (usedStore 0).nInodeblocks.toNat +
          (L + ∑ i ∈ range (ninodesOf usedStore), fileNodes usedStore i)).count b =
            if b < 10 then 1 else 0 :=
  ⟨reached_usedStore, (treedisk_conserves_blocks reached_usedStore).1⟩

/-! ## The frame of a write -/

/-- What a write of `block` at `off` of inode `ino` should do to what can be read. -/
structure WriteFrame (N : UInt32) (d : Store) (ino : UInt32) (off : BlockNo) (block : Block)
    (d' : Store) : Prop where
  other_size : ∀ j ≠ ino, ((treediskGetsize j).run (inRange N) d').1 =
    ((treediskGetsize j).run (inRange N) d).1
  other_read : ∀ j ≠ ino, ∀ o, ((treediskRead j o).run (inRange N) d').1 =
    ((treediskRead j o).run (inRange N) d).1
  /-- Files cannot shrink by writing. -/
  size : (nblocksOf d ino.toNat).toNat ≤ (nblocksOf d' ino.toNat).toNat
  kept : ∀ o ≠ off, ∀ b, ((treediskRead ino o).run (inRange N) d).1 = .returned (some b) →
    ((treediskRead ino o).run (inRange N) d').1 = .returned (some b)
  written : ((treediskRead ino off).run (inRange N) d').1 = .returned (some block)

/-- A write to the file has the frame it should have. -/
theorem Written.writeFrame (hinv : FsInv N d L) {ino : UInt32} {off : BlockNo} {block : Block}
    (hi : ino.toNat < ninodesOf d) (hw : Written N d ino.toNat off block d') :
    WriteFrame N d ino off block d' := by
  obtain ⟨L', hinv'⟩ := hw.inv
  have hninodes : ninodesOf d' = ninodesOf d := by rw [ninodesOf, ninodesOf, hw.nInodeblocks]
  have hother : ∀ j : UInt32, j ≠ ino → j.toNat < ninodesOf d →
      fileOf d' j.toNat = fileOf d j.toNat := fun j hne hj =>
    hw.other _ hj fun heq => hne (UInt32.toNat_inj.mp heq)
  have hsize : ∀ j, (nblocksOf d j).toNat = (fileOf d j).size := fun _ => rfl
  have hsize' : ∀ j, (nblocksOf d' j).toNat = (fileOf d' j).size := fun _ => rfl
  refine ⟨fun j hne => ?_, fun j hne o => ?_, ?_, fun o hne b hread => ?_, ?_⟩
  · rw [hinv'.header.getsize_run, hinv.header.getsize_run, hninodes]
    split_ifs with hj
    · have hnblocks : nblocksOf d' j.toNat = nblocksOf d j.toNat := by
        rw [← UInt32.toNat_inj, hsize, hsize', hother j hne hj]
      rw [hnblocks]
    · rfl
  · rw [read_run hinv', read_run hinv, hninodes]
    split_ifs with hj
    · rw [hother j hne hj]
    · rfl
  · rw [hsize, hsize', hw.file]
    exact le_max_left _ _
  · rw [read_run hinv, if_pos hi] at hread
    rw [read_run hinv', hninodes, if_pos hi, hw.file, SparseArray.read_write_of_ne
      (fun heq => hne (UInt32.toNat_inj.mp heq)) (Outcome.returned.inj hread)]
  · rw [read_run hinv', hninodes, if_pos hi, hw.file, SparseArray.read_write_self]

/-- No file is large enough for the last offset to be read. -/
theorem read_last_offset (valid : BlockNo → Bool) (d : Store) (ino : UInt32) {off : BlockNo}
    (hoff : off.toNat = 2 ^ 32 - 1) : ((treediskRead ino off).run valid d).1 = .returned none := by
  have hge : ∀ n : BlockNo, off ≥ n := by
    intro n
    have hn := n.toNat_lt
    rw [ge_iff_le, UInt32.le_iff_toNat_le]
    omega
  have hread : ∀ (b : BlockNo) (k : Option Block → Disk (Option Block)),
      ((k none).run valid d).1 = .returned none →
      ((k (some (d b))).run valid d).1 = .returned none →
      ((BlockProg.read b k).run valid d).1 = .returned none := by
    intro b k hnone hsome
    rw [run]
    split_ifs
    · exact hsome
    · exact hnone
  apply hread
  · rfl
  · show ((BlockProg.bind (ite _ _ _) _).run valid d).1 = _
    split_ifs
    · rfl
    · apply hread
      · rfl
      · show ((ite _ _ _ : Disk (Option Block)).run valid d).1 = _
        rw [if_pos (hge _)]
        rfl

/-- In every store reached without a write at the last offset, a write that returns 0 has
    the frame it should have exactly if it is not at the last offset itself. -/
theorem treedisk_write_frame_iff (h : Reached N calls d) {ino : UInt32} {off : BlockNo}
    {block : Block}
    (hrun : (treediskWrite ino off block).run (inRange N) d = (.returned 0, d')) :
    WriteFrame N d ino off block d' ↔ off.toNat ≠ 2 ^ 32 - 1 := by
  constructor
  · intro hframe hoff
    have hwritten := hframe.written
    rw [read_last_offset _ _ _ hoff] at hwritten
    cases hwritten
  · intro hoff
    have hrep := represents_of_run h
    obtain ⟨L, hinv⟩ := hrep.inv
    have hlt := off.toNat_lt
    obtain ⟨hi, hw⟩ := hrep.write (by omega) hrun
    exact hw.writeFrame hinv hi

theorem treedisk_write_frame_usedStore :
    ((treediskWrite 0 4 nullBlock).run (inRange 10) usedStore).1 = .returned 0 ∧
      WriteFrame 10 usedStore 0 4 nullBlock
        ((treediskWrite 0 4 nullBlock).run (inRange 10) usedStore).2 := by
  have hwrite : ((treediskWrite 0 4 nullBlock).run (inRange 10) usedStore).1 = .returned 0 := by
    decide +kernel
  exact ⟨hwrite, (treedisk_write_frame_iff reached_usedStore
    (run_eq_of_outcome _ hwrite)).mpr (by decide)⟩

/-! Two files of one block each, both filled with the number of the block that holds the
    second one. -/

/-- The created store after a write of nines to inode 1, which goes to block 9. -/
def oneFileStore : Store := ((treediskWrite 1 0 fun _ => 9).run (inRange 10) createdStore).2

/-- The same after a write of nines to inode 0. -/
def twoFilesStore : Store := ((treediskWrite 0 0 fun _ => 9).run (inRange 10) oneFileStore).2

/-- The same after a write at the last offset of inode 0. -/
def corruptStore : Store :=
  ((treediskWrite 0 0xFFFFFFFF nullBlock).run (inRange 10) twoFilesStore).2

-- one evaluation for the three runs, since each of them starts from the created store
theorem twoFilesStore_runs :
    ((treediskWrite 1 0 fun _ => 9).run (inRange 10) createdStore).1 = .returned 0 ∧
      ((treediskWrite 0 0 fun _ => 9).run (inRange 10) oneFileStore).1 = .returned 0 ∧
      ((treediskWrite 0 0xFFFFFFFF nullBlock).run (inRange 10) twoFilesStore).1 =
        .returned 0 := by
  decide +kernel

theorem reached_twoFilesStore :
    Reached 10 [.write 1 0 fun _ => 9, .write 0 0 fun _ => 9] twoFilesStore := by
  obtain ⟨hone, htwo, _⟩ := twoFilesStore_runs
  exact ⟨blankStore, createdStore, nullBlock, 1, rfl, create_createdStore,
    .snoc (.snoc .nil (.write (by decide) (run_eq_of_outcome _ hone)))
      (.write (by decide) (run_eq_of_outcome _ htwo))⟩

/-- A write at the last offset returns 0 and yet: the block of the other file is
    overwritten, its own file shrinks from one block to none, and what it wrote cannot be
    read back. -/
theorem write_last_offset_corrupts :
    Reached 10 [.write 1 0 fun _ => 9, .write 0 0 fun _ => 9] twoFilesStore ∧
      (treediskWrite 0 0xFFFFFFFF nullBlock).run (inRange 10) twoFilesStore =
        (.returned 0, corruptStore) ∧
      ((treediskRead 1 0).run (inRange 10) twoFilesStore).1 = .returned (some fun _ => 9) ∧
      ((treediskRead 1 0).run (inRange 10) corruptStore).1 = .returned (some nullBlock) ∧
      ((treediskGetsize 0).run (inRange 10) twoFilesStore).1 = .returned 1 ∧
      ((treediskGetsize 0).run (inRange 10) corruptStore).1 = .returned 0 ∧
      ((treediskRead 0 0xFFFFFFFF).run (inRange 10) corruptStore).1 = .returned none := by
  obtain ⟨_, _, hlast⟩ := twoFilesStore_runs
  refine ⟨reached_twoFilesStore, run_eq_of_outcome _ hlast, ?_⟩
  -- one evaluation for the five facts, which share the runs before them
  decide +kernel

end Egos.TreeDisk
