import Egos.TreeDisk.Stages

/-!
# The Tree File System: Operations

`treedisk_read`, `treedisk_getsize` and `treedisk_write` as operations on the files
`fileOf d i`. Reading needs little: `Header` is what the calls check before they enter a
tree, and the tree itself has to stay within the store. Writing needs the file-system
invariant.

`FsInv.wp_write` is all that is said about a write: what it does, what it leaves behind on a
full store, and what the store looks like between its writes.
-/

namespace Egos.TreeDisk

open Egos.Lib Egos.Lib.BlockProg Egos.Lib.FreeList Egos.Lib.RadixTree Finset

/-! ## Snapshots -/

theorem inodeIndex_eq (ino : UInt32) : inodeIndex ino = inodeSlotOf ino.toNat := by
  apply Fin.ext
  show (ino % inodesPerBlock).toNat = ino.toNat % 64
  rw [UInt32.toNat_mod]
  rfl

theorem inodeBlockno_eq (ino : UInt32) : 1 + ino / inodesPerBlock = inodeBlockOf ino.toNat := by
  rw [← UInt32.toNat_inj, toNat_inodeBlockOf ino.toNat_lt, UInt32.toNat_add, UInt32.toNat_div]
  show (1 + ino.toNat / 64) % 2 ^ 32 = 1 + ino.toNat / 64
  have hlt := ino.toNat_lt
  omega

/-- The superblock describes inode blocks within the store. -/
structure Header (N : UInt32) (d : Store) : Prop where
  zero_lt : 0 < N
  ninodes_lt : ninodesOf d < 2 ^ 32
  inodeBlockOf_lt : ∀ i < ninodesOf d, inodeBlockOf i < N

section Ops

variable {N : UInt32} {d : Store} {L : Multiset BlockNo} {E : String → Store → Prop}
variable {I : Store → Prop}

theorem FsInv.header (h : FsInv N d L) : Header N d :=
  ⟨h.zero_lt, h.ninodes_lt, fun _ hi => h.inodeBlockOf_lt hi⟩

theorem Header.congr {d' : Store} (h : Header N d)
    (hsuper : (d' 0).nInodeblocks = (d 0).nInodeblocks) : Header N d' := by
  have hninodes : ninodesOf d' = ninodesOf d := by rw [ninodesOf, ninodesOf, hsuper]
  exact ⟨h.zero_lt, by rw [hninodes]; exact h.ninodes_lt,
    fun i hi => h.inodeBlockOf_lt i (by rwa [← hninodes])⟩

/-- The bound check of the code, whose product does not wrap. -/
theorem Header.accepts_iff (h : Header N d) (ino : UInt32) :
    ino ≥ (d 0).nInodeblocks * inodesPerBlock ↔ ¬ ino.toNat < ninodesOf d := by
  have hlt := h.ninodes_lt
  have hmul : ((d 0).nInodeblocks * inodesPerBlock).toNat = ninodesOf d := by
    rw [UInt32.toNat_mul]
    exact Nat.mod_eq_of_lt hlt
  rw [ge_iff_le, UInt32.le_iff_toNat_le, hmul, not_lt]

/-- `treedisk_get_snapshot` succeeds exactly on the inodes that exist. -/
theorem Header.wp_getSnapshot (h : Header N d) (ino : UInt32) :
    (treediskGetSnapshot ino).wp (inRange N)
      (fun r d' => d' = d ∧
        r = if ino.toNat < ninodesOf d then some (snapshotOf d ino.toNat) else none)
      E I d := by
  simp only [treediskGetSnapshot, wp_bind, wp_belowRead, inRange_iff]
  refine ⟨h.zero_lt, ?_⟩
  by_cases hacc : ino.toNat < ninodesOf d
  · have hcheck : ¬ ino ≥ (d 0).nInodeblocks * inodesPerBlock := by
      rw [h.accepts_iff]
      exact not_not.mpr hacc
    simp only [hcheck, hacc, if_false, if_true, wp_bind, wp_belowRead, wp_pure, inRange_iff]
    rw [inodeBlockno_eq, inodeIndex_eq]
    exact ⟨h.inodeBlockOf_lt _ hacc, trivial, rfl⟩
  · have hcheck : ino ≥ (d 0).nInodeblocks * inodesPerBlock := (h.accepts_iff ino).mpr hacc
    simp only [hcheck, hacc, if_true, if_false, wp_pure]
    exact ⟨trivial, trivial⟩

/-! ## Reading -/

/-- `treedisk_getsize` returns the size as an `int`, -1 if there is no such inode. -/
theorem Header.wp_getsize (h : Header N d) (ino : UInt32) :
    (treediskGetsize ino).wp (inRange N)
      (fun r d' => d' = d ∧
        r = if ino.toNat < ninodesOf d then toInt (nblocksOf d ino.toNat) else -1)
      E (fun _ => True) d := by
  simp only [treediskGetsize, wp_bind]
  apply wp_mono _ (h.wp_getSnapshot (E := E) ino) _ fun _ _ he => he
  rintro r d' ⟨rfl, rfl⟩
  split_ifs <;> exact ⟨rfl, rfl⟩

/-- Below the size of a file, `treedisk_read` is its walk. -/
theorem Header.wp_read_inside (h : Header N d) {ino offset : UInt32}
    {Q : Option Block → Store → Prop} (hi : ino.toNat < ninodesOf d)
    (hlt : offset.toNat < (nblocksOf d ino.toNat).toNat)
    (hwalk : (treediskReadWalk offset (depthOf d ino.toNat) (rootOf d ino.toNat)).wp (inRange N)
      Q E I d) :
    (treediskRead ino offset).wp (inRange N) Q E I d := by
  simp only [treediskRead, wp_bind]
  apply wp_mono _ (h.wp_getSnapshot (E := E) ino) _ fun _ _ he => he
  rintro r d' ⟨rfl, rfl⟩
  have hcheck : ¬ offset ≥ (snapshotOf d' ino.toNat).nblocks := by
    rw [ge_iff_le, UInt32.le_iff_toNat_le]
    exact not_le.mpr hlt
  simp only [hi, if_true]
  rw [if_neg hcheck]
  exact hwalk

/-- `treedisk_read` reads the file, if its tree is within the store. -/
theorem Header.wp_read (h : Header N d) (ino offset : UInt32)
    (hnodes : ino.toNat < ninodesOf d → ∀ x ∈ fileNodes d ino.toNat, x < N) :
    (treediskRead ino offset).wp (inRange N)
      (fun r d' => d' = d ∧
        r = if ino.toNat < ninodesOf d then (fileOf d ino.toNat).read offset.toNat else none)
      E (fun _ => True) d := by
  by_cases hacc : ino.toNat < ninodesOf d
  · have hread : (fileOf d ino.toNat).read offset.toNat =
        if offset.toNat < (nblocksOf d ino.toNat).toNat
        then some ((fileOf d ino.toNat).get offset.toNat) else none := rfl
    simp only [hacc, if_true]
    by_cases hoff : offset.toNat < (nblocksOf d ino.toNat).toNat
    · apply h.wp_read_inside hacc hoff
      apply wp_mono _ (wp_readWalk offset _ _ fun x hx =>
        inRange_iff.mpr (hnodes hacc x hx)) _ fun _ _ he => he
      rintro r d' ⟨rfl, rfl⟩
      rw [hread, if_pos hoff]
      refine ⟨rfl, congrArg some ?_⟩
      exact (if_pos hoff).symm
    · have hcheck : offset ≥ (snapshotOf d ino.toNat).nblocks := by
        rw [ge_iff_le, UInt32.le_iff_toNat_le]
        exact not_lt.mp hoff
      simp only [treediskRead, wp_bind]
      apply wp_mono _ (h.wp_getSnapshot (E := E) ino) _ fun _ _ he => he
      rintro r d' ⟨rfl, rfl⟩
      simp only [hacc, if_true]
      rw [if_pos hcheck, hread, if_neg hoff]
      exact ⟨rfl, rfl⟩
  · simp only [treediskRead, wp_bind]
    apply wp_mono _ (h.wp_getSnapshot (E := E) ino) _ fun _ _ he => he
    rintro r d' ⟨rfl, rfl⟩
    simp only [hacc, if_false, wp_pure]
    exact ⟨trivial, trivial⟩

theorem FsInv.nodes_lt (h : FsInv N d L) (ino : UInt32) :
    ino.toNat < ninodesOf d → ∀ x ∈ fileNodes d ino.toNat, x < N :=
  fun hi _ hx => h.lt_of_mem_fileNodes hi hx

/-! ## Writing -/

variable {i : Nat} {m : BlockNo} {L₁ : Multiset BlockNo} {s : Snapshot} {d₁ : Store}
variable {offset : BlockNo} {block : Block}

/-- The walk of a write, from a state that is ready for it. -/
theorem FsInv.wp_finish (h : FsInv N d L) (block : Block) (hi : i < ninodesOf d)
    (hr : Ready d L i m L₁ s d₁)
    (hroutes : KeepsRoutes (inRange N) d (depthOf d i) (rootOf d i) d₁ (treeDepth m) s.root)
    (hm : m.toNat = max (nblocksOf d i).toNat (offset.toNat + 1)) :
    (treediskWriteWalk offset block (treeDepth m) s s.inodeBlockno s.inodeblock
      (rootWord s.inode)).wp (inRange N)
      (fun _ d' => Written N d i offset block d' ∧
        leaf d' (depthOf d' i) (rootOf d' i) offset.toNat ≠ 0)
      (fun msg d' => msg = fullMessage ∧ L₁.card ≤ treeDepth m ∧ Kept N d i d')
      (Intact N d i offset) d₁ := by
  have hdisk : d₁ s.inodeBlockno = s.inodeblock := by rw [hr.blockno, hr.onDisk]
  apply wp_weaken _ (wp_writeWalk (h.ready_walkPre hi hr) fun _ => hdisk)
  · rintro _ d₂ ⟨L₂, r, hw, hleaf⟩
    have hu := hr.inodeUpdate hw.replaced
    refine ⟨⟨⟨L₂, h.written hi hr hw.replaced hm⟩, hu.nInodeblocks,
      written_fileOf hr hw.replaced hm, fun j hj hne => (hu.sameFile h hi hj hne).fileOf_eq⟩, ?_⟩
    rw [depthOf, hu.nblocksOf_self, hu.rootOf_self]
    exact hleaf
  · rintro msg d₂ ⟨hmsg, hcard, r, hw⟩
    exact ⟨hmsg, hcard, h.kept_of_replaced hi hr hm hw⟩
  · exact fun d₂ ht => h.intact_of_torn hi hr hroutes hm ht

/-- A write to an inode that does not exist, at any offset. -/
theorem Header.wp_write_rejected (h : Header N d) {ino : UInt32} (offset : BlockNo)
    (block : Block) (hi : ¬ ino.toNat < ninodesOf d) :
    (treediskWrite ino offset block).wp (inRange N) (fun r d' => r = -1 ∧ d' = d) E I d := by
  simp only [treediskWrite, wp_bind]
  apply wp_mono _ (h.wp_getSnapshot (E := E) ino) _ fun _ _ he => he
  rintro r d' ⟨rfl, rfl⟩
  simp only [hi, if_false, wp_pure]
  exact ⟨trivial, trivial⟩

/-- A write inside the file: no growth, no inode update. -/
theorem FsInv.wp_write_inside (h : FsInv N d L) {ino : UInt32} (hi : ino.toNat < ninodesOf d)
    (hlt : offset.toNat < (nblocksOf d ino.toNat).toNat) :
    (treediskWrite ino offset block).wp (inRange N)
      (fun r d' => r = 0 ∧ Written N d ino.toNat offset block d' ∧
        leaf d' (depthOf d' ino.toNat) (rootOf d' ino.toNat) offset.toNat ≠ 0)
      (fun msg d' => msg = fullMessage ∧ L.card ≤ 5 ∧ Kept N d ino.toNat d')
      (Intact N d ino.toNat offset) d := by
  have hsize : (snapshotOf d ino.toNat).nblocks = nblocksOf d ino.toNat := rfl
  have hcheck : ¬ offset ≥ nblocksOf d ino.toNat := by
    rw [ge_iff_le, UInt32.le_iff_toNat_le]
    omega
  have hne : nblocksOf d ino.toNat ≠ 0 := by
    intro hzero
    rw [hzero] at hlt
    exact absurd hlt (Nat.not_lt_zero _)
  simp only [treediskWrite, wp_bind]
  apply wp_mono _ (h.header.wp_getSnapshot ino) _ fun _ _ he => he
  rintro r d' ⟨rfl, rfl⟩
  simp only [hi, if_true, hsize, hcheck, decide_false, hne, if_false, Bool.false_eq_true,
    Nat.sub_self, Nat.add_zero, growLevels, wp_bind, wp_pure, lt_irrefl, Bool.or_self]
  have hm : (nblocksOf d' ino.toNat).toNat =
      max (nblocksOf d' ino.toNat).toNat (offset.toNat + 1) := by omega
  apply wp_mono _ (h.wp_finish block hi (h.ready_inside hi) (fun _ _ _ hroute => hroute) hm)
  · intro _ d'' hw
    exact ⟨trivial, hw⟩
  · rintro msg _ ⟨hmsg, hcard, hkept⟩
    refine ⟨hmsg, hcard.trans ?_, hkept⟩
    rw [treeDepth_of_pos (by omega)]
    exact levels_le_five _

/-- A write at or past the end of the file, below the last offset. -/
theorem FsInv.wp_write_past (h : FsInv N d L) {ino : UInt32} (hi : ino.toNat < ninodesOf d)
    (hge : (nblocksOf d ino.toNat).toNat ≤ offset.toNat) (hoff : offset.toNat ≤ 2 ^ 32 - 2) :
    (treediskWrite ino offset block).wp (inRange N)
      (fun r d' => r = 0 ∧ Written N d ino.toNat offset block d' ∧
        leaf d' (depthOf d' ino.toNat) (rootOf d' ino.toNat) offset.toNat ≠ 0)
      (fun msg d' => msg = fullMessage ∧ L.card ≤ 10 ∧ Kept N d ino.toNat d')
      (Intact N d ino.toNat offset) d := by
  have hsize : (snapshotOf d ino.toNat).nblocks = nblocksOf d ino.toNat := rfl
  have hcheck : offset ≥ nblocksOf d ino.toNat := UInt32.le_iff_toNat_le.mpr hge
  have hadd := toNat_add_one hoff
  have hne : offset + 1 ≠ 0 := by
    intro hzero
    rw [hzero] at hadd
    exact absurd hadd (by simp)
  have hdepth := treeDepth_add_one hoff
  have hgrow : depthOf d ino.toNat ≤ levels offset := treeDepth_le_levels hge
  have hfive := levels_le_five offset
  have hm : (offset + 1).toNat = max (nblocksOf d ino.toNat).toNat (offset.toNat + 1) := by
    omega
  have hnodup := (Multiset.nodup_cons.mp (h.nodup_free_file hi)).2
  simp only [treediskWrite, wp_bind]
  apply wp_mono _ (h.header.wp_getSnapshot ino) _ fun _ _ he => he
  rintro r d' ⟨rfl, rfl⟩
  have hlevels : treeDepth (nblocksOf d' ino.toNat) +
      (levels offset - treeDepth (nblocksOf d' ino.toNat)) = levels offset := by
    rw [depthOf] at hgrow
    omega
  -- `enlarge` holds and the new size is not 0, so all three stages of the write run
  simp only [hi, if_true, hsize, hcheck, decide_true, setNblocks_nblocks, hne, if_false,
    Bool.true_or, wp_bind, wp_writeOrPanic, wp_pure, hlevels]
  have hroot : ((snapshotOf d' ino.toNat).setNblocks (offset + 1)).root = rootOf d' ino.toNat :=
    setNblocks_root _ _
  have hfree : Free d' ((snapshotOf d' ino.toNat).setNblocks (offset + 1)) L :=
    ⟨rfl, h.chain⟩
  have hvalid : ∀ x ∈ L, inRange N x = true := fun x hx => inRange_iff.mpr (h.lt_of_mem_free hx)
  apply wp_weaken _ (wp_last _ (wp_growLevels (n := depthOf d' ino.toNat)
    (levels offset - treeDepth (nblocksOf d' ino.toNat)) hfree (by rw [hroot]; exact hnodup)
    (inRange_iff.mpr h.zero_lt) hvalid) (Untouched.refl d' L))
  · rintro s d₁ ⟨⟨L₁, hg, hroutes⟩, _⟩
    rw [hroot] at hroutes
    have hturns := hlevels.trans hdepth.symm
    have hr := h.ready_grown hi hturns hg
    have hfinish := h.wp_finish block hi hr (h.keepsRoutes_grown hi hturns hg hroutes) hm
    rw [inRange_iff, hr.blockno]
    refine ⟨h.inodeBlockOf_lt hi, ?_, ?_⟩
    · -- the inode block is written: the walk is about to start
      exact h.intact_of_torn hi hr (h.keepsRoutes_grown hi hturns hg hroutes) hm
        (torn_untouched (h.ready_walkPre hi hr) (Untouched.refl _ _))
    · rw [hr.blockno, hdepth] at hfinish
      apply wp_mono _ hfinish
      · intro _ d₂ hw
        exact ⟨trivial, hw⟩
      · rintro msg _ ⟨hmsg, hcard, hkept⟩
        have htaken := hg.card
        exact ⟨hmsg, by omega, hkept⟩
  · -- the store is full before anything on disk refers to the new levels
    rintro msg d₁ ⟨⟨hmsg, hcard⟩, hu⟩
    exact ⟨hmsg, by omega, h.kept_of_untouched hi hu⟩
  · exact fun d₁ hu => h.intact_of_untouched hi hu

/-- `treedisk_write` to an inode that exists, at any offset but the last: it runs out of
    blocks, or writes the file. -/
theorem FsInv.wp_write_accepted (h : FsInv N d L) {ino : UInt32} (block : Block)
    (hi : ino.toNat < ninodesOf d) (hoff : offset.toNat ≤ 2 ^ 32 - 2) :
    (treediskWrite ino offset block).wp (inRange N)
      (fun r d' => r = 0 ∧ Written N d ino.toNat offset block d' ∧
        leaf d' (depthOf d' ino.toNat) (rootOf d' ino.toNat) offset.toNat ≠ 0)
      (fun msg d' => msg = fullMessage ∧ L.card ≤ 10 ∧ Kept N d ino.toNat d')
      (Intact N d ino.toNat offset) d := by
  rcases Nat.lt_or_ge offset.toNat (nblocksOf d ino.toNat).toNat with hlt | hge
  · apply wp_mono _ (h.wp_write_inside hi hlt) fun _ _ hq => hq
    rintro msg _ ⟨hmsg, hcard, hkept⟩
    exact ⟨hmsg, by omega, hkept⟩
  · exact h.wp_write_past hi hge hoff

/-- `treedisk_write` of any offset but the last: it fails on an inode that does not exist,
    runs out of blocks, or writes the file. -/
theorem FsInv.wp_write (h : FsInv N d L) (ino : UInt32) (block : Block)
    (hoff : offset.toNat ≤ 2 ^ 32 - 2) :
    (treediskWrite ino offset block).wp (inRange N)
      (fun r d' => if ino.toNat < ninodesOf d then r = 0 ∧ Written N d ino.toNat offset block d'
        else r = -1 ∧ d' = d)
      (fun msg _ => msg = fullMessage ∧ L.card ≤ 10) (fun _ => True) d := by
  by_cases hi : ino.toNat < ninodesOf d
  · simp only [hi, if_true]
    exact wp_weaken _ (h.wp_write_accepted block hi hoff) (fun _ _ hq => ⟨hq.1, hq.2.1⟩)
      (fun _ _ he => ⟨he.1, he.2.1⟩) fun _ _ => trivial
  · simp only [hi, if_false]
    exact h.header.wp_write_rejected offset block hi

end Ops

end Egos.TreeDisk
