import Egos.TreeDisk.Refinement

/-!
# The Tree File System: Interrupted Writes

Two results about a write that does not get to its end, on every store that was created and
then used.

- `interrupted_write_keeps_data`: wherever the write is cut off, or the store below refuses
  one of its writes, every block written earlier is read back, the one being written apart,
  and no other file changes its size.
- `full_write_keeps_data`: when the free list runs out, nothing that could be read has
  changed, holes included, and what the file has gained in size is zeros.

Both come from `FsInv.wp_write_accepted`. The first also needs that a block once written is
never in a hole again (`Linked`): `Intact` says nothing about holes, and rightly so, since a
block that has been linked but not yet written still holds its part of the free list.
-/

namespace Egos.TreeDisk

open Egos.Lib Egos.Lib.BlockProg Egos.Lib.RadixTree

variable {N : UInt32} {d d' : Store} {calls : List Call}

/-! ## Blocks once written are never in a hole -/

/-- Every offset that was written has a block of its own. -/
def Linked (calls : List Call) (d : Store) : Prop :=
  ∀ (ino : UInt32) (off : ℕ) (block : Block),
    SparseArray.lastWrite off (writesTo ino calls) = some block →
      leaf d (depthOf d ino.toNat) (rootOf d ino.toNat) off ≠ 0

/-- The files that a list of calls leaves. -/
def filesAfter (calls : List Call) : Files :=
  calls.foldl Files.next fun _ => SparseArray.empty nullBlock

/-- What was written last is in the file. -/
theorem Represents.get_of_lastWrite (h : Represents N d (filesAfter calls)) {ino : UInt32}
    {off : ℕ} {block : Block}
    (hlast : SparseArray.lastWrite off (writesTo ino calls) = some block) :
    ino.toNat < ninodesOf d ∧ off < (nblocksOf d ino.toNat).toNat ∧
      (fileOf d ino.toNat).get off = block := by
  have hfiles : filesAfter calls ino =
      (SparseArray.empty nullBlock).writeAll (writesTo ino calls) :=
    foldl_next_apply calls _ ino
  have hlt := SparseArray.lt_extent_of_lastWrite hlast
  have hsize : (filesAfter calls ino).size = SparseArray.extent (writesTo ino calls) := by
    rw [hfiles, SparseArray.size_writeAll]
    exact Nat.zero_max _
  -- nothing is ever written to an inode that does not exist
  have hi : ino.toNat < ninodesOf d := by
    by_contra hi
    rw [h.absent ino hi] at hsize
    rw [← hsize] at hlt
    exact absurd hlt (Nat.not_lt_zero off)
  have hfile := h.file ino hi
  refine ⟨hi, ?_, ?_⟩
  · show off < (fileOf d ino.toNat).size
    rw [hfile, hsize]
    exact hlt
  · rw [hfile, hfiles, SparseArray.get_writeAll, hlast]
    rfl

/-- The route to a block that was written. -/
theorem Represents.route_of_lastWrite (h : Represents N d (filesAfter calls))
    (hlinked : Linked calls d) {ino : UInt32} {off : ℕ} {block : Block}
    (hlast : SparseArray.lastWrite off (writesTo ino calls) = some block) :
    ∃ x, Route (fun y => inRange N y = true) d off (depthOf d ino.toNat) (rootOf d ino.toNat) x ∧
      d x = block := by
  obtain ⟨L, hinv⟩ := h.inv
  obtain ⟨hi, hlt, hget⟩ := h.get_of_lastWrite hlast
  have hleaf := hlinked ino off block hlast
  refine ⟨_, route_of_leaf_ne hleaf fun y hy => inRange_iff.mpr (hinv.nodes_lt ino hi y hy), ?_⟩
  have hroom : off < 128 ^ depthOf d ino.toNat := lt_of_lt_of_le hlt (le_pow_treeDepth _)
  rw [← hinv.fileBlock_eq_get hi hroom, fileBlock, if_neg hleaf] at hget
  exact hget

/-- One more write keeps the blocks of all earlier ones and links its own. -/
theorem Linked.write (h : Represents N d (filesAfter calls)) (hlinked : Linked calls d)
    {ino : UInt32} {offset : BlockNo} {block : Block} (hoff : offset.toNat ≤ 2 ^ 32 - 2)
    (hrun : (treediskWrite ino offset block).run (inRange N) d = (.returned 0, d')) :
    Linked (calls ++ [.write ino offset block]) d' := by
  obtain ⟨hi, _⟩ := h.write hoff hrun
  obtain ⟨L, hinv⟩ := h.inv
  have hwp := wp_last _ (hinv.wp_write_accepted block hi hoff)
    (hinv.intact_of_untouched hi (Untouched.refl d L))
  obtain ⟨⟨_, _, hnew⟩, hintact⟩ := post_of_wp hwp hrun
  intro j off c hlast
  rw [writesTo, List.filterMap_append] at hlast
  by_cases hj : j = ino
  · subst hj
    simp only [List.filterMap_cons, if_true, List.filterMap_nil, SparseArray.lastWrite_snoc]
      at hlast
    by_cases hoffset : offset.toNat = off
    · rw [← hoffset]
      exact hnew
    · -- the route that was there before is still there at the end of the write
      rw [if_neg hoffset] at hlast
      obtain ⟨x, hroute, _⟩ := h.route_of_lastWrite hlinked hlast
      obtain ⟨_, hlt, _⟩ := h.get_of_lastWrite hlast
      obtain ⟨hroute', _⟩ := hintact.route off hlt x hroute
      rw [hroute'.leaf_eq]
      exact ne_zero_of_mem_nodes hroute.end_mem
  · simp only [List.filterMap_cons, if_neg (Ne.symm hj), List.filterMap_nil, List.append_nil]
      at hlast
    obtain ⟨hjd, _, _⟩ := h.get_of_lastWrite hlast
    have hsame := hintact.other j.toNat hjd fun heq => hj (UInt32.toNat_inj.mp heq)
    rw [hsame.leaf_eq]
    exact hlinked j off c hlast

/-- A creation writes to no file, and formats only a store that has none. -/
theorem Linked.create (h : Represents N d (filesAfter calls)) (hlinked : Linked calls d)
    {stale : Block} {ninodes : UInt32} {r : Int}
    (hrun : (treediskCreate stale N ninodes).run (inRange N) d = (.returned r, d')) :
    Linked (calls ++ [.create stale ninodes]) d' := by
  intro ino off block hlast
  rw [writesTo, List.filterMap_append] at hlast
  simp only [List.filterMap_cons, List.filterMap_nil, List.append_nil] at hlast
  rcases create_cases hrun with rfl | ⟨hzero, _⟩
  · exact hlinked ino off block hlast
  · obtain ⟨hi, _, _⟩ := h.get_of_lastWrite hlast
    rw [ninodesOf, hzero] at hi
    exact absurd hi (Nat.not_lt_zero _)

theorem linked_of_run (h : Reached N calls d) :
    Represents N d (filesAfter calls) ∧ Linked calls d := by
  obtain ⟨d₀, d₁, stale, ninodes, hzero, hcreate, hrun⟩ := h
  have hstart : Represents N d₁ (filesAfter []) :=
    represents_of_run ⟨d₀, d₁, stale, ninodes, hzero, hcreate, .nil⟩
  refine hrun.invariant_log
    (P := fun calls d => Represents N d (filesAfter calls) ∧ Linked calls d)
    ⟨hstart, fun ino off block hlast => ?_⟩ ?_
  · cases hlast
  · rintro calls d call d' ⟨hrep, hlinked⟩ hstep
    have hrep' := hrep.step hstep
    refine ⟨?_, ?_⟩
    · rw [filesAfter, List.foldl_append]
      exact hrep'
    · cases hstep with
      | write hoff hrun => exact hlinked.write hrep hoff hrun
      | create hrun => exact hlinked.create hrep hrun

/-! ## A failed write to the store below is a panic -/

theorem stops_readOrPanic (msg : String) (b : BlockNo) : (readOrPanic msg b).StopsOnFailure := by
  rintro (_ | block)
  · trivial
  · trivial

theorem stops_writeOrPanic (msg : String) (b : BlockNo) (block : Block) :
    (writeOrPanic msg b block).StopsOnFailure :=
  ⟨⟨msg, rfl⟩, trivial⟩

theorem stops_getSnapshot (ino : UInt32) : (treediskGetSnapshot ino).StopsOnFailure := by
  rintro (_ | superblock)
  · trivial
  · show BlockProg.StopsOnFailure (ite _ _ _)
    split_ifs
    · trivial
    · rintro (_ | inodeblock)
      · trivial
      · trivial

theorem stops_alloc (s : Snapshot) : (treediskAllocBlock s).StopsOnFailure := by
  rw [treediskAllocBlock]
  split_ifs
  · trivial
  · apply stopsOnFailure_bind (stops_readOrPanic _ _)
    intro node
    dsimp only
    split_ifs
    · exact stopsOnFailure_bind (stops_writeOrPanic _ _ _) fun _ => trivial
    · exact stopsOnFailure_bind (stops_writeOrPanic _ _ _) fun _ => trivial

theorem stops_growLevels (turns : ℕ) (s : Snapshot) : (growLevels turns s).StopsOnFailure := by
  induction turns generalizing s with
  | zero => trivial
  | succ turns ih =>
    apply stopsOnFailure_bind (stops_alloc s)
    rintro ⟨indir, s'⟩
    exact stopsOnFailure_bind (stops_writeOrPanic _ _ _) fun _ => ih _

theorem stops_writeWalk (offset : BlockNo) (block : Block) (n : ℕ) (s : Snapshot)
    (parentOff : BlockNo) (parent : Block) (slot : Fin 128) :
    (treediskWriteWalk offset block n s parentOff parent slot).StopsOnFailure := by
  induction n generalizing s parentOff parent slot with
  | zero =>
    rw [treediskWriteWalk]
    split_ifs
    · apply stopsOnFailure_bind (stops_alloc s)
      rintro ⟨b, s'⟩
      exact stopsOnFailure_bind (stops_writeOrPanic _ _ _) fun _ => stops_writeOrPanic _ _ _
    · exact stops_writeOrPanic _ _ _
  | succ n ih =>
    rw [treediskWriteWalk]
    split_ifs
    · apply stopsOnFailure_bind (stops_alloc s)
      rintro ⟨b, s'⟩
      exact stopsOnFailure_bind (stops_writeOrPanic _ _ _) fun _ => ih _ _ _ _
    · exact stopsOnFailure_bind (stops_readOrPanic _ _) fun _ => ih _ _ _ _

theorem stops_write (ino : UInt32) (offset : BlockNo) (block : Block) :
    (treediskWrite ino offset block).StopsOnFailure := by
  apply stopsOnFailure_bind (stops_getSnapshot ino)
  rintro (_ | snapshot)
  · trivial
  · apply stopsOnFailure_bind (stops_growLevels _ _)
    intro s
    have hrest : ∀ (updated : Bool) (n : ℕ), (do
        if updated then
          writeOrPanic "treedisk_write: inode block" s.inodeBlockno s.inodeblock
        treediskWriteWalk offset block n s s.inodeBlockno s.inodeblock (rootWord s.inode)
        pure 0 : Disk Int).StopsOnFailure := by
      intro updated n
      have hwalk : (do
          treediskWriteWalk offset block n s s.inodeBlockno s.inodeblock (rootWord s.inode)
          pure 0 : Disk Int).StopsOnFailure :=
        stopsOnFailure_bind (stops_writeWalk offset block n _ _ _ _) fun _ => trivial
      cases updated with
      | false => exact hwalk
      | true => exact stopsOnFailure_bind (stops_writeOrPanic _ _ _) fun _ => hwalk
    exact hrest _ _

/-! ## A write that is cut off -/

/-- On the store of an interrupted write, the other files are read as before. -/
theorem Intact.read_other {L : Multiset BlockNo} (hinv : FsInv N d L) {i : UInt32}
    {offset : BlockNo} (hintact : Intact N d i.toNat offset d') {ino : UInt32} (hne : ino ≠ i)
    (hi : ino.toNat < ninodesOf d) (off : BlockNo) :
    (treediskRead ino off).run (inRange N) d' =
      (.returned ((fileOf d ino.toNat).read off.toNat), d') := by
  have hsame := hintact.other ino.toNat hi fun heq => hne (UInt32.toNat_inj.mp heq)
  have hninodes : ninodesOf d' = ninodesOf d := by
    rw [ninodesOf, ninodesOf, hintact.nInodeblocks]
  have hread := (hinv.header.congr hintact.nInodeblocks).read_run ino off (by
    intro _ x hx
    rw [hsame.fileNodes_eq] at hx
    exact hinv.nodes_lt ino hi x hx)
  rw [hread, hninodes, if_pos hi, hsame.fileOf_eq]

/-- On the store of an interrupted write, a block of its file is read along its route. -/
theorem Intact.read_route {L : Multiset BlockNo} (hinv : FsInv N d L) {i : UInt32}
    {offset : BlockNo} (hintact : Intact N d i.toNat offset d') (hi : i.toNat < ninodesOf d)
    {off : BlockNo} (hlt : off.toNat < (nblocksOf d i.toNat).toNat) (hne : off ≠ offset)
    {x : BlockNo} (hroute : Route (fun y => inRange N y = true) d off.toNat (depthOf d i.toNat)
      (rootOf d i.toNat) x) :
    (treediskRead i off).run (inRange N) d' = (.returned (some (d x)), d') := by
  obtain ⟨hroute', hdata⟩ := hintact.route off.toNat hlt x hroute
  have hi' : i.toNat < ninodesOf d' := by
    rw [ninodesOf, hintact.nInodeblocks]
    exact hi
  have hwp := (hinv.header.congr hintact.nInodeblocks).wp_read_inside hi'
    (lt_of_lt_of_le hlt hintact.size) (wp_readWalk_route (E := fun _ _ => False) hroute')
  obtain ⟨r, d'', hrun, rfl, rfl⟩ := returns_of_wp hwp
  rw [hrun, hdata fun heq => hne (UInt32.toNat_inj.mp heq)]

/-- What an interrupted write leaves intact. -/
theorem intact_storeAfter {L : Multiset BlockNo} (hinv : FsInv N d L) {i : UInt32}
    (hi : i.toNat < ninodesOf d) {offset : BlockNo} (hoff : offset.toNat ≤ 2 ^ 32 - 2)
    (block : Block) (k : ℕ) :
    Intact N d i.toNat offset ((treediskWrite i offset block).storeAfter (inRange N) k d) :=
  storeAfter_of_wp (hinv.wp_write_accepted block hi hoff)
    (hinv.intact_of_untouched hi (Untouched.refl d L)) k

/-- A write to an inode that does not exist issues no write. -/
theorem Header.storeAfter_rejected (h : Header N d) {i : UInt32} (hi : ¬ i.toNat < ninodesOf d)
    (offset : BlockNo) (block : Block) (k : ℕ) :
    (treediskWrite i offset block).storeAfter (inRange N) k d = d :=
  storeAfter_of_wp (I := fun d' => d' = d)
    (h.wp_write_rejected (E := fun _ _ => True) offset block hi) rfl k

/-- An interrupted write never damages existing data. On every store that was created and
    then used, cut off a write at any point of its sequence of writes to the store below:
    every block written before, at another offset or in another file, is read back, and the
    other files have the sizes they had. The same store is left when the store below refuses
    the next write, which is a panic. -/
theorem interrupted_write_keeps_data (h : Reached N calls d) (i : UInt32) {offset : BlockNo}
    (hoff : offset.toNat ≤ 2 ^ 32 - 2) (block : Block) (k : ℕ)
    (hcut : d' = (treediskWrite i offset block).storeAfter (inRange N) k d) :
    (∀ (ino : UInt32) (off : BlockNo) (written : Block), (ino, off) ≠ (i, offset) →
      SparseArray.lastWrite off.toNat (writesTo ino calls) = some written →
        (treediskRead ino off).run (inRange N) d' = (.returned (some written), d')) ∧
    (∀ ino ≠ i, (treediskGetsize ino).run (inRange N) d' =
      (((treediskGetsize ino).run (inRange N) d).1, d')) ∧
    (k < ((treediskWrite i offset block).writeLog (inRange N) d).length →
      ∃ msg, (treediskWrite i offset block).runFailing (inRange N) k d = (.halted msg, d')) := by
  obtain ⟨hrep, hlinked⟩ := linked_of_run h
  obtain ⟨L, hinv⟩ := hrep.inv
  have hfail : k < ((treediskWrite i offset block).writeLog (inRange N) d).length →
      ∃ msg, (treediskWrite i offset block).runFailing (inRange N) k d = (.halted msg, d') := by
    rw [hcut]
    exact runFailing_eq_storeAfter (stops_write i offset block)
  have hbefore : ∀ (ino : UInt32) (off : BlockNo) (written : Block),
      SparseArray.lastWrite off.toNat (writesTo ino calls) = some written →
        ino.toNat < ninodesOf d ∧
          (fileOf d ino.toNat).read off.toNat = some written := by
    intro ino off written hlast
    obtain ⟨hi, hlt, hget⟩ := hrep.get_of_lastWrite hlast
    exact ⟨hi, by rw [← hget]; exact if_pos hlt⟩
  by_cases hi : i.toNat < ninodesOf d
  · have hintact := intact_storeAfter hinv hi hoff block k
    rw [← hcut] at hintact
    refine ⟨fun ino off written hne hlast => ?_, fun ino hne => ?_, hfail⟩
    · obtain ⟨hino, hread⟩ := hbefore ino off written hlast
      by_cases hini : ino = i
      · -- another offset of the same file: its block is still on its path
        subst hini
        obtain ⟨x, hroute, rfl⟩ := hrep.route_of_lastWrite hlinked hlast
        obtain ⟨_, hlt, _⟩ := hrep.get_of_lastWrite hlast
        exact hintact.read_route hinv hi hlt (fun heq => hne (by rw [heq])) hroute
      · rw [hintact.read_other hinv hini hino, hread]
    · have hheader := hinv.header.congr hintact.nInodeblocks
      have hninodes : ninodesOf d' = ninodesOf d := by
        rw [ninodesOf, ninodesOf, hintact.nInodeblocks]
      rw [hheader.getsize_run, hinv.header.getsize_run, hninodes]
      split_ifs with hino
      · rw [(hintact.other ino.toNat hino fun heq => hne (UInt32.toNat_inj.mp heq)).nblocks]
      · rfl
  · -- without an inode there is no write to cut off
    rw [hinv.header.storeAfter_rejected hi] at hcut
    subst hcut
    refine ⟨fun ino off written _ hlast => ?_, fun ino _ => ?_, hfail⟩
    · obtain ⟨hino, hread⟩ := hbefore ino off written hlast
      rw [read_run hinv, if_pos hino, hread]
    · rw [hinv.header.getsize_run]

/-- A write to offset 200 of the file with one block at offset 3, cut off after five writes:
    an indirect block has been linked and still holds its part of the free list. -/
theorem interrupted_write_usedStore :
    Reached 10 [.write 0 3 fun _ => 7] usedStore ∧
      (treediskRead 0 3).run (inRange 10)
        ((treediskWrite 0 200 nullBlock).storeAfter (inRange 10) 5 usedStore) =
          (.returned (some fun _ => 7),
            (treediskWrite 0 200 nullBlock).storeAfter (inRange 10) 5 usedStore) := by
  have hoff : UInt32.toNat 200 ≤ 2 ^ 32 - 2 := by decide
  have hmain := interrupted_write_keeps_data reached_usedStore 0 hoff nullBlock 5 rfl
  exact ⟨reached_usedStore, hmain.1 0 3 _ (by decide) rfl⟩

/-! ## A write that runs out of blocks -/

/-- On a full store, the other files are read as before. -/
theorem Kept.read_eq {L : Multiset BlockNo} (hinv : FsInv N d L) {i : UInt32}
    (hkept : Kept N d i.toNat d') {ino : UInt32} (hi : ino.toNat < ninodesOf d)
    {off : BlockNo} (hlt : off.toNat < (nblocksOf d' ino.toNat).toNat) :
    (treediskRead ino off).run (inRange N) d' =
      (.returned (some ((fileOf d ino.toNat).get off.toNat)), d') := by
  have hninodes : ninodesOf d' = ninodesOf d := by
    rw [ninodesOf, ninodesOf, hkept.nInodeblocks]
  have hget : (fileOf d' ino.toNat).get off.toNat = (fileOf d ino.toNat).get off.toNat := by
    by_cases hini : ino = i
    · subst hini
      exact hkept.get off.toNat
    · rw [(hkept.other ino.toNat hi fun heq => hini (UInt32.toNat_inj.mp heq)).fileOf_eq]
  rw [(hinv.header.congr hkept.nInodeblocks).read_run ino off fun _ => hkept.nodes_lt _ hi,
    hninodes, if_pos hi, ← hget]
  exact congrArg (fun r => (Outcome.returned r, d')) (if_pos hlt)

/-- Running out of space does not change what can be read. On every store that was created
    and then used, let a write end in the panic of `treedisk_alloc_block` on an empty free
    list. Below its old size every file is read exactly as before, with zeros where nothing
    was written, and what the file has gained in size is zeros. -/
theorem full_write_keeps_data (h : Reached N calls d) {i : UInt32} {offset : BlockNo}
    (hoff : offset.toNat ≤ 2 ^ 32 - 2) {block : Block}
    (hrun : (treediskWrite i offset block).run (inRange N) d = (.halted fullMessage, d')) :
    (∀ ino : UInt32, ino.toNat < ninodesOf d →
      ∀ off : BlockNo, off.toNat < (nblocksOf d ino.toNat).toNat →
        (treediskRead ino off).run (inRange N) d' =
          (((treediskRead ino off).run (inRange N) d).1, d') ∧
        (SparseArray.lastWrite off.toNat (writesTo ino calls) = none →
          (treediskRead ino off).run (inRange N) d' = (.returned (some nullBlock), d'))) ∧
    (nblocksOf d i.toNat).toNat ≤ (nblocksOf d' i.toNat).toNat ∧
    (∀ off : BlockNo, (nblocksOf d i.toNat).toNat ≤ off.toNat →
      off.toNat < (nblocksOf d' i.toNat).toNat →
        (treediskRead i off).run (inRange N) d' = (.returned (some nullBlock), d')) := by
  obtain ⟨L, hinv⟩ := (represents_of_run h).inv
  have hi : i.toNat < ninodesOf d := by
    by_contra hi
    rw [hinv.header.write_run_rejected hi] at hrun
    cases hrun
  obtain ⟨_, _, hkept⟩ := stop_of_wp (hinv.wp_write_accepted block hi hoff) hrun
  -- no file has become shorter, so what could be read still can
  have hgrown : ∀ j < ninodesOf d, (nblocksOf d j).toNat ≤ (nblocksOf d' j).toNat := by
    intro j hj
    by_cases hji : j = i.toNat
    · rw [hji]
      exact hkept.size
    · rw [(hkept.other j hj hji).nblocks]
  refine ⟨fun ino hino off hlt => ?_, hkept.size, fun off hge hlt => ?_⟩
  · have hread := hkept.read_eq hinv hino (lt_of_lt_of_le hlt (hgrown _ hino))
    refine ⟨?_, fun hnone => ?_⟩
    · have hold : (fileOf d ino.toNat).read off.toNat =
          some ((fileOf d ino.toNat).get off.toNat) := if_pos hlt
      rw [hread, read_run hinv, if_pos hino, hold]
    · rw [hread, fileOf_of_run h hino, SparseArray.get_writeAll, hnone]
      rfl
  · rw [hkept.read_eq hinv hi hlt, (fileOf d i.toNat).beyond _ hge]

/-! A store of four blocks, two of them free. -/

/-- The blank store after `treedisk_create` for one inode on four blocks. -/
def smallStore : Store := ((treediskCreate nullBlock 4 1).run (inRange 4) blankStore).2

/-- The same after a write of sevens at offset 0. -/
def smallUsedStore : Store := ((treediskWrite 0 0 fun _ => 7).run (inRange 4) smallStore).2

/-- The same after a write at offset 1, for which two blocks are needed. -/
def smallFullStore : Store := ((treediskWrite 0 1 fun _ => 9).run (inRange 4) smallUsedStore).2

theorem smallStore_runs :
    (((treediskCreate nullBlock 4 1).run (inRange 4) blankStore).1 = .returned 0 ∧
      ((treediskWrite 0 0 fun _ => 7).run (inRange 4) smallStore).1 = .returned 0 ∧
      ((treediskWrite 0 1 fun _ => 9).run (inRange 4) smallUsedStore).1 = .halted fullMessage) ∧
    UInt32.toNat 0 < ninodesOf smallUsedStore ∧
    (nblocksOf smallUsedStore (UInt32.toNat 0)).toNat = 1 ∧
    (nblocksOf smallFullStore (UInt32.toNat 0)).toNat = 2 := by
  decide +kernel

/-- The panic comes in the walk: the file has its new size, and a root with the old block
    below it and nothing else. -/
theorem full_write_smallStore :
    (treediskWrite 0 1 fun _ => 9).run (inRange 4) smallUsedStore =
        (.halted fullMessage, smallFullStore) ∧
      (treediskRead 0 0).run (inRange 4) smallFullStore =
        (((treediskRead 0 0).run (inRange 4) smallUsedStore).1, smallFullStore) ∧
      (treediskRead 0 1).run (inRange 4) smallFullStore =
        (.returned (some nullBlock), smallFullStore) := by
  obtain ⟨⟨hcreate, hwrite, hfull⟩, hi, hsize, hgrown⟩ := smallStore_runs
  have hreached : Reached 4 [.write 0 0 fun _ => 7] smallUsedStore :=
    ⟨blankStore, smallStore, nullBlock, 1, rfl, run_eq_of_outcome _ hcreate,
      .snoc .nil (.write (by decide) (run_eq_of_outcome _ hwrite))⟩
  have hrun : (treediskWrite 0 1 fun _ => 9).run (inRange 4) smallUsedStore =
      (.halted fullMessage, smallFullStore) := run_eq_of_outcome _ hfull
  have hoff : UInt32.toNat 1 ≤ 2 ^ 32 - 2 := by decide
  have hmain := full_write_keeps_data hreached hoff hrun
  refine ⟨hrun, (hmain.1 0 hi 0 ?_).1, hmain.2.2 1 ?_ ?_⟩
  · rw [hsize]
    decide
  · rw [hsize]
    decide
  · rw [hgrown]
    decide

end Egos.TreeDisk
