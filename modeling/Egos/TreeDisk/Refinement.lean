import Egos.Lib.Transition
import Egos.TreeDisk.Create

/-!
# The Tree File System: Refinement

To its clients the file system is a map from inode numbers to sparse arrays of blocks
(`Files`). `Represents N d m` relates a store to such a map; `represents_format` and
`Represents.step` show that creation establishes it and that every further call follows
the map, and `represents_of_run` is the same for whole runs.

The last section reads the map back in terms of the calls alone: the last write to an
offset, and the largest offset written.
-/

namespace Egos.TreeDisk

open Egos.Lib Egos.Lib.BlockProg Finset

/-! ## Calls and runs -/

/-- The calls that can change the store. -/
inductive Call where
  | write (ino : UInt32) (offset : BlockNo) (block : Block)
  /-- `stale` is what the stack of this call holds. -/
  | create (stale : Block) (ninodes : UInt32)

/-- One call on a store of `N` blocks: a write that returns 0, at any offset but the last,
    or a creation, whatever it returns. -/
inductive Step (N : UInt32) (d : Store) : Call → Store → Prop where
  | write {ino : UInt32} {offset : BlockNo} {block : Block} {d' : Store}
      (hoff : offset.toNat ≤ 2 ^ 32 - 2)
      (hrun : (treediskWrite ino offset block).run (inRange N) d = (.returned 0, d')) :
      Step N d (.write ino offset block) d'
  | create {stale : Block} {ninodes : UInt32} {r : Int} {d' : Store}
      (hrun : (treediskCreate stale N ninodes).run (inRange N) d = (.returned r, d')) :
      Step N d (.create stale ninodes) d'

/-- A store of `N` blocks without a superblock on which `treedisk_create` has returned 0,
    and the calls since then. -/
def Reached (N : UInt32) (calls : List Call) (d : Store) : Prop :=
  ∃ (d₀ d₁ : Store) (stale : Block) (ninodes : UInt32),
    (d₀ 0).nInodeblocks = 0 ∧
      (treediskCreate stale N ninodes).run (inRange N) d₀ = (.returned 0, d₁) ∧
      Run (Step N) d₁ calls d

/-! ## The abstract file system -/

/-- What the file system is for: a sparse array of blocks for each inode number. -/
abbrev Files := UInt32 → SparseArray nullBlock

/-- A call as the client sees it. -/
def Files.next (m : Files) : Call → Files
  | .write ino offset block => Function.update m ino ((m ino).write offset.toNat block)
  | .create _ _ => m

/-- The store `d` holds the files `m`. -/
structure Represents (N : UInt32) (d : Store) (m : Files) : Prop where
  inv : ∃ L, FsInv N d L
  file : ∀ ino : UInt32, ino.toNat < ninodesOf d → fileOf d ino.toNat = m ino
  /-- Nothing was ever written to an inode that does not exist. -/
  absent : ∀ ino : UInt32, ¬ ino.toNat < ninodesOf d → m ino = SparseArray.empty nullBlock

variable {N : UInt32} {d d' : Store} {m : Files} {L : Multiset BlockNo}

/-- A formatted store holds no data. -/
theorem represents_format {n : BlockNo} (h : Formatted N n d) :
    Represents N d fun _ => SparseArray.empty nullBlock :=
  ⟨⟨_, h.fsInv⟩, fun _ hi => h.fileOf_eq hi, fun _ _ => rfl⟩

theorem Represents.write (h : Represents N d m) {ino : UInt32} {offset : BlockNo} {block : Block}
    (hoff : offset.toNat ≤ 2 ^ 32 - 2)
    (hrun : (treediskWrite ino offset block).run (inRange N) d = (.returned 0, d')) :
    ino.toNat < ninodesOf d ∧ Written N d ino.toNat offset block d' := by
  obtain ⟨L, hinv⟩ := h.inv
  have hpost := post_of_wp (hinv.wp_write ino block hoff) hrun
  split_ifs at hpost with hi
  · exact ⟨hi, hpost.2⟩
  · exact absurd hpost.1 (by decide)

/-- A creation changes nothing, or formats a store that has no inodes. -/
theorem create_cases {stale : Block} {ninodes : UInt32} {r : Int}
    (hrun : (treediskCreate stale N ninodes).run (inRange N) d = (.returned r, d')) :
    d' = d ∨ (d 0).nInodeblocks = 0 ∧ ∃ n, Formatted N n d' := by
  by_cases hzero : (d 0).nInodeblocks = 0
  · rcases post_of_wp (wp_create_fresh (E := fun _ _ => True) stale ninodes hzero) hrun with
      ⟨_, hsame⟩ | ⟨_, hformat⟩
    · exact Or.inl hsame
    · exact Or.inr ⟨hzero, _, hformat⟩
  · obtain ⟨_, hsame⟩ :=
      post_of_wp (wp_create_again (E := fun _ _ => True) stale ninodes hzero) hrun
    exact Or.inl hsame

/-- A creation on a store that has inodes changes nothing; on one without, it may only
    make room for empty files. -/
theorem Represents.create (h : Represents N d m) {stale : Block} {ninodes : UInt32} {r : Int}
    (hrun : (treediskCreate stale N ninodes).run (inRange N) d = (.returned r, d')) :
    Represents N d' m := by
  rcases create_cases hrun with rfl | ⟨hzero, n, hformat⟩
  · exact h
  · have hnone : ∀ ino, m ino = SparseArray.empty nullBlock := by
      intro ino
      apply h.absent
      rw [ninodesOf, hzero]
      exact Nat.not_lt_zero _
    rw [funext hnone]
    exact represents_format hformat

/-- Every call follows the map. -/
theorem Represents.step (h : Represents N d m) {call : Call} (hstep : Step N d call d') :
    Represents N d' (m.next call) := by
  cases hstep with
  | create hrun => exact h.create hrun
  | @write ino offset block _ hoff hrun =>
    obtain ⟨hi, hw⟩ := h.write hoff hrun
    have hninodes : ninodesOf d' = ninodesOf d := by rw [ninodesOf, ninodesOf, hw.nInodeblocks]
    refine ⟨hw.inv, ?_, ?_⟩
    · intro j hj
      rw [hninodes] at hj
      rw [Files.next, Function.update_apply]
      split_ifs with hji
      · rw [hji, hw.file, h.file ino hi]
      · rw [hw.other _ hj fun heq => hji (UInt32.toNat_inj.mp heq), h.file j hj]
    · intro j hj
      rw [hninodes] at hj
      have hji : j ≠ ino := by
        rintro rfl
        exact hj hi
      rw [Files.next, Function.update_of_ne hji]
      exact h.absent j hj

/-- A store that was created and then used holds the files its calls left. -/
theorem represents_of_run {calls : List Call} (h : Reached N calls d) :
    Represents N d (calls.foldl Files.next fun _ => SparseArray.empty nullBlock) := by
  obtain ⟨d₀, d₁, stale, ninodes, hzero, hcreate, hrun⟩ := h
  have hstart : Represents N d₁ fun _ => SparseArray.empty nullBlock := by
    rcases post_of_wp (wp_create_fresh (E := fun _ _ => True) stale ninodes hzero) hcreate with
      ⟨hr, _⟩ | ⟨_, hformat⟩
    · exact absurd hr (by decide)
    · exact represents_format hformat
  exact hrun.simulate hstart fun _ _ _ _ hR hstep => hR.step hstep

/-! ## What the calls left -/

/-- The writes to inode `ino`, in order. -/
def writesTo (ino : UInt32) (calls : List Call) : List (ℕ × Block) :=
  calls.filterMap fun call => match call with
    | .write j offset block => if j = ino then some (offset.toNat, block) else none
    | .create _ _ => none

/-- The file of an inode depends on the writes to it alone. -/
theorem foldl_next_apply (calls : List Call) (m : Files) (ino : UInt32) :
    calls.foldl Files.next m ino = (m ino).writeAll (writesTo ino calls) := by
  induction calls generalizing m with
  | nil => rfl
  | cons call calls ih =>
    rw [List.foldl_cons, ih]
    cases call with
    | create stale ninodes => rfl
    | write j offset block =>
      by_cases hj : j = ino
      · subst hj
        simp [Files.next, writesTo, SparseArray.writeAll]
      · simp [Files.next, writesTo, hj, Function.update_of_ne (Ne.symm hj)]

/-- The file of an existing inode, in terms of the calls. -/
theorem fileOf_of_run {calls : List Call} (h : Reached N calls d) {ino : UInt32}
    (hi : ino.toNat < ninodesOf d) :
    fileOf d ino.toNat = (SparseArray.empty nullBlock).writeAll (writesTo ino calls) := by
  rw [(represents_of_run h).file ino hi, foldl_next_apply]

section Results

variable {calls : List Call}

theorem Header.read_run (h : Header N d) (ino : UInt32) (off : BlockNo)
    (hnodes : ino.toNat < ninodesOf d → ∀ x ∈ fileNodes d ino.toNat, x < N) :
    (treediskRead ino off).run (inRange N) d =
      (.returned (if ino.toNat < ninodesOf d then (fileOf d ino.toNat).read off.toNat else none),
        d) := by
  obtain ⟨r, d', hrun, rfl, rfl⟩ := returns_of_wp (h.wp_read ino off hnodes)
  exact hrun

theorem read_run (h : FsInv N d L) (ino : UInt32) (off : BlockNo) :
    (treediskRead ino off).run (inRange N) d =
      (.returned (if ino.toNat < ninodesOf d then (fileOf d ino.toNat).read off.toNat else none),
        d) :=
  h.header.read_run ino off (h.nodes_lt ino)

theorem Header.getsize_run (h : Header N d) (ino : UInt32) :
    (treediskGetsize ino).run (inRange N) d =
      (.returned (if ino.toNat < ninodesOf d then toInt (nblocksOf d ino.toNat) else -1), d) := by
  obtain ⟨r, d', hrun, rfl, rfl⟩ := returns_of_wp (h.wp_getsize ino)
  exact hrun

theorem Header.write_run_rejected (h : Header N d) {ino : UInt32}
    (hi : ¬ ino.toNat < ninodesOf d) (off : BlockNo) (block : Block) :
    (treediskWrite ino off block).run (inRange N) d = (.returned (-1), d) := by
  obtain ⟨r, d', hrun, rfl, rfl⟩ :=
    returns_of_wp (h.wp_write_rejected (I := fun _ => True) off block hi)
  exact hrun

/-- The file system is a map of sparse arrays. In every store that was created and then
    used, an inode that exists has the size and the contents its writes gave it, and calls
    on an inode that does not exist fail and change nothing. -/
theorem treedisk_refines_files (h : Reached N calls d) (ino : UInt32) :
    (ino.toNat < ninodesOf d →
      (nblocksOf d ino.toNat).toNat = SparseArray.extent (writesTo ino calls) ∧
      (treediskGetsize ino).run (inRange N) d =
        (.returned (toInt (nblocksOf d ino.toNat)), d) ∧
      ∀ off : BlockNo,
        (∀ block, SparseArray.lastWrite off.toNat (writesTo ino calls) = some block →
          (treediskRead ino off).run (inRange N) d = (.returned (some block), d)) ∧
        (SparseArray.lastWrite off.toNat (writesTo ino calls) = none →
          off.toNat < SparseArray.extent (writesTo ino calls) →
          (treediskRead ino off).run (inRange N) d = (.returned (some nullBlock), d)) ∧
        (SparseArray.extent (writesTo ino calls) ≤ off.toNat →
          (treediskRead ino off).run (inRange N) d = (.returned none, d))) ∧
    (¬ ino.toNat < ninodesOf d →
      (treediskGetsize ino).run (inRange N) d = (.returned (-1), d) ∧
      ∀ off : BlockNo,
        (treediskRead ino off).run (inRange N) d = (.returned none, d) ∧
        ∀ block, (treediskWrite ino off block).run (inRange N) d = (.returned (-1), d)) := by
  obtain ⟨L, hinv⟩ := (represents_of_run h).inv
  refine ⟨fun hi => ?_, fun hi => ?_⟩
  · have hfile := fileOf_of_run h hi
    have hread : ∀ off : BlockNo, (treediskRead ino off).run (inRange N) d =
        (.returned (if off.toNat < SparseArray.extent (writesTo ino calls)
          then some ((SparseArray.lastWrite off.toNat (writesTo ino calls)).getD nullBlock)
          else none), d) := by
      intro off
      rw [read_run hinv, if_pos hi, hfile, SparseArray.read_writeAll_empty]
    refine ⟨?_, ?_, fun off => ⟨fun block hlast => ?_, fun hlast hlt => ?_, fun hge => ?_⟩⟩
    · have hsize := congrArg SparseArray.size hfile
      rw [SparseArray.size_writeAll] at hsize
      simpa [fileOf, SparseArray.empty] using hsize
    · rw [hinv.header.getsize_run, if_pos hi]
    · rw [hread, if_pos (SparseArray.lt_extent_of_lastWrite hlast), hlast]
      rfl
    · rw [hread, if_pos hlt, hlast]
      rfl
    · rw [hread, if_neg (not_lt.mpr hge)]
  · refine ⟨?_, fun off => ⟨?_, fun block => hinv.header.write_run_rejected hi off block⟩⟩
    · rw [hinv.header.getsize_run, if_neg hi]
    · rw [read_run hinv, if_neg hi]

/-! A store of ten blocks and one write to it. -/

/-- A store without a superblock. -/
def blankStore : Store := fun _ => nullBlock

/-- The blank store after `treedisk_create` for one inode. -/
def createdStore : Store := ((treediskCreate nullBlock 10 1).run (inRange 10) blankStore).2

theorem create_createdStore : (treediskCreate nullBlock 10 1).run (inRange 10) blankStore =
    (.returned 0, createdStore) := by
  rw [createdStore]
  exact run_eq_of_outcome _ (by decide +kernel)

/-- The created store after a write of sevens at offset 3 of inode 0. -/
def usedStore : Store := ((treediskWrite 0 3 fun _ => 7).run (inRange 10) createdStore).2

theorem reached_usedStore : Reached 10 [.write 0 3 fun _ => 7] usedStore := by
  have hwrite : (treediskWrite 0 3 fun _ => 7).run (inRange 10) createdStore =
      (.returned 0, usedStore) := by
    rw [usedStore]
    exact run_eq_of_outcome _ (by decide +kernel)
  exact ⟨blankStore, createdStore, nullBlock, 1, rfl, create_createdStore,
    .snoc .nil (.write (by decide) hwrite)⟩

theorem treedisk_refines_files_usedStore :
    Reached 10 [.write 0 3 fun _ => 7] usedStore ∧
      (treediskRead 0 3).run (inRange 10) usedStore = (.returned (some fun _ => 7), usedStore) := by
  have hi : UInt32.toNat 0 < ninodesOf usedStore := by decide +kernel
  obtain ⟨_, _, hread⟩ := (treedisk_refines_files reached_usedStore 0).1 hi
  exact ⟨reached_usedStore, (hread 3).1 _ rfl⟩

end Results

end Egos.TreeDisk
