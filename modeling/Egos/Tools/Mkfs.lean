import Egos.Apps.FileServer
import Egos.Lib.CString
import Egos.TreeDisk.Space

/-!
# Making the Disk Image

`tools/mkfs.c` makes the image of the disk: the kernel and the system servers in the first 2 MB,
and behind them a file system with some directories and the applications.

- `mkfs` is the part of `main` that fills the file system, as a program over the ramdisk.
- `Filled calls d` is what its writes keep: the store is the one that the calls so far leave, and
  they fit.
- `mkfs_outcome` says exactly when the image can be made.

## Reading guide

- `inode` is the buffer of 2 MB that is never cleared: an application leaves its bytes there, and
  the last block of the next one is filled up with them.
- `bin_dir` is the text without the zero behind it. The last write takes 512 bytes of this array
  of 256; the other bytes are whatever is behind the array, the parameter `behind`.
- `InBuffers` says that no array is written past its end; nothing is said of `mkfs` otherwise.
- The results of `filesys->write` are not looked at.
-/

namespace Egos.Tools

open Egos.Lib Egos.Lib.BlockProg Egos.Earth Egos.TreeDisk Finset
open Egos.Apps (DirEntry dirText)

/-! ## The code -/

/-- The bytes of a string literal. -/
def ascii (s : String) : List UInt8 := s.toList.map fun c => UInt8.ofNat c.toNat

/-- `contents`, but for `bin_dir` -/
def contents : List (List UInt8) :=
  [ascii "./   0 ../   0 home/   1 bin/   6 ",
   ascii "./   1 ../   0 cs6640/   2 ta/    3 fs/       4 ",
   ascii "./   2 ../   1 README   5 ",
   ascii "./   3 ../   1 ",
   ascii "./   4 ../   1 ",
   ascii "Welcome to CS6640 labs. \nThis OS is tailored from egos-2000 (https://github.com/yhzhang0128/egos-2000).\n"]

/-- `BIN_DIR_INODE` -/
def binDirInode : UInt32 := 6

/-- The bytes of an array, and of what is behind it. -/
abbrev Memory := Nat → UInt8

/-- The `block_t` at an address. -/
def blockAt (mem : Memory) (a : Nat) : TreeDisk.Block := toWords fun n => mem (a + n.val)

/-- `load_file(name, mem + dst)`, with the bytes of the file. -/
def loadFile (mem : Memory) (dst : Nat) (content : List UInt8) : Memory := fun a =>
  if dst ≤ a ∧ a < dst + content.length then content.getD (a - dst) 0 else mem a

/-- What `readdir` returns, with the bytes of the file. -/
structure Dirent where
  name : List UInt8
  content : List UInt8
  deriving DecidableEq

/-- `strstr(ep->d_name, ".elf")` -/
def Dirent.isElf (ep : Dirent) : Bool := ep.name.tails.any (ascii ".elf").isPrefixOf

/-- `ep->d_name[strlen(ep->d_name) - 4] = 0` -/
def Dirent.appName (ep : Dirent) : List UInt8 := ep.name.take (ep.name.length - 4)

/-- The number of turns of the loop with `b * BLOCK_SIZE < file_size`. -/
def Dirent.nblocks (ep : Dirent) : Nat := (ep.content.length + 511) / 512

/-- The loop over inode `0` to `BIN_DIR_INODE - 1`. -/
def writeContents : List (List UInt8) → UInt32 → Memory → Disk Memory
  | [], _, inode => pure inode
  | text :: texts, ino, inode => do
      let inode := strncpy inode 0 text 512
      let _ ← treediskWrite ino 0 (blockAt inode 0)
      writeContents texts (ino + 1) inode

/-- The loop over the blocks of an application, with `turns` turns to go. -/
def writeApp (appIno : UInt32) (inode : Memory) : Nat → BlockNo → Disk Unit
  | 0, _ => pure ()
  | turns + 1, b => do
      let _ ← treediskWrite appIno b (blockAt inode (b * 512).toNat)
      writeApp appIno inode turns (b + 1)

/-- The loop over the directory of applications. -/
def writeApps : List Dirent → UInt32 → Memory → List UInt8 → Disk (List UInt8)
  | [], _, _, binDir => pure binDir
  | ep :: eps, appIno, inode, binDir =>
      if ep.isElf then do
        let inode := loadFile inode 0 ep.content
        writeApp appIno inode ep.nblocks 0
        writeApps eps (appIno + 1) inode (binDir ++ DirEntry.text ⟨ep.appName, appIno.toNat⟩)
      else writeApps eps appIno inode binDir

/-- `bin_dir` and what is behind it. -/
def binDirMemory (binDir : List UInt8) (behind : Memory) : Memory := fun a =>
  if a < 256 then binDir.getD a 0 else behind a

/-- `main`, from `treedisk_create` to the last `filesys->write`; `stale` is what the stack of
    `treedisk_create` holds. -/
def mkfs (stale : TreeDisk.Block) (behind : Memory) (dp : List Dirent) : Disk Unit := do
  let r ← treediskCreate stale 4096 128
  if r < 0 then TreeDisk.panic "treedisk_create(&ramdisk, 0, NINODES) >= 0"
  else
    let inode ← writeContents contents 0 fun _ => 0
    let binDir ← writeApps dp (binDirInode + 1) inode (ascii "./   6 ../   0 ")
    let _ ← treediskWrite binDirInode 0 (blockAt (binDirMemory binDir behind) 0)
    pure ()

/-! ## The calls -/

/-- The writes of an application, from block `b` on. -/
def appCalls (appIno : UInt32) (inode : Memory) (b turns : Nat) : List Call :=
  (List.range' b turns).map fun b => .write appIno (UInt32.ofNat b) (blockAt inode (512 * b))

/-- The writes of the applications, from inode `ino` on. -/
def appsCalls : List Dirent → Nat → Memory → List Call
  | [], _, _ => []
  | ep :: eps, ino, inode =>
      appCalls (UInt32.ofNat ino) (loadFile inode 0 ep.content) 0 ep.nblocks ++
        appsCalls eps (ino + 1) (loadFile inode 0 ep.content)

/-- The writes of the first directories. -/
def contentsCalls : List (List UInt8) → Nat → Memory → List Call
  | [], _, _ => []
  | text :: texts, ino, inode =>
      .write (UInt32.ofNat ino) 0 (blockAt (strncpy inode 0 text 512) 0) ::
        contentsCalls texts (ino + 1) (strncpy inode 0 text 512)

/-- The entries of the applications in the directory. -/
def appEntries : List Dirent → Nat → List DirEntry
  | [], _ => []
  | ep :: eps, ino => ⟨ep.appName, ino⟩ :: appEntries eps (ino + 1)

/-- The entries of `bin_dir`. -/
def binEntries (apps : List Dirent) : List DirEntry :=
  [⟨[46, 47], 6⟩, ⟨[46, 46, 47], 0⟩] ++ appEntries apps 7

/-- The buffer before the first application is loaded. -/
def inodeBefore : Memory := contents.foldl (fun inode text => strncpy inode 0 text 512) fun _ => 0

/-- The arrays of `mkfs` are large enough for what it copies there. -/
structure InBuffers (apps : List Dirent) : Prop where
  inode : ∀ ep ∈ apps, ep.content.length ≤ size2MB
  binDir : (dirText (binEntries apps)).length < 256

/-- All writes of `mkfs`. -/
def allCalls (behind : Memory) (apps : List Dirent) : List Call :=
  contentsCalls contents 0 (fun _ => 0) ++ appsCalls apps 7 inodeBefore ++
    [.write binDirInode 0 (blockAt (binDirMemory (dirText (binEntries apps)) behind) 0)]

/-! ## Running them -/

/-- The store that the calls leave on a ramdisk of 4096 blocks with 128 inodes. -/
structure Filled (calls : List Call) (d : Store) : Prop where
  reached : Reached 4096 calls d
  nInodeblocks : (d 0).nInodeblocks = 2
  fits : spaceOf 2 calls ≤ 4096

/-- The ramdisk has no room for what the calls write. -/
def Overfull (calls : List Call) (msg : String) : Prop := msg = fullMessage ∧ 4096 < spaceOf 2 calls

variable {calls calls' : List Call} {d : Store} {I : Store → Prop}

theorem Overfull.append {msg : String} (h : Overfull calls msg) (calls' : List Call) :
    Overfull (calls ++ calls') msg :=
  ⟨h.1, lt_of_lt_of_le h.2 (spaceOf_mono 2 calls calls')⟩

theorem Filled.ninodes (h : Filled calls d) : ninodesOf d = 128 := by
  rw [ninodesOf, h.nInodeblocks]
  rfl

theorem Filled.wp_write (h : Filled calls d) {ino : UInt32} {offset : BlockNo}
    (block : TreeDisk.Block) (hi : ino.toNat < 128) (hoff : offset.toNat ≤ 2 ^ 32 - 2) :
    (treediskWrite ino offset block).wp (inRange 4096)
      (fun _ d' => Filled (calls ++ [.write ino offset block]) d')
      (fun msg _ => Overfull (calls ++ [.write ino offset block]) msg) (fun _ => True) d := by
  have hwrite := h.reached.wp_write block (by rwa [h.ninodes]) hoff
  rw [h.nInodeblocks] at hwrite
  apply wp_mono _ hwrite
  · rintro _ d' ⟨_, hreached, hsame, hfits⟩
    exact ⟨hreached, hsame, hfits⟩
  · exact fun _ _ hfull => hfull

theorem toNat_word {n : Nat} (h : n < 2 ^ 32) : (UInt32.ofNat n).toNat = n :=
  UInt32.toNat_ofNat_of_lt h

theorem word_add_one (n : Nat) : UInt32.ofNat n + 1 = UInt32.ofNat (n + 1) :=
  (UInt32.ofNat_add n 1).symm

theorem Filled.wp_writeContents (h : Filled calls d) (texts : List (List UInt8)) (ino : Nat)
    (inode : Memory) (hi : ino + texts.length ≤ 128) :
    (writeContents texts (UInt32.ofNat ino) inode).wp (inRange 4096)
      (fun inode' d' => inode' = texts.foldl (fun inode text => strncpy inode 0 text 512) inode ∧
        Filled (calls ++ contentsCalls texts ino inode) d')
      (fun msg _ => Overfull (calls ++ contentsCalls texts ino inode) msg) (fun _ => True) d := by
  induction texts generalizing calls d ino inode with
  | nil =>
    rw [contentsCalls, List.append_nil]
    exact ⟨rfl, h⟩
  | cons text texts ih =>
    rw [List.length_cons] at hi
    rw [writeContents, wp_bind, contentsCalls, List.append_cons, word_add_one]
    apply wp_mono _ (h.wp_write _ (by rw [toNat_word (by omega)]; omega) (by decide))
    · exact fun _ d' hfilled => ih hfilled _ _ (by omega)
    · exact fun _ _ hfull => hfull.append _

theorem Filled.wp_writeApp (h : Filled calls d) {ino : UInt32} (hi : ino.toNat < 128)
    (inode : Memory) (turns b : Nat) (hb : b + turns ≤ 4096) :
    (writeApp ino inode turns (UInt32.ofNat b)).wp (inRange 4096)
      (fun _ d' => Filled (calls ++ appCalls ino inode b turns) d')
      (fun msg _ => Overfull (calls ++ appCalls ino inode b turns) msg) (fun _ => True) d := by
  induction turns generalizing calls d b with
  | zero =>
    rw [appCalls, List.range'_zero, List.map_nil, List.append_nil]
    exact h
  | succ turns ih =>
    have hword := toNat_word (show b < 2 ^ 32 by omega)
    have haddr : (UInt32.ofNat b * 512).toNat = 512 * b := by
      rw [UInt32.toNat_mul, hword, Nat.mul_comm]
      exact Nat.mod_eq_of_lt (show 512 * b < 2 ^ 32 by omega)
    have hcalls : appCalls ino inode b (turns + 1) =
        .write ino (UInt32.ofNat b) (blockAt inode (512 * b)) :: appCalls ino inode (b + 1) turns := by
      rw [appCalls, List.range'_succ, List.map_cons]
      rfl
    rw [writeApp, wp_bind, hcalls, List.append_cons, word_add_one, haddr]
    apply wp_mono _ (h.wp_write _ hi (by rw [hword]; omega))
    · exact fun _ d' hfilled => ih hfilled _ (by omega)
    · exact fun _ _ hfull => hfull.append _

/-- Files that are not applications are passed over. -/
theorem writeApps_filter (dp : List Dirent) (ino : UInt32) (inode : Memory) (binDir : List UInt8) :
    writeApps dp ino inode binDir = writeApps (dp.filter Dirent.isElf) ino inode binDir := by
  induction dp generalizing ino inode binDir with
  | nil => rfl
  | cons ep dp ih =>
    rw [writeApps]
    by_cases helf : ep.isElf = true
    · rw [if_pos helf, List.filter_cons_of_pos helf, writeApps, if_pos helf]
      simp only [ih]
    · rw [if_neg helf, List.filter_cons_of_neg helf, ih]

theorem Filled.wp_writeApps (h : Filled calls d) (apps : List Dirent) (ino : Nat) (inode : Memory)
    (binDir : List UInt8) (helf : ∀ ep ∈ apps, ep.isElf = true)
    (hsize : ∀ ep ∈ apps, ep.content.length ≤ size2MB) (hi : ino + apps.length ≤ 128) :
    (writeApps apps (UInt32.ofNat ino) inode binDir).wp (inRange 4096)
      (fun binDir' d' => binDir' = binDir ++ dirText (appEntries apps ino) ∧
        Filled (calls ++ appsCalls apps ino inode) d')
      (fun msg _ => Overfull (calls ++ appsCalls apps ino inode) msg) (fun _ => True) d := by
  induction apps generalizing calls d ino inode binDir with
  | nil =>
    rw [appsCalls, List.append_nil]
    exact ⟨(List.append_nil _).symm, h⟩
  | cons ep apps ih =>
    rw [List.length_cons] at hi
    have hino := toNat_word (show ino < 2 ^ 32 by omega)
    have hblocks : ep.nblocks ≤ 4096 := by
      have hle := hsize ep List.mem_cons_self
      rw [size2MB] at hle
      rw [Dirent.nblocks]
      omega
    have htext : binDir ++ dirText (appEntries (ep :: apps) ino) =
        binDir ++ DirEntry.text ⟨ep.appName, ino⟩ ++ dirText (appEntries apps (ino + 1)) := by
      rw [List.append_assoc]
      rfl
    rw [writeApps, if_pos (helf ep List.mem_cons_self), wp_bind, appsCalls, ← List.append_assoc,
      hino, word_add_one, htext]
    apply wp_mono _ (h.wp_writeApp (by omega) _ ep.nblocks 0 (by omega))
    · exact fun _ d' hfilled => ih hfilled _ _ _ (fun ep' hep' => helf ep' (List.mem_cons_of_mem _ hep'))
        (fun ep' hep' => hsize ep' (List.mem_cons_of_mem _ hep')) (by omega)
    · exact fun _ _ hfull => hfull.append _

theorem dirText_cons (e : DirEntry) (es : List DirEntry) :
    dirText (e :: es) = e.text ++ dirText es := rfl

/-- An entry has at least five characters. -/
theorem length_appEntries (apps : List Dirent) (ino : Nat) :
    5 * apps.length ≤ (dirText (appEntries apps ino)).length := by
  induction apps generalizing ino with
  | nil => exact Nat.zero_le _
  | cons ep apps ih =>
    have hrest := ih (ino + 1)
    rw [appEntries, dirText_cons, DirEntry.text]
    simp only [List.length_cons, List.length_append, List.length_replicate, List.length_nil]
    omega

theorem dirText_binEntries (apps : List Dirent) :
    dirText (binEntries apps) = ascii "./   6 ../   0 " ++ dirText (appEntries apps 7) := by
  have htext : ascii "./   6 ../   0 " = dirText [⟨[46, 47], 6⟩, ⟨[46, 46, 47], 0⟩] := by
    decide +kernel
  rw [htext]
  exact List.flatMap_append

/-- The directory has room for fewer entries than there are inodes. -/
theorem InBuffers.count {apps : List Dirent} (h : InBuffers apps) : apps.length ≤ 48 := by
  have hlt := h.binDir
  have hle := length_appEntries apps 7
  have hstart : (ascii "./   6 ../   0 ").length = 15 := by decide +kernel
  rw [dirText_binEntries, List.length_append, hstart] at hlt
  omega

/-- A new file system on the ramdisk. -/
theorem wp_create_ramdisk (stale : TreeDisk.Block) :
    (treediskCreate stale 4096 128).wp (inRange 4096) (fun r d => r = 0 ∧ Filled [] d)
      (fun _ _ => False) (fun _ => True) blankStore := by
  apply wp_mono _ (wp_run _ (wp_create_format (E := fun _ _ => False) stale 128 rfl (by decide)))
  · rintro r d ⟨⟨rfl, hformat⟩, hrun⟩
    exact ⟨rfl, ⟨blankStore, d, stale, 128, rfl, hrun, .nil⟩, hformat.nInodeblocks,
      by decide +kernel⟩
  · exact fun _ _ he => he.1

section Mkfs

variable {dp : List Dirent}

/-- `mkfs` makes all its writes, or there is no room for them. -/
theorem wp_mkfs (stale : TreeDisk.Block) (behind : Memory)
    (hbuf : InBuffers (dp.filter Dirent.isElf)) :
    (mkfs stale behind dp).wp (inRange 4096)
      (fun _ d => Filled (allCalls behind (dp.filter Dirent.isElf)) d)
      (fun msg _ => Overfull (allCalls behind (dp.filter Dirent.isElf)) msg) (fun _ => True)
      blankStore := by
  have hcount := hbuf.count
  rw [mkfs, wp_bind]
  apply wp_mono _ (wp_create_ramdisk stale) _ fun _ _ he => he.elim
  rintro r d ⟨rfl, hfilled⟩
  rw [if_neg (by decide), wp_bind]
  apply wp_mono _ (hfilled.wp_writeContents contents 0 (fun _ => 0) (by decide))
  · rintro inode d₁ ⟨rfl, hfilled₁⟩
    rw [wp_bind, writeApps_filter]
    apply wp_mono _ (hfilled₁.wp_writeApps (dp.filter Dirent.isElf) 7 _ _
      (fun ep hep => (List.mem_filter.mp hep).2) hbuf.inode (by omega))
    · rintro binDir d₂ ⟨rfl, hfilled₂⟩
      rw [wp_bind, ← dirText_binEntries]
      exact wp_mono _ (hfilled₂.wp_write _ (by decide) (by decide)) (fun _ _ hq => hq)
        fun _ _ hfull => hfull
    · exact fun _ _ hfull => hfull.append _
  · exact fun _ _ hfull => (hfull.append _).append _

/-! ## What was written where -/

theorem writesTo_append (ino : UInt32) (calls calls' : List Call) :
    writesTo ino (calls ++ calls') = writesTo ino calls ++ writesTo ino calls' := by
  simp [writesTo]

theorem offsetsOf_eq_empty {ino : UInt32} (h : writesTo ino calls = []) :
    offsetsOf calls ino = ∅ := by
  rw [offsetsOf, h]
  rfl

theorem writesTo_write_self (ino : UInt32) (offset : BlockNo) (block : TreeDisk.Block)
    (calls : List Call) :
    writesTo ino (.write ino offset block :: calls) =
      (offset.toNat, block) :: writesTo ino calls := by
  simp [writesTo]

theorem writesTo_write_of_ne {ino j : UInt32} (hne : ino ≠ j) (offset : BlockNo)
    (block : TreeDisk.Block) (calls : List Call) :
    writesTo j (.write ino offset block :: calls) = writesTo j calls := by
  simp [writesTo, hne]

/-- An application is written to its inode, block by block. -/
theorem writesTo_appCalls (ino : UInt32) (inode : Memory) {b turns : Nat}
    (hb : b + turns ≤ 2 ^ 32) :
    writesTo ino (appCalls ino inode b turns) =
      (List.range' b turns).map fun b => (b, blockAt inode (512 * b)) := by
  induction turns generalizing b with
  | zero => rfl
  | succ turns ih =>
    rw [appCalls, List.range'_succ, List.map_cons, List.map_cons, writesTo_write_self,
      toNat_word (by omega), ← ih (by omega)]
    rfl

theorem writesTo_appCalls_of_ne {ino j : UInt32} (hne : ino ≠ j) (inode : Memory) (b turns : Nat) :
    writesTo j (appCalls ino inode b turns) = [] := by
  induction turns generalizing b with
  | zero => rfl
  | succ turns ih =>
    rw [appCalls, List.range'_succ, List.map_cons, writesTo_write_of_ne hne]
    exact ih (b + 1)

theorem word_ne {n : Nat} {j : UInt32} (hn : n < 2 ^ 32) (hne : n ≠ j.toNat) :
    UInt32.ofNat n ≠ j := by
  rintro rfl
  exact hne (toNat_word hn).symm

/-- The applications are written to inodes from `ino` on. -/
theorem writesTo_appsCalls_none {apps : List Dirent} {ino : Nat} (inode : Memory) {j : UInt32}
    (hi : ino + apps.length ≤ 128) (hj : j.toNat < ino ∨ ino + apps.length ≤ j.toNat) :
    writesTo j (appsCalls apps ino inode) = [] := by
  induction apps generalizing ino inode with
  | nil => rfl
  | cons ep apps ih =>
    rw [List.length_cons] at hi hj
    rw [appsCalls, writesTo_append, writesTo_appCalls_of_ne (word_ne (by omega) (by omega)),
      ih _ (by omega) (by omega)]
    rfl

/-- The file of an application starts with its bytes. -/
theorem writesTo_appsCalls {apps : List Dirent} (ino : Nat) (inode : Memory)
    (hi : ino + apps.length ≤ 128) (hsize : ∀ ep ∈ apps, ep.content.length ≤ size2MB) {k : Nat}
    (hk : k < apps.length) :
    ∃ mem : Memory, (∀ a (ha : a < apps[k].content.length), mem a = apps[k].content[a]) ∧
      writesTo (UInt32.ofNat (ino + k)) (appsCalls apps ino inode) =
        (List.range' 0 apps[k].nblocks).map fun b => (b, blockAt mem (512 * b)) := by
  induction apps generalizing ino inode k with
  | nil => exact absurd hk (Nat.not_lt_zero k)
  | cons ep apps ih =>
    rw [List.length_cons] at hi hk
    have hle := hsize ep List.mem_cons_self
    have hsize' := fun ep' hep' => hsize ep' (List.mem_cons_of_mem _ hep')
    rw [appsCalls]
    simp only [writesTo_append]
    cases k with
    | zero =>
      refine ⟨loadFile inode 0 ep.content, fun a ha => ?_, ?_⟩
      · change a < ep.content.length at ha
        show loadFile inode 0 ep.content a = ep.content[a]
        rw [loadFile, if_pos ⟨Nat.zero_le a, by rw [Nat.zero_add]; exact ha⟩, Nat.sub_zero,
          List.getD_eq_getElem _ _ ha]
      · rw [Nat.add_zero, writesTo_appCalls, writesTo_appsCalls_none _ (by omega)
          (by rw [toNat_word (by omega)]; omega), List.append_nil]
        · rfl
        · rw [Dirent.nblocks]
          rw [size2MB] at hle
          omega
    | succ k =>
      obtain ⟨mem, hmem, hwrites⟩ := ih (ino + 1) (loadFile inode 0 ep.content) (by omega)
        hsize' (k := k) (by omega)
      refine ⟨mem, hmem, ?_⟩
      rw [writesTo_appCalls_of_ne (word_ne (by omega) (by rw [toNat_word (by omega)]; omega)),
        List.nil_append, show ino + (k + 1) = ino + 1 + k by omega, hwrites]
      rfl

theorem writesTo_contentsCalls_none {texts : List (List UInt8)} {ino : Nat} (inode : Memory)
    {j : UInt32} (hi : ino + texts.length ≤ 128)
    (hj : j.toNat < ino ∨ ino + texts.length ≤ j.toNat) :
    writesTo j (contentsCalls texts ino inode) = [] := by
  induction texts generalizing ino inode with
  | nil => rfl
  | cons text texts ih =>
    rw [List.length_cons] at hi hj
    rw [contentsCalls, writesTo_write_of_ne (word_ne (by omega) (by omega)),
      ih _ (by omega) (by omega)]

/-- The first files are their texts, with zeros behind them. -/
theorem writesTo_contentsCalls {texts : List (List UInt8)} (ino : Nat) (inode : Memory)
    (hi : ino + texts.length ≤ 128) {k : Nat} (hk : k < texts.length) :
    ∃ mem : Memory, Padded mem 0 512 texts[k] ∧
      writesTo (UInt32.ofNat (ino + k)) (contentsCalls texts ino inode) = [(0, blockAt mem 0)] := by
  induction texts generalizing ino inode k with
  | nil => exact absurd hk (Nat.not_lt_zero k)
  | cons text texts ih =>
    rw [List.length_cons] at hi hk
    rw [contentsCalls]
    cases k with
    | zero =>
      refine ⟨strncpy inode 0 text 512, padded_strncpy inode 0 text 512, ?_⟩
      rw [Nat.add_zero, writesTo_write_self, writesTo_contentsCalls_none _ (by omega)
        (by rw [toNat_word (by omega)]; omega)]
      rfl
    | succ k =>
      obtain ⟨mem, hmem, hwrites⟩ := ih (ino + 1) (strncpy inode 0 text 512) (by omega)
        (k := k) (by omega)
      refine ⟨mem, hmem, ?_⟩
      rw [writesTo_write_of_ne (word_ne (by omega) (by rw [toNat_word (by omega)]; omega)),
        show ino + (k + 1) = ino + 1 + k by omega, hwrites]

/-! ## The space it takes -/

/-- The number of blocks for the files of some applications. -/
def appsSpace (apps : List Dirent) : Nat := (apps.map fun ep => fileSpace (range ep.nblocks)).sum

theorem fileSpace_one : fileSpace {0} = 1 := by decide +kernel

theorem offsetsOf_write_self (ino : UInt32) (block : TreeDisk.Block) :
    offsetsOf [.write ino 0 block] ino = {0} := by
  rw [offsetsOf, writesTo_write_self]
  rfl

/-- Each of the first files takes a block. -/
theorem spaceOf_contents (texts : List (List UInt8)) (ino : Nat) (inode : Memory)
    (hi : ino + texts.length ≤ 128)
    (hfresh : ∀ j : UInt32, ino ≤ j.toNat → offsetsOf calls j = ∅) :
    spaceOf 2 (calls ++ contentsCalls texts ino inode) = spaceOf 2 calls + texts.length := by
  induction texts generalizing calls ino inode with
  | nil => rw [contentsCalls, List.append_nil, List.length_nil, Nat.add_zero]
  | cons text texts ih =>
    rw [List.length_cons] at hi ⊢
    have hino := toNat_word (show ino < 2 ^ 32 by omega)
    have hother : ∀ j ≠ UInt32.ofNat ino, ∀ block,
        offsetsOf [.write (UInt32.ofNat ino) 0 block] j = ∅ := fun j hj block =>
      offsetsOf_eq_empty (writesTo_write_of_ne hj.symm _ _ _)
    rw [contentsCalls, List.append_cons, ih _ _ (by omega), spaceOf_append (by decide) (by omega)
      (hfresh _ hino.ge) fun j hj => hother j hj _, offsetsOf_write_self, fileSpace_one]
    · omega
    · intro j hj
      rw [offsetsOf_append, hfresh j (by omega), hother j, empty_union]
      rintro rfl
      omega

/-- Each application takes what a file of its size takes. -/
theorem spaceOf_apps {apps : List Dirent} {ino : Nat} (inode : Memory)
    (hi : ino + apps.length ≤ 128) (hsize : ∀ ep ∈ apps, ep.content.length ≤ size2MB)
    (hfresh : ∀ j : UInt32, ino ≤ j.toNat → offsetsOf calls j = ∅) :
    spaceOf 2 (calls ++ appsCalls apps ino inode) = spaceOf 2 calls + appsSpace apps := by
  induction apps generalizing calls ino inode with
  | nil =>
    rw [appsCalls, List.append_nil, appsSpace, List.map_nil, List.sum_nil, Nat.add_zero]
  | cons ep apps ih =>
    rw [List.length_cons] at hi
    have hino := toNat_word (show ino < 2 ^ 32 by omega)
    have hle := hsize ep List.mem_cons_self
    have hblocks : 0 + ep.nblocks ≤ 2 ^ 32 := by
      rw [Dirent.nblocks]
      rw [size2MB] at hle
      omega
    have hself : offsetsOf (appCalls (UInt32.ofNat ino) (loadFile inode 0 ep.content) 0 ep.nblocks)
        (UInt32.ofNat ino) = range ep.nblocks := by
      ext b
      simp [offsetsOf, writesTo_appCalls _ _ hblocks]
    have hother : ∀ j ≠ UInt32.ofNat ino,
        offsetsOf (appCalls (UInt32.ofNat ino) (loadFile inode 0 ep.content) 0 ep.nblocks) j = ∅ :=
      fun j hj => offsetsOf_eq_empty (writesTo_appCalls_of_ne hj.symm _ _ _)
    rw [appsCalls, ← List.append_assoc, ih _ (by omega)
      (fun ep' hep' => hsize ep' (List.mem_cons_of_mem _ hep')), spaceOf_append (by decide)
      (by omega) (hfresh _ hino.ge) hother, hself, appsSpace, appsSpace, List.map_cons,
      List.sum_cons, Nat.add_assoc]
    intro j hj
    rw [offsetsOf_append, hfresh j (by omega), hother j, empty_union]
    rintro rfl
    omega

/-- The superblock, two inode blocks, seven directories and texts, and the applications. -/
theorem spaceOf_allCalls (behind : Memory) {apps : List Dirent} (hbuf : InBuffers apps) :
    spaceOf 2 (allCalls behind apps) = 10 + appsSpace apps := by
  have hcount := hbuf.count
  have hfresh : ∀ j : UInt32, 6 ≤ j.toNat →
      offsetsOf (contentsCalls contents 0 fun _ => 0) j = ∅ := fun j hj =>
    offsetsOf_eq_empty (writesTo_contentsCalls_none _ (by decide) (Or.inr hj))
  have hempty : spaceOf 2 [] = 3 := by decide +kernel
  have hfirst : spaceOf 2 ([] ++ contentsCalls contents 0 fun _ => 0) =
      spaceOf 2 [] + contents.length :=
    spaceOf_contents contents 0 _ (by decide) fun _ _ => rfl
  rw [List.nil_append, hempty, show contents.length = 6 from rfl] at hfirst
  have hbin : offsetsOf (contentsCalls contents 0 (fun _ => 0) ++ appsCalls apps 7 inodeBefore)
      binDirInode = ∅ := by
    rw [offsetsOf_append, hfresh _ (by decide), empty_union]
    exact offsetsOf_eq_empty (writesTo_appsCalls_none _ (by omega) (Or.inl (by decide)))
  rw [allCalls, spaceOf_append (by decide) (by decide) hbin fun j hj =>
    offsetsOf_eq_empty (writesTo_write_of_ne hj.symm _ _ _), offsetsOf_write_self, fileSpace_one,
    spaceOf_apps _ (by omega) hbuf.inode fun j hj => hfresh j (by omega), hfirst]
  omega

theorem wp_mkfs_of_fits (stale : TreeDisk.Block) (behind : Memory)
    (hbuf : InBuffers (dp.filter Dirent.isElf))
    (hfits : 10 + appsSpace (dp.filter Dirent.isElf) ≤ 4096) :
    (mkfs stale behind dp).wp (inRange 4096)
      (fun _ d => Filled (allCalls behind (dp.filter Dirent.isElf)) d) (fun _ _ => False)
      (fun _ => True) blankStore := by
  apply wp_mono _ (wp_mkfs stale behind hbuf) fun _ _ hfilled => hfilled
  rintro _ _ ⟨_, hfull⟩
  rw [spaceOf_allCalls behind hbuf] at hfull
  exact Nat.not_lt.mpr hfits hfull

/-- `mkfs` fills the file system exactly if its files fit the 4096 blocks of the ramdisk: one
    superblock, two inode blocks, seven directories and texts, and for each application what a
    file of its size takes. Otherwise it panics on an empty free list. -/
theorem mkfs_outcome (stale : TreeDisk.Block) (behind : Memory) (dp : List Dirent)
    (hbuf : InBuffers (dp.filter Dirent.isElf)) :
    ((mkfs stale behind dp).run (inRange 4096) blankStore).1 =
      if 10 + appsSpace (dp.filter Dirent.isElf) ≤ 4096 then .returned ()
      else .halted fullMessage := by
  have hspace := spaceOf_allCalls behind hbuf
  have hmkfs := wp_mkfs stale behind hbuf
  match hrun : (mkfs stale behind dp).run (inRange 4096) blankStore with
  | (.returned _, d) =>
    have hfits := (post_of_wp hmkfs hrun).fits
    rw [hspace] at hfits
    rw [if_pos hfits]
  | (.halted msg, d) =>
    obtain ⟨rfl, hfull⟩ := stop_of_wp hmkfs hrun
    rw [hspace] at hfull
    rw [if_neg (not_le.mpr hfull)]

theorem mkfs_outcome_one :
    ((mkfs nullBlock (fun _ => 0) [⟨ascii "ls.elf", [127]⟩, ⟨ascii "ls.lst", []⟩]).run
      (inRange 4096) blankStore).1 = .returned () := by
  rw [mkfs_outcome _ _ _ ⟨by decide +kernel, by decide +kernel⟩, if_pos (by decide +kernel)]

end Mkfs

end Egos.Tools
