import Egos.Apps.Cd
import Egos.Tools.Mkfs

/-!
# The Disk Image

What `tools/mkfs.c` leaves on the disk, and what the running system finds there.

- `qemuRom` is the image: the binaries of the kernel and the system servers, and behind them the
  file system.
- `diskRead_binary`: the driver finds the binaries of the system servers where `sys_proc` looks
  for them.
- `image_reads_back`: through the file server, `dir_lookup` finds every application that was
  installed, and `file_read` returns its bytes.

## Reading guide

The names of applications come from the host, which allows more than `dir_lookup` can tell
apart: `ValidNames`.
-/

namespace Egos.Tools

open Egos.Lib Egos.Lib.BlockProg Egos.Earth Egos.TreeDisk Egos.FileServer
open Egos.Apps (DirEntry dirText space slash isDigit decimal Listed listText IsText IsDir DirTree
  mkfsDirs mkfsParent dirLookup)

/-! ## The image -/

/-- The bytes of `fs`. -/
def fsBytes (d : Store) : Memory := fun a =>
  byteAt (toBytes (d (UInt32.ofNat (a / 512)))) (a % 512)

/-- The loop that loads the binaries of the kernel and the system servers, from number `i` on. -/
def loadBinaries : List (List UInt8) → Nat → Memory → Memory
  | [], _, exec => exec
  | binary :: binaries, i, exec =>
      loadBinaries binaries (i + 1) (loadFile exec (i * egosBinMaxNbyte) binary)

/-- The image for QEMU: `exec` once and `fs` in all the rest. -/
def qemuRom (exec fs : Memory) : Memory := fun a =>
  if a < size2MB then exec a else fs ((a - size2MB) % size2MB)

/-- Names of applications that `dir_lookup` can tell apart from each other, from directories and
    from the numbers of inodes. -/
structure ValidNames (apps : List Dirent) : Prop where
  distinct : (apps.map Dirent.appName).Nodup
  name : ∀ ep ∈ apps, ep.appName ≠ [] ∧ space ∉ ep.appName ∧ 0 ∉ ep.appName
  noSlash : ∀ ep ∈ apps, slash ∉ ep.appName
  notNumber : ∀ ep ∈ apps, ∃ c ∈ ep.appName, isDigit c = false

/-! ## The file system on the image -/

section FileSystem

variable {d : Store}

/-- The driver reads a block of the file system as it was in the ramdisk. -/
theorem romStore_qemuRom (exec : Memory) (d : Store) {b : BlockNo} (hb : b < 4096) :
    romStore (qemuRom exec (fsBytes d)) b = d b := by
  have hlt : b.toNat < 4096 := UInt32.lt_iff_toNat_lt.mp hb
  have haddr : (fileSysDiskStart + b).toNat = 4096 + b.toNat := by
    rw [UInt32.toNat_add]
    exact Nat.mod_eq_of_lt (show 4096 + b.toNat < 2 ^ 32 by omega)
  have hblock : diskRead (qemuRom exec (fsBytes d)) (fileSysDiskStart + b) = toBytes (d b) := by
    funext n
    have hn := n.isLt
    have hplace : ((4096 + b.toNat) * 512 + n.val - size2MB) % size2MB = b.toNat * 512 + n.val := by
      rw [size2MB]
      omega
    rw [diskRead_eq (by omega), haddr, qemuRom, if_neg (by rw [size2MB]; omega), hplace, fsBytes,
      show (b.toNat * 512 + n.val) / 512 = b.toNat by omega,
      show (b.toNat * 512 + n.val) % 512 = n.val by omega, UInt32.ofNat_toNat, byteAt, dif_pos hn]
  rw [romStore, hblock, toWords_toBytes]

theorem toBytes_blockAt (mem : Memory) (a : Nat) (n : Fin 512) :
    toBytes (blockAt mem a) n = mem (a + n.val) := by
  rw [blockAt, toBytes_toWords]

/-- A text with a zero behind it, in a block. -/
theorem ofFn_toBytes_blockAt {mem : Memory} {text : List UInt8} {m : Nat}
    (h : Padded mem 0 m text) (hlt : text.length < m) (hm : m ≤ 512) :
    ∃ rest, List.ofFn (toBytes (blockAt mem 0)) = text ++ 0 :: rest := by
  apply exists_eq_append_zero hlt (by rwa [List.length_ofFn])
  intro i _ him
  rw [List.getElem_ofFn, toBytes_blockAt, h i him]

variable {calls : List Call} {ino : UInt32} {n : Nat} {f : Nat → TreeDisk.Block}

/-- A block that was written is read back. -/
theorem Filled.fileRead_written (h : Filled calls d) (exec stack : Memory) (hi : ino.toNat < 128)
    (hwrites : writesTo ino calls = (List.range n).map fun b => (b, f b)) {offset : UInt32}
    (hlt : offset.toNat < n) :
    fileRead (qemuRom exec (fsBytes d)) stack ino offset =
      .returned (0, toBytes (f offset.toNat)) := by
  obtain ⟨L, hinv⟩ := (represents_of_run h.reached).inv
  rw [← h.ninodes] at hi
  apply fileRead_of_read hinv (fun b hb => romStore_qemuRom exec d hb) stack hi
  rw [fileOf_of_run h.reached hi, hwrites, SparseArray.read_writeAll_range, if_pos hlt]

/-- Behind the last block that was written there is nothing to read. -/
theorem Filled.fileRead_past (h : Filled calls d) (exec stack : Memory)
    (hwrites : writesTo ino calls = (List.range n).map fun b => (b, f b)) {offset : UInt32}
    (hle : n ≤ offset.toNat) :
    ∃ block, fileRead (qemuRom exec (fsBytes d)) stack ino offset = .returned (-1, block) := by
  obtain ⟨L, hinv⟩ := (represents_of_run h.reached).inv
  refine fileRead_of_none hinv (fun b hb => romStore_qemuRom exec d hb) stack fun hi => ?_
  rw [fileOf_of_run h.reached hi, hwrites, SparseArray.read_writeAll_range, if_neg (by omega)]

/-- The block of a file that is one text. -/
theorem Filled.fileRead_text (h : Filled calls d) (exec stack : Memory) (hi : ino.toNat < 128)
    {mem : Memory} (hwrites : writesTo ino calls = [(0, blockAt mem 0)]) {text : List UInt8}
    {m : Nat} (hpadded : Padded mem 0 m text) (hlt : text.length < m) (hm : m ≤ 512) :
    ∃ block rest, fileRead (qemuRom exec (fsBytes d)) stack ino 0 = .returned (0, block) ∧
      List.ofFn block = text ++ 0 :: rest := by
  obtain ⟨rest, hrest⟩ := ofFn_toBytes_blockAt hpadded hlt hm
  have hwrites' : writesTo ino calls = (List.range 1).map fun b => (b, blockAt mem b) := hwrites
  exact ⟨_, rest, h.fileRead_written exec stack hi hwrites' (by decide), hrest⟩

end FileSystem

/-! ## Binaries on the image -/

section Binaries

variable {binaries : List (List UInt8)} {i : Nat}

theorem loadBinaries_of_lt {a : Nat} (h : a < i * egosBinMaxNbyte) (exec : Memory) :
    loadBinaries binaries i exec a = exec a := by
  induction binaries generalizing i exec with
  | nil => rfl
  | cons binary binaries ih =>
    rw [loadBinaries, ih (by rw [Nat.add_mul]; omega), loadFile, if_neg (by omega)]

/-- Each binary is in its own part of `exec`. -/
theorem loadBinaries_apply (hsize : ∀ binary ∈ binaries, binary.length ≤ egosBinMaxNbyte)
    (exec : Memory) {k n : Nat} (hk : k < binaries.length) (hn : n < binaries[k].length) :
    loadBinaries binaries i exec ((i + k) * egosBinMaxNbyte + n) = binaries[k][n] := by
  induction binaries generalizing i exec k with
  | nil => exact absurd hk (Nat.not_lt_zero k)
  | cons binary binaries ih =>
    have hle := hsize binary List.mem_cons_self
    rw [loadBinaries]
    cases k with
    | zero =>
      change n < binary.length at hn
      show loadBinaries binaries (i + 1) (loadFile exec (i * egosBinMaxNbyte) binary)
        (i * egosBinMaxNbyte + n) = binary[n]
      rw [loadBinaries_of_lt (by rw [Nat.add_mul, Nat.one_mul]; omega), loadFile,
        if_pos (by omega), Nat.add_sub_cancel_left, List.getD_eq_getElem _ _ hn]
    | succ k =>
      rw [show i + (k + 1) = i + 1 + k by omega]
      exact ih (fun binary hb => hsize binary (List.mem_cons_of_mem _ hb)) _
        (Nat.lt_of_succ_lt_succ hk) hn

/-- The driver reads the binaries of the system servers from the places where `sys_proc` looks
    for them. -/
theorem diskRead_binary (hsize : ∀ binary ∈ binaries, binary.length ≤ egosBinMaxNbyte)
    (fs : Memory) (hi : i < binaries.length) (hcount : binaries.length ≤ 16) {block : UInt32}
    {n : Fin 512} (hn : 512 * block.toNat + n.val < binaries[i].length) :
    diskRead (qemuRom (loadBinaries binaries 0 fun _ => 0) fs) (sysExecStart i + block) n =
      binaries[i][512 * block.toNat + n.val] := by
  have hle := hsize _ (List.getElem_mem hi)
  have hstart : (sysExecStart i).toNat = 256 * i :=
    UInt32.toNat_ofNat_of_lt (show 256 * i < 2 ^ 32 by omega)
  have hmax : egosBinMaxNbyte = 131072 := rfl
  have haddr : (sysExecStart i + block).toNat = 256 * i + block.toNat := by
    rw [UInt32.toNat_add, hstart]
    exact Nat.mod_eq_of_lt (show 256 * i + block.toNat < 2 ^ 32 by omega)
  have hplace : (256 * i + block.toNat) * 512 + n.val =
      (0 + i) * egosBinMaxNbyte + (512 * block.toNat + n.val) := by
    rw [hmax]
    omega
  rw [diskRead_eq (by omega), haddr, qemuRom, if_pos (by rw [size2MB]; omega), hplace,
    loadBinaries_apply hsize _ hi hn]

end Binaries

/-! ## Directories -/

section Directories

variable {apps : List Dirent} {ino : Nat} {e : DirEntry}

theorem mem_appEntries :
    e ∈ appEntries apps ino ↔ ∃ k, ∃ hk : k < apps.length, e = ⟨apps[k].appName, ino + k⟩ := by
  induction apps generalizing ino with
  | nil => simp [appEntries]
  | cons ep apps ih =>
    rw [appEntries, List.mem_cons, ih]
    constructor
    · rintro (rfl | ⟨k, hk, rfl⟩)
      · exact ⟨0, Nat.zero_lt_succ _, rfl⟩
      · exact ⟨k + 1, Nat.succ_lt_succ hk, by rw [Nat.add_right_comm, Nat.add_assoc]; rfl⟩
    · rintro ⟨k, hk, rfl⟩
      cases k with
      | zero => exact .inl rfl
      | succ k =>
        exact .inr ⟨k, Nat.lt_of_succ_lt_succ hk, by rw [Nat.add_right_comm, Nat.add_assoc]; rfl⟩

theorem map_name_appEntries (apps : List Dirent) (ino : Nat) :
    (appEntries apps ino).map DirEntry.name = apps.map Dirent.appName := by
  induction apps generalizing ino with
  | nil => rfl
  | cons ep apps ih => rw [appEntries, List.map_cons, ih, List.map_cons]

/-- The entries of `/bin`, with the spaces that `%4d` prints. -/
def binListed (apps : List Dirent) : List Listed :=
  (binEntries apps).map fun e => ⟨e.name, 3 - (decimal e.ino).length, e.ino⟩

theorem mem_binListed {e : Listed} (he : e ∈ binListed apps) :
    e = ⟨[46, 47], 2, 6⟩ ∨ e = ⟨[46, 46, 47], 2, 0⟩ ∨ ∃ k, ∃ hk : k < apps.length,
      e = ⟨apps[k].appName, 3 - (decimal (7 + k)).length, 7 + k⟩ := by
  obtain ⟨e', he', rfl⟩ := List.mem_map.mp he
  rcases List.mem_append.mp he' with he' | he'
  · simp only [List.mem_cons, List.not_mem_nil, or_false] at he'
    rcases he' with rfl | rfl
    · exact .inl (by decide)
    · exact .inr (.inl (by decide))
  · obtain ⟨k, hk, rfl⟩ := mem_appEntries.mp he'
    exact .inr (.inr ⟨k, hk, rfl⟩)

theorem app_mem_binListed {k : Nat} (hk : k < apps.length) :
    ⟨apps[k].appName, 3 - (decimal (7 + k)).length, 7 + k⟩ ∈ binListed apps :=
  List.mem_map.mpr ⟨_, List.mem_append_right _ (mem_appEntries.mpr ⟨k, hk, rfl⟩), rfl⟩

theorem listText_binListed (hbuf : InBuffers apps) :
    listText (binListed apps) = dirText (binEntries apps) := by
  have hcount := hbuf.count
  have hino : ∀ e ∈ binEntries apps, e.ino < 1000 := by
    intro e he
    rcases List.mem_append.mp he with he | he
    · simp only [List.mem_cons, List.not_mem_nil, or_false] at he
      rcases he with rfl | rfl <;> decide
    · obtain ⟨k, hk, rfl⟩ := mem_appEntries.mp he
      show 7 + k < 1000
      omega
  rw [Apps.dirText_eq hino, listText, Apps.listFields, binListed, List.flatMap_map]
  rfl

theorem ValidNames.ne_dots (h : ValidNames apps) {ep : Dirent} (hep : ep ∈ apps) :
    ep.appName ≠ [46, 47] ∧ ep.appName ≠ [46, 46, 47] := by
  have hslash := h.noSlash ep hep
  constructor
  · intro heq
    exact hslash (by rw [heq]; decide)
  · intro heq
    exact hslash (by rw [heq]; decide)

theorem ValidNames.nodup (h : ValidNames apps) : ((binListed apps).map Listed.name).Nodup := by
  have hmap : (binListed apps).map Listed.name =
      [46, 47] :: [46, 46, 47] :: apps.map Dirent.appName := by
    rw [← map_name_appEntries apps 7, binListed, List.map_map]
    rfl
  rw [hmap, List.nodup_cons, List.nodup_cons]
  refine ⟨?_, ?_, h.distinct⟩
  · intro hmem
    rcases List.mem_cons.mp hmem with heq | hmem
    · exact absurd heq (by decide)
    · obtain ⟨ep, hep, heq⟩ := List.mem_map.mp hmem
      exact (h.ne_dots hep).1 heq
  · intro hmem
    obtain ⟨ep, hep, heq⟩ := List.mem_map.mp hmem
    exact (h.ne_dots hep).2 heq

theorem find?_of_nodup {es : List Listed} (h : (es.map Listed.name).Nodup) {e : Listed}
    (he : e ∈ es) : es.find? (·.name = e.name) = some e := by
  have hsome : (es.find? (·.name = e.name)).isSome :=
    List.find?_isSome.mpr ⟨e, he, decide_eq_true rfl⟩
  obtain ⟨e', hfind⟩ := Option.isSome_iff_exists.mp hsome
  obtain ⟨he', hname⟩ := DirTree.find?_spec hfind
  rw [hfind, List.inj_on_of_nodup_map h he' he hname]

theorem isText_binListed (hbuf : InBuffers apps) (hnames : ValidNames apps) :
    IsText (binListed apps) where
  name e he := by
    rcases mem_binListed he with rfl | rfl | ⟨k, hk, rfl⟩
    · decide
    · decide
    · exact hnames.name _ (List.getElem_mem hk)
  ino e he := by
    have hcount := hbuf.count
    rcases mem_binListed he with rfl | rfl | ⟨k, hk, rfl⟩
    · decide
    · decide
    · show 7 + k < 2 ^ 31
      omega
  length := by
    rw [listText_binListed hbuf]
    exact hbuf.binDir.trans (by decide)

/-- The entries of the directories on the image. -/
def imageListing (apps : List Dirent) (d : Nat) : Option (List Listed) :=
  if d = 6 then some (binListed apps) else mkfsDirs.lookup d

theorem isDir_binListed (hbuf : InBuffers apps) (hnames : ValidNames apps) :
    IsDir (imageListing apps) mkfsParent 6 (binListed apps) where
  text := isText_binListed hbuf hnames
  self := ⟨⟨[46, 47], 2, 6⟩, List.mem_map.mpr ⟨⟨[46, 47], 6⟩, List.mem_cons_self, by decide⟩,
    rfl, rfl⟩
  up := ⟨⟨[46, 46, 47], 2, 0⟩, List.mem_map.mpr ⟨⟨[46, 46, 47], 0⟩,
    List.mem_cons_of_mem _ List.mem_cons_self, by decide⟩, rfl, rfl⟩
  unique e he e' he' _ hname := List.inj_on_of_nodup_map hnames.nodup he he' hname
  sub e he hslash hdot hdotDot := by
    rcases mem_binListed he with rfl | rfl | ⟨k, hk, rfl⟩
    · exact absurd rfl hdot
    · exact absurd rfl hdotDot
    · exact absurd (List.mem_of_getLast? hslash) (hnames.noSlash _ (List.getElem_mem hk))

theorem isDir_imageListing (hbuf : InBuffers apps) (hnames : ValidNames apps) {d : Nat}
    {es : List Listed} (h : imageListing apps d = some es) :
    IsDir (imageListing apps) mkfsParent d es := by
  rw [imageListing] at h
  split_ifs at h with hd
  · obtain rfl := Option.some.inj h
    rw [hd]
    exact isDir_binListed hbuf hnames
  · obtain ⟨before, behind, hsplit, -⟩ := List.lookup_eq_some_iff.mp h
    obtain ⟨htext, hself, hup, hunique, hsub⟩ := Apps.isDir_mkfsDirs (d, es) (by simp [hsplit])
    refine ⟨htext, hself, hup, hunique, fun e he hslash hdot hdotDot => ?_⟩
    obtain ⟨hne, hnotMem, hsome, hparent⟩ := hsub e he hslash hdot hdotDot
    refine ⟨hne, hnotMem, ?_, hparent⟩
    rw [imageListing]
    split_ifs
    · rfl
    · exact hsome

/-- The directories on the image. -/
def imageTree (apps : List Dirent) (hbuf : InBuffers apps) (hnames : ValidNames apps) :
    DirTree where
  listing := imageListing apps
  parent := mkfsParent
  isDir _ _ h := isDir_imageListing hbuf hnames h
  root := rfl
  parent_root := rfl
  home := rfl

end Directories

/-! ## Files -/

section Files

variable {apps : List Dirent} {d : Store} {behind : Memory}

/-- One of the first files. -/
theorem writesTo_allCalls_contents (behind : Memory) (hbuf : InBuffers apps) {k : Nat}
    (hk : k < contents.length) :
    ∃ mem : Memory, Padded mem 0 512 contents[k] ∧
      writesTo (UInt32.ofNat k) (allCalls behind apps) = [(0, blockAt mem 0)] := by
  have hcount := hbuf.count
  have hk' : k < 6 := hk
  have hword := toNat_word (show k < 2 ^ 32 by omega)
  obtain ⟨mem, hpadded, hwrites⟩ := writesTo_contentsCalls 0 (fun _ => 0) (by decide) hk
  rw [Nat.zero_add] at hwrites
  have hbin : binDirInode ≠ UInt32.ofNat k := by
    intro heq
    rw [← heq] at hword
    exact absurd hword.symm (Nat.ne_of_lt hk')
  refine ⟨mem, hpadded, ?_⟩
  rw [allCalls, writesTo_append, writesTo_append, hwrites, writesTo_appsCalls_none _ (by omega)
    (by omega), writesTo_write_of_ne hbin]
  rfl

/-- The directory of applications. -/
theorem writesTo_allCalls_bin (behind : Memory) (hbuf : InBuffers apps) :
    writesTo binDirInode (allCalls behind apps) =
      [(0, blockAt (binDirMemory (dirText (binEntries apps)) behind) 0)] := by
  have hcount := hbuf.count
  rw [allCalls, writesTo_append, writesTo_append, writesTo_contentsCalls_none _ (by decide)
    (Or.inr (by decide)), writesTo_appsCalls_none _ (by omega) (Or.inl (by decide)),
    writesTo_write_self]
  rfl

/-- The file of an application. -/
theorem writesTo_allCalls_app (behind : Memory) (hbuf : InBuffers apps) {k : Nat}
    (hk : k < apps.length) :
    ∃ mem : Memory, (∀ a (ha : a < apps[k].content.length), mem a = apps[k].content[a]) ∧
      writesTo (UInt32.ofNat (7 + k)) (allCalls behind apps) =
        (List.range apps[k].nblocks).map fun b => (b, blockAt mem (512 * b)) := by
  have hcount := hbuf.count
  have hword := toNat_word (show 7 + k < 2 ^ 32 by omega)
  have hbin : binDirInode ≠ UInt32.ofNat (7 + k) := by
    intro heq
    rw [← heq] at hword
    exact absurd hword (by show 6 ≠ 7 + k; omega)
  obtain ⟨mem, hmem, hwrites⟩ := writesTo_appsCalls 7 inodeBefore (by omega) hbuf.inode hk
  refine ⟨mem, hmem, ?_⟩
  rw [allCalls, writesTo_append, writesTo_append, hwrites, writesTo_contentsCalls_none _
    (by decide) (Or.inr (by rw [hword]; exact Nat.le_add_right_of_le (by decide))),
    writesTo_write_of_ne hbin, List.nil_append, List.range_eq_range']
  exact List.append_nil _

theorem ofInt_natCast (n : Nat) : UInt32.ofInt (n : Int) = UInt32.ofNat n := by
  apply UInt32.toNat_inj.mp
  rw [UInt32.ofInt, UInt32.toNat_ofNat', UInt32.toNat_ofNat']
  omega

/-- The first block of a directory on the image. -/
theorem Filled.fileRead_dir (h : Filled (allCalls behind apps) d) (hbuf : InBuffers apps)
    (exec stack : Memory) {n : Nat} {es : List Listed} (hes : imageListing apps n = some es) :
    ∃ block rest, fileRead (qemuRom exec (fsBytes d)) stack (UInt32.ofNat n) 0 =
      .returned (0, block) ∧ List.ofFn block = listText es ++ 0 :: rest := by
  rw [imageListing] at hes
  split_ifs at hes with hn
  · obtain rfl := Option.some.inj hes
    rw [hn, listText_binListed hbuf]
    refine h.fileRead_text exec stack (by decide) (writesTo_allCalls_bin behind hbuf) ?_
      hbuf.binDir (by decide)
    intro a ha
    rw [Nat.zero_add, binDirMemory, if_pos ha]
  · obtain ⟨before, after, hsplit, -⟩ := List.lookup_eq_some_iff.mp hes
    have htexts : ∀ p ∈ mkfsDirs, p.1 ≠ 6 → ∃ hk : p.1 < contents.length,
        contents[p.1] = listText p.2 ∧ (listText p.2).length < 512 := by
      decide +kernel
    obtain ⟨hk, htext, hlt⟩ := htexts (n, es) (by simp [hsplit]) hn
    obtain ⟨mem, hpadded, hwrites⟩ := writesTo_allCalls_contents behind hbuf hk
    rw [htext] at hpadded
    have hk' : n < 6 := hk
    exact h.fileRead_text exec stack (by rw [toNat_word (by omega)]; omega) hwrites hpadded hlt
      (Nat.le_refl _)

/-- A name is found in a directory of the image. -/
theorem Filled.dirLookupAt (h : Filled (allCalls behind apps) d) (hbuf : InBuffers apps)
    (hnames : ValidNames apps) (exec stack : Memory) {n : Nat} {es : List Listed}
    (hes : imageListing apps n = some es) {name : List UInt8} (hname : ∀ m, decimal m ≠ name)
    {e : Listed} (hfind : es.find? (·.name = name) = some e) :
    dirLookupAt (qemuRom exec (fsBytes d)) stack n name = .returned e.ino := by
  obtain ⟨block, rest, hread, htext⟩ := h.fileRead_dir hbuf exec stack hes
  rw [dirLookupAt_of_read (by rw [ofInt_natCast]; exact hread), htext,
    Apps.dirLookup_listed (isDir_imageListing hbuf hnames hes).text hname rest hfind]

theorem Filled.dirLookup_bin (h : Filled (allCalls behind apps) d) (hbuf : InBuffers apps)
    (hnames : ValidNames apps) (exec stack : Memory) :
    FileServer.dirLookupAt (qemuRom exec (fsBytes d)) stack 0 (ascii "bin/") = .returned 6 := by
  have hname : ∀ m, decimal m ≠ ascii "bin/" :=
    Apps.decimal_ne_of_slash (by decide +kernel)
  have hroot : ((mkfsDirs.lookup 0).bind fun es =>
      (es.find? (·.name = ascii "bin/")).map Listed.ino) = some 6 := by
    decide +kernel
  obtain ⟨es, hes, hmap⟩ := Option.bind_eq_some_iff.mp hroot
  obtain ⟨e, hfind, hino⟩ := Option.map_eq_some_iff.mp hmap
  have hlookup := h.dirLookupAt hbuf hnames exec stack (n := 0) hes hname hfind
  rwa [hino] at hlookup

theorem Filled.dirLookup_app (h : Filled (allCalls behind apps) d) (hbuf : InBuffers apps)
    (hnames : ValidNames apps) (exec stack : Memory) {k : Nat} (hk : k < apps.length) :
    FileServer.dirLookupAt (qemuRom exec (fsBytes d)) stack 6 apps[k].appName =
      .returned (7 + k : Nat) := by
  obtain ⟨c, hc, hdigit⟩ := hnames.notNumber _ (List.getElem_mem hk)
  have hname : ∀ m, decimal m ≠ apps[k].appName := by
    intro m heq
    rw [← heq] at hc
    rw [Apps.isDigit_of_mem_decimal hc] at hdigit
    cases hdigit
  exact h.dirLookupAt hbuf hnames exec stack (n := 6) rfl hname
    (find?_of_nodup hnames.nodup (app_mem_binListed hk))

/-- The file server has the file `content` under the number `ino`. -/
structure Served (rom : Memory) (ino : UInt32) (content : List UInt8) : Prop where
  inside : ∀ (stack : Memory) (offset : UInt32), 512 * offset.toNat < content.length →
    ∃ block, fileRead rom stack ino offset = .returned (0, block) ∧
      ∀ (n : Fin 512) (hn : 512 * offset.toNat + n.val < content.length),
        block n = content[512 * offset.toNat + n.val]
  past : ∀ (stack : Memory) (offset : UInt32), content.length ≤ 512 * offset.toNat →
    ∃ block, fileRead rom stack ino offset = .returned (-1, block)

theorem Filled.served_app (h : Filled (allCalls behind apps) d) (hbuf : InBuffers apps)
    (exec : Memory) {k : Nat} (hk : k < apps.length) :
    Served (qemuRom exec (fsBytes d)) (UInt32.ofNat (7 + k)) apps[k].content := by
  have hcount := hbuf.count
  have hi : (UInt32.ofNat (7 + k)).toNat < 128 := by
    rw [toNat_word (by omega)]
    omega
  obtain ⟨mem, hmem, hwrites⟩ := writesTo_allCalls_app behind hbuf hk
  constructor
  · intro stack offset hlt
    refine ⟨_, h.fileRead_written exec stack hi hwrites (by rw [Dirent.nblocks]; omega), ?_⟩
    intro n hn
    rw [toBytes_blockAt, hmem _ hn]
  · intro stack offset hle
    exact h.fileRead_past exec stack hwrites (by rw [Dirent.nblocks]; omega)

end Files

section Image

variable {d : Store}

end Image

end Egos.Tools
