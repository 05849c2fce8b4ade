import Egos.Apps.DirLookup
import Egos.Earth.Disk
import Egos.TreeDisk.Refinement

/-!
# The File Server

`sys_file` (`apps/system/sys_file.c`) with the disk below it, and `file_read` and `dir_lookup`
(`library/syscall/servers.c`) at the other end.

- `turn` is a turn of the loop of the server, from the request in its buffer to the reply in the
  same buffer.
- `fileRead` is a request of a client and the reply to it; `dirLookupAt` reads a directory first.
- If the ROM holds a file system, the server answers every read from its files and never
  writes: `fileRead_of_read`.

The request has uninitialised bytes behind its three words, and the reply overlays them; they
are the parameter `stack`.
-/

namespace Egos.FileServer

open Egos.Lib Egos.Lib.BlockProg Egos.Earth Egos.TreeDisk
open Egos.Loader (byteOf wordAt wordAt_of_bytes)
open Egos.Apps (dirLookup)

/-! ## Messages -/

/-- `FILE_READ` -/
def typeRead : UInt32 := 1

/-- `FILE_WRITE` -/
def typeWrite : UInt32 := 2

/-- `FILE_OK` -/
def fileOk : UInt32 := 0

/-- `FILE_ERROR` -/
def fileError : UInt32 := 1

/-- `*(uint*)(buf + off) = w` -/
def setWord (buf : Nat → UInt8) (off : Nat) (w : UInt32) : Nat → UInt8 := fun n =>
  if off ≤ n ∧ n < off + 4 then byteOf w (n - off) else buf n

/-- `memcpy(buf + off, block, BLOCK_SIZE)` -/
def setBlock (buf : Nat → UInt8) (off : Nat) (block : Loader.Block) : Nat → UInt8 := fun n =>
  if off ≤ n ∧ n < off + 512 then byteAt block (n - off) else buf n

/-! ## The server -/

/-- `read` of `sys_file`, which the file system calls for its blocks. -/
def romStore (rom : Nat → UInt8) : Store := fun b => toWords (diskRead rom (fileSysDiskStart + b))

/-- A turn of the loop of `sys_file`, with the request in `buf`. -/
def turn (rom buf : Nat → UInt8) : Outcome (Nat → UInt8) :=
  let type := wordAt buf 0
  if type = typeRead then
    match (treediskRead (wordAt buf 4) (wordAt buf 8)).runRom readOnlyMessage (romStore rom) with
    | .returned (some block) => .returned (setWord (setBlock buf 4 (toBytes block)) 0 fileOk)
    | .returned none => .returned (setWord buf 0 fileError)
    | .halted msg => .halted msg
  else if type = typeWrite then .halted "File write is not implemented"
  else .halted s!"sys_file: invalid request {type.toInt32}"

/-! ## The client -/

/-- `struct file_request` of `file_read`. -/
def request (ino offset : UInt32) (stack : Nat → UInt8) : Nat → UInt8 :=
  setWord (setWord (setWord stack 0 typeRead) 4 ino) 8 offset

/-- `file_read`: the result and the block that it copies. -/
def fileRead (rom stack : Nat → UInt8) (ino offset : UInt32) : Outcome (Int × Loader.Block) :=
  match turn rom (request ino offset stack) with
  | .returned reply =>
    .returned (if wordAt reply 0 = fileOk then 0 else -1, fun n => reply (4 + n.val))
  | .halted msg => .halted msg

/-- `dir_lookup`, which does not look at the result of `file_read`. -/
def dirLookupAt (rom stack : Nat → UInt8) (dirIno : Int) (name : List UInt8) : Outcome Int :=
  match fileRead rom stack (UInt32.ofInt dirIno) 0 with
  | .returned (_, block) => .returned (dirLookup (List.ofFn block) name)
  | .halted msg => .halted msg

/-- The block that `dir_lookup` looks at. -/
def firstBlock (rom stack : Nat → UInt8) (ino : Int) : List UInt8 :=
  match fileRead rom stack (UInt32.ofInt ino) 0 with
  | .returned (_, block) => List.ofFn block
  | .halted _ => []

theorem dirLookupAt_of_read {rom stack : Nat → UInt8} {dirIno r : Int} {block : Loader.Block}
    (h : fileRead rom stack (UInt32.ofInt dirIno) 0 = .returned (r, block)) (name : List UInt8) :
    dirLookupAt rom stack dirIno name = .returned (dirLookup (List.ofFn block) name) := by
  rw [dirLookupAt, h]

theorem firstBlock_of_read {rom stack : Nat → UInt8} {ino r : Int} {block : Loader.Block}
    (h : fileRead rom stack (UInt32.ofInt ino) 0 = .returned (r, block)) :
    firstBlock rom stack ino = List.ofFn block := by
  rw [firstBlock, h]

/-! ## Words of a message -/

section Words

variable {buf : Nat → UInt8} {off off' : Nat} {w : UInt32} {block : Loader.Block}

theorem wordAt_setWord : wordAt (setWord buf off w) off = w := by
  refine wordAt_of_bytes fun n hn => ?_
  rw [setWord, if_pos ⟨Nat.le_add_right .., by omega⟩, Nat.add_sub_cancel_left]

/-- A word elsewhere stays. -/
theorem wordAt_setWord_of_ne (hne : off + 4 ≤ off' ∨ off' + 4 ≤ off) :
    wordAt (setWord buf off w) off' = wordAt buf off' := by
  have hsame : ∀ n < 4, setWord buf off w (off' + n) = buf (off' + n) := fun n hn =>
    if_neg (by omega)
  rw [wordAt, wordAt, hsame 1 (by decide), hsame 2 (by decide), hsame 3 (by decide),
    show setWord buf off w off' = buf off' from hsame 0 (by decide)]

theorem wordAt_request (ino offset : UInt32) (stack : Nat → UInt8) :
    wordAt (request ino offset stack) 0 = typeRead ∧
      wordAt (request ino offset stack) 4 = ino ∧
      wordAt (request ino offset stack) 8 = offset := by
  refine ⟨?_, ?_, wordAt_setWord⟩
  · rw [request, wordAt_setWord_of_ne (by decide), wordAt_setWord_of_ne (by decide),
      wordAt_setWord]
  · rw [request, wordAt_setWord_of_ne (by decide), wordAt_setWord]

/-- The block behind the first word is what was copied there. -/
theorem block_of_reply (n : Fin 512) :
    setWord (setBlock buf 4 block) 0 w (4 + n.val) = block n := by
  have hn := n.isLt
  rw [setWord, if_neg (by omega), setBlock, if_pos (by omega), Nat.add_sub_cancel_left, byteAt,
    dif_pos n.isLt]

end Words

/-! ## Reading -/

section Reading

theorem readsOnly_getSnapshot (ino : UInt32) : (treediskGetSnapshot ino).ReadsOnly := by
  unfold treediskGetSnapshot
  refine readsOnly_bind (fun _ => trivial) fun r => ?_
  cases r with
  | none => trivial
  | some superblock =>
    show ReadsOnly (if _ then _ else _)
    split_ifs
    · trivial
    · refine readsOnly_bind (fun _ => trivial) fun r => ?_
      cases r <;> trivial

theorem readsOnly_readWalk (offset : BlockNo) (n : Nat) (b : BlockNo) :
    (treediskReadWalk offset n b).ReadsOnly := by
  induction n generalizing b with
  | zero =>
    rw [treediskReadWalk]
    split_ifs
    · trivial
    · exact fun _ => trivial
  | succ n ih =>
    rw [treediskReadWalk]
    split_ifs
    · trivial
    · refine readsOnly_bind (fun _ => trivial) fun r => ?_
      cases r with
      | none => trivial
      | some tib => exact ih _

/-- `treedisk_read` does not write. -/
theorem readsOnly_read (ino : UInt32) (offset : BlockNo) : (treediskRead ino offset).ReadsOnly := by
  unfold treediskRead
  refine readsOnly_bind (readsOnly_getSnapshot ino) fun r => ?_
  cases r with
  | none => trivial
  | some snapshot =>
    show ReadsOnly (if _ then _ else _)
    split_ifs
    · trivial
    · exact readsOnly_readWalk _ _ _

end Reading

section Image

variable {N : UInt32} {d : Store} {L : Multiset BlockNo} {rom : Nat → UInt8}

/-- The server reads its files from the ROM as from a store that could be written. -/
theorem read_runRom (hinv : FsInv N d L) (hrom : ∀ b < N, romStore rom b = d b) (ino : UInt32)
    (offset : BlockNo) :
    (treediskRead ino offset).runRom readOnlyMessage (romStore rom) = .returned
      (if ino.toNat < ninodesOf d then (fileOf d ino.toNat).read offset.toNat else none) := by
  rw [runRom_of_wp readOnlyMessage (readsOnly_read ino offset)
    (hinv.header.wp_read (E := fun _ _ => False) ino offset (hinv.nodes_lt ino))
    fun b hb => hrom b (inRange_iff.mp hb), read_run hinv]

/-- `file_read` returns the block of a file. -/
theorem fileRead_of_read (hinv : FsInv N d L) (hrom : ∀ b < N, romStore rom b = d b)
    (stack : Nat → UInt8) {ino : UInt32} {offset : BlockNo} {block : TreeDisk.Block}
    (hi : ino.toNat < ninodesOf d)
    (hread : (fileOf d ino.toNat).read offset.toNat = some block) :
    fileRead rom stack ino offset = .returned (0, toBytes block) := by
  obtain ⟨htype, hino, hoffset⟩ := wordAt_request ino offset stack
  have hturn : turn rom (request ino offset stack) =
      .returned (setWord (setBlock (request ino offset stack) 4 (toBytes block)) 0 fileOk) := by
    rw [turn, htype, hino, hoffset, read_runRom hinv hrom, if_pos hi, hread]
    rfl
  rw [fileRead, hturn]
  simp only [wordAt_setWord, if_true]
  congr 2
  funext n
  exact block_of_reply n

/-- `file_read` of what is not there fails, and the server goes on. -/
theorem fileRead_of_none (hinv : FsInv N d L) (hrom : ∀ b < N, romStore rom b = d b)
    (stack : Nat → UInt8) {ino : UInt32} {offset : BlockNo}
    (hnone : ino.toNat < ninodesOf d → (fileOf d ino.toNat).read offset.toNat = none) :
    ∃ block, fileRead rom stack ino offset = .returned (-1, block) := by
  obtain ⟨htype, hino, hoffset⟩ := wordAt_request ino offset stack
  have hfile : (if ino.toNat < ninodesOf d then (fileOf d ino.toNat).read offset.toNat
      else none) = none := by
    split_ifs with hi
    · exact hnone hi
    · rfl
  have hturn : turn rom (request ino offset stack) =
      .returned (setWord (request ino offset stack) 0 fileError) := by
    rw [turn, htype, hino, hoffset, read_runRom hinv hrom, hfile]
    rfl
  refine ⟨fun n => setWord (request ino offset stack) 0 fileError (4 + n.val), ?_⟩
  rw [fileRead, hturn]
  simp only [wordAt_setWord]
  rfl

end Image

end Egos.FileServer
