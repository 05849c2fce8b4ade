import Egos.Loader.ArgPage
import Egos.TreeDisk.Alloc

/-!
# The Disk

The disk driver (`earth/dev_disk.c`) and the layout of the disk (`library/file/disk.h`). The
disk is a ROM: `disk_read` copies from it, and `disk_write` stops the machine.

The file systems see a block as words, the lowest byte of a word first; `toWords` and `toBytes`
are the two views of a block, and each is the inverse of the other.

Only the branches for `FLASH_ROM` are modelled, which `disk_init` selects, and one block at a
time, which is all that any caller reads.
-/

namespace Egos.Earth

open Egos.Loader (byteOf wordAt wordAt_of_bytes toNat_byteOf toNat_wordAt)

/-! ## The layout -/

/-- `SIZE_2MB` -/
def size2MB : Nat := 2 * 1024 * 1024

/-- `EGOS_BIN_MAX_NBYTE` -/
def egosBinMaxNbyte : Nat := 128 * 1024

/-- `FILE_SYS_DISK_START` -/
def fileSysDiskStart : UInt32 := 4096

/-- `SYS_PROC_EXEC_START`, `SYS_TERM_EXEC_START`, `SYS_FILE_EXEC_START` and
    `SYS_SHELL_EXEC_START` for `i` from 1 to 4. -/
def sysExecStart (i : Nat) : UInt32 := UInt32.ofNat (egosBinMaxNbyte / 512 * i)

/-! ## The driver -/

/-- `disk_read` of one block; `rom` are the bytes from `FLASH_ROM_BASE` on. -/
def diskRead (rom : Nat → UInt8) (blockNo : UInt32) : Loader.Block := fun n =>
  rom ((blockNo * 512).toNat + n.val)

/-- What `disk_write` prints before it stops the machine. -/
def readOnlyMessage : String := "FLASH_ROM is read only"

theorem diskRead_eq {rom : Nat → UInt8} {blockNo : UInt32} (h : blockNo.toNat < 2 ^ 23)
    (n : Fin 512) : diskRead rom blockNo n = rom (blockNo.toNat * 512 + n.val) := by
  have hmul : (blockNo * 512).toNat = blockNo.toNat * 512 := by
    rw [UInt32.toNat_mul]
    exact Nat.mod_eq_of_lt (by show blockNo.toNat * 512 < 2 ^ 32; omega)
  rw [diskRead, hmul]

/-! ## Words and bytes -/

/-- The bytes of a block, as `block_t` is read. -/
def byteAt (b : Loader.Block) (n : Nat) : UInt8 := if h : n < 512 then b ⟨n, h⟩ else 0

/-- A block of bytes as words. -/
def toWords (b : Loader.Block) : TreeDisk.Block := fun i => wordAt (byteAt b) (4 * i.val)

/-- A block of words as bytes. -/
def toBytes (b : TreeDisk.Block) : Loader.Block := fun n =>
  byteOf (b ⟨n.val / 4, by omega⟩) (n.val % 4)

theorem toWords_toBytes (b : TreeDisk.Block) : toWords (toBytes b) = b := by
  funext i
  refine wordAt_of_bytes fun n hn => ?_
  have hlt : 4 * i.val + n < 512 := by omega
  have hword : (⟨(4 * i.val + n) / 4, by omega⟩ : Fin 128) = i := Fin.ext (by simp; omega)
  rw [byteAt, dif_pos hlt, toBytes, hword]
  congr 1
  simp only
  omega

/-- The bytes that make up a word are the bytes of the word. -/
theorem byteOf_wordAt (bytes : Nat → UInt8) (off : Nat) {n : Nat} (hn : n < 4) :
    byteOf (wordAt bytes off) n = bytes (off + n) := by
  apply UInt8.toNat_inj.mp
  have h0 := (bytes off).toNat_lt
  have h1 := (bytes (off + 1)).toNat_lt
  have h2 := (bytes (off + 2)).toNat_lt
  have h3 := (bytes (off + 3)).toNat_lt
  rw [toNat_byteOf _ hn, toNat_wordAt]
  obtain rfl | rfl | rfl | rfl : n = 0 ∨ n = 1 ∨ n = 2 ∨ n = 3 := by omega
  · show _ = (bytes off).toNat
    rw [Nat.mul_zero, Nat.pow_zero]
    omega
  · rw [Nat.mul_one]
    omega
  · rw [show 8 * 2 = 16 from rfl]
    omega
  · rw [show 8 * 3 = 24 from rfl]
    omega

theorem toBytes_toWords (b : Loader.Block) : toBytes (toWords b) = b := by
  funext n
  rw [toBytes, toWords, byteOf_wordAt _ _ (Nat.mod_lt _ (by decide)), byteAt,
    dif_pos (by simp only; omega)]
  congr 1
  exact Fin.ext (by simp only; omega)

end Egos.Earth
