import Mathlib.Data.UInt
import Egos.Apps.Request
import Egos.Earth.Code
import Egos.Machine.Code

/-!
# The Loader: Code

`elf_load` (`library/elf/elf.c`), which maps the pages of a new process and fills them through
their physical addresses.

## Reading guide

- A page is its 4096 bytes, a block its 512 bytes. The `reader` gives the blocks of the file.
- `hbuf` is the block with the headers. What `pheader[i]` reads behind its 512 bytes is
  whatever follows `hbuf` on the stack, the parameter `stack`.
- `uint` is `UInt32`, with its overflow. The loop over `off` is a fold over the values that
  `off` takes; `off + BLOCK_SIZE` could overflow only behind a segment of more than a million
  pages, for which `mmu_alloc` stops the machine long before.
- `mmu_alloc` may reach `FATAL`, so the loader returns an `Except`.
- The messages that `INFO` prints are left out.
-/

namespace Egos.Loader

open Egos.Earth

/-! ## Pages and blocks -/

/-- `char[PAGE_SIZE]` -/
abbrev Page := Fin 4096 → UInt8

/-- `char[BLOCK_SIZE]` -/
abbrev Block := Fin 512 → UInt8

/-- `memset(page, 0, PAGE_SIZE)` -/
def zeroPage : Page := fun _ => 0

/-- `memcpy(page + off, src, size)` -/
def Page.memcpy (page : Page) (off : Nat) (src : Nat → UInt8) (size : Nat) : Page := fun b =>
  if off ≤ b.val ∧ b.val < off + size then src (b.val - off) else page b

/-- The bytes of a word, the lowest first. -/
def byteOf (w : UInt32) (n : Nat) : UInt8 := (w >>> UInt32.ofNat (8 * n)).toUInt8

/-- A word made of four bytes, the lowest first. -/
def wordAt (bytes : Nat → UInt8) (off : Nat) : UInt32 :=
  (bytes off).toUInt32 ||| (bytes (off + 1)).toUInt32 <<< 8 |||
    (bytes (off + 2)).toUInt32 <<< 16 ||| (bytes (off + 3)).toUInt32 <<< 24

/-- `*(int*)(page + off) = w` -/
def Page.setWord (page : Page) (off : Nat) (w : UInt32) : Page := page.memcpy off (byteOf w) 4

/-! ## Headers -/

/-- The fields of `struct elf32_program_header` that `elf_load` reads. -/
structure ProgramHeader where
  offset : UInt32
  vaddr : UInt32
  filesz : UInt32
  memsz : UInt32
  deriving DecidableEq, Repr

/-- `header->e_phoff` -/
def ePhoff (hbuf : Nat → UInt8) : UInt32 := wordAt hbuf 28

/-- `header->e_phnum` -/
def ePhnum (hbuf : Nat → UInt8) : Nat := (hbuf 44).toNat + 256 * (hbuf 45).toNat

/-- `pheader[i]` -/
def programHeader (hbuf : Nat → UInt8) (i : Nat) : ProgramHeader :=
  let base := (ePhoff hbuf).toNat + 32 * i
  { offset := wordAt hbuf (base + 4)
    vaddr := wordAt hbuf (base + 8)
    filesz := wordAt hbuf (base + 16)
    memsz := wordAt hbuf (base + 20) }

/-- `pheader[0]` to `pheader[e_phnum - 1]` -/
def programHeaders (hbuf : Nat → UInt8) : List ProgramHeader :=
  (List.range (ePhnum hbuf)).map (programHeader hbuf)

/-! ## Segments -/

/-- `RAM_START` -/
def ramStart : UInt32 := 0x80000000

/-- The variables of the loop over the blocks of a segment. -/
structure Cursor where
  tlb : Tlb Page
  currPageno : UInt32
  currBlockno : UInt32
  ppageId : PageId

/-- The values of `off`. -/
def offsets (filesz : UInt32) : List UInt32 :=
  (List.range ((filesz.toNat + 511) / 512)).map fun j => UInt32.ofNat (512 * j)

/-- `mmu_alloc`, `mmu_map` at the given page number, and `memset`. -/
def allocPage (s : Tlb Page) (pid : Int) (pageno : UInt32) :
    Except Fatal (PageId × Tlb Page) := do
  let (ppageId, s) ← s.mmuAlloc zeroPage
  let s := s.softTlbMap pid pageno.toNat ppageId
  .ok (ppageId, s.store (pageOfId ppageId) zeroPage)

/-- Allocate one page (4KB) for every 8 blocks (512 bytes). -/
def Cursor.nextPage (c : Cursor) (pid : Int) (off : UInt32) : Except Fatal Cursor :=
  if off % 4096 = 0 then do
    let (ppageId, tlb) ← allocPage c.tlb pid c.currPageno
    .ok { c with tlb := tlb, currPageno := c.currPageno + 1, ppageId := ppageId }
  else .ok c

/-- A turn of the loop over the blocks of a segment. -/
def loadBlock (pid : Int) (reader : UInt32 → Block) (filesz : UInt32) (c : Cursor)
    (off : UInt32) : Except Fatal Cursor := do
  let c ← c.nextPage pid off
  let size := if off + 512 < filesz then 512 else filesz - off
  let buf := fun n => if h : n < 512 then reader c.currBlockno ⟨n, h⟩ else 0
  let page := pageOfId c.ppageId
  .ok { c with
    tlb := c.tlb.store page ((c.tlb.mem page).memcpy (off % 4096).toNat buf size.toNat)
    currBlockno := c.currBlockno + 1 }

/-- A turn of the loop over the program headers. `ppage_id` is not set before the first page
    is allocated. -/
def loadSegment (pid : Int) (reader : UInt32 → Block) (s : Tlb Page) (ph : ProgramHeader) :
    Except Fatal (Tlb Page) := do
  if ph.vaddr < ramStart then .ok s
  else
    let endPageno := (ph.vaddr + ph.memsz) / 4096
    let c ← (offsets ph.filesz).foldlM (loadBlock pid reader ph.filesz)
      { tlb := s, currPageno := ph.vaddr / 4096, currBlockno := ph.offset / 512, ppageId := 0 }
    -- while (curr_pageno < end_pageno)
    (List.range (endPageno.toNat - c.currPageno.toNat)).foldlM
      (fun s j => do
        let (_, s) ← allocPage s pid (c.currPageno + UInt32.ofNat j)
        .ok s)
      c.tlb

/-! ## Arguments -/

/-- `argc` and `argv` of `elf_load`; `argv` is an array of `CMD_NARGS` strings of
    `CMD_ARG_LEN` bytes, or `NULL`. -/
structure Args where
  argc : Nat
  argv : Option (Fin 16 → Fin 32 → UInt8)
  le : argc ≤ 16

/-- The bytes of `argv`, one string after the other. -/
def argBytes (argv : Fin 16 → Fin 32 → UInt8) (n : Nat) : UInt8 :=
  argv (Fin.ofNat 16 (n / 32)) (Fin.ofNat 32 (n % 32))

/-- `APPS_ARG` -/
def appsArg : UInt32 := 0x80300000

/-- The page for `main()`: `argc`, the array `argv`, and the strings. -/
def argPage (args : Args) (page : Page) : Page :=
  let page := page.setWord 0 (UInt32.ofNat args.argc)
  let page := match args.argv with
    | some argv => page.memcpy 68 (argBytes argv) (args.argc * 32)
    | none => page
  (List.range args.argc).foldl
    (fun page i => page.setWord (4 + 4 * i) (appsArg + 4 + 4 * 16 + UInt32.ofNat i * 32)) page

/-- `mmu_alloc` and `mmu_map`, without `memset`. -/
def mapPage (s : Tlb Page) (pid : Int) (pageno : UInt32) : Except Fatal (PageId × Tlb Page) := do
  let (ppageId, s) ← s.mmuAlloc zeroPage
  .ok (ppageId, s.softTlbMap pid pageno.toNat ppageId)

/-- The pages that every process gets: arguments, system call arguments, and two for the
    stack. -/
def loadArgs (pid : Int) (args : Args) (s : Tlb Page) : Except Fatal (Tlb Page) := do
  let (ppageId, s) ← mapPage s pid (appsArg / 4096)
  let page := pageOfId ppageId
  let s := s.store page (argPage args (s.mem page))
  let (_, s) ← mapPage s pid (UInt32.ofNat Machine.syscallArgPage)
  let (_, s) ← mapPage s pid (0x80400000 / 4096 - 1)
  let (_, s) ← mapPage s pid (0x80400000 / 4096 - 2)
  .ok s

/-- `elf_load` -/
def elfLoad (pid : Int) (reader : UInt32 → Block) (stack : Nat → UInt8) (args : Args)
    (s : Tlb Page) : Except Fatal (Tlb Page) := do
  let hbuf := fun n => if h : n < 512 then reader 0 ⟨n, h⟩ else stack n
  let s ← (programHeaders hbuf).foldlM (loadSegment pid reader) s
  loadArgs pid args s

end Egos.Loader
