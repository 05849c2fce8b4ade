import Egos.Grass.Code

/-!
# Trap Entry: Code

`trap_entry` (`grass/kernel.s`), the assembly around `kernel_entry`, instruction by
instruction.

## Reading guide

- `Cpu` is what a trap and the instructions here touch: the general registers, `mscratch`,
  `mepc`, the program counter, and memory as the word at each address.
- `mcause` and the interrupt controller are inputs, as in `Kernel.kernelEntry`.
- `kernel_entry` is a C function: it leaves `sp` as it was and may leave anything in the other
  registers, in `mscratch` and in memory outside of the frame (`clobber`).
- The steps for several cores are empty in the source.
-/

namespace Egos.Trap

open Egos.Grass

/-- The general registers, `zero` left out. -/
inductive Reg where
  | a0 | a1 | a2 | a3 | a4 | a5 | a6 | a7
  | t0 | t1 | t2 | t3 | t4 | t5 | t6
  | s0 | s1 | s2 | s3 | s4 | s5 | s6 | s7 | s8 | s9 | s10 | s11
  | ra | gp | tp | sp
  deriving DecidableEq, Repr

/-- The state of the processor. -/
structure Cpu where
  regs : Reg → UInt32
  mscratch : UInt32
  mepc : UInt32
  pc : UInt32
  /-- The word at an address. -/
  mem : UInt32 → UInt32

/-- The instructions of `trap_entry`. -/
inductive Instr where
  /-- `csrw mscratch, src` -/
  | csrwMscratch (src : Reg)
  /-- `csrr dst, mscratch` -/
  | csrrMscratch (dst : Reg)
  | li (dst : Reg) (value : UInt32)
  | addi (dst src : Reg) (value : UInt32)
  /-- `sw src, offset(base)` -/
  | sw (src : Reg) (offset : UInt32) (base : Reg)
  /-- `lw dst, offset(base)` -/
  | lw (dst : Reg) (offset : UInt32) (base : Reg)
  deriving DecidableEq, Repr

def Cpu.setReg (cpu : Cpu) (dst : Reg) (value : UInt32) : Cpu :=
  { cpu with regs := Function.update cpu.regs dst value }

/-- Execute one instruction. -/
def Cpu.exec (cpu : Cpu) : Instr → Cpu
  | .csrwMscratch src => { cpu with mscratch := cpu.regs src }
  | .csrrMscratch dst => cpu.setReg dst cpu.mscratch
  | .li dst value => cpu.setReg dst value
  | .addi dst src value => cpu.setReg dst (cpu.regs src + value)
  | .sw src offset base =>
    { cpu with mem := Function.update cpu.mem (cpu.regs base + offset) (cpu.regs src) }
  | .lw dst offset base => cpu.setReg dst (cpu.mem (cpu.regs base + offset))

/-- `EGOS_STACK_TOP` -/
def egosStackTop : UInt32 := 0x80200000

/-- Steps 2 and 3: switch to the kernel stack, save all the registers on it. -/
def saveRegisters : List Instr :=
  [ .csrwMscratch .sp,
    .li .sp 0x80200000,
    .addi .sp .sp (-128),
    .sw .a0 0 .sp, .sw .a1 4 .sp, .sw .a2 8 .sp, .sw .a3 12 .sp,
    .sw .a4 16 .sp, .sw .a5 20 .sp, .sw .a6 24 .sp, .sw .a7 28 .sp,
    .sw .t0 32 .sp, .sw .t1 36 .sp, .sw .t2 40 .sp, .sw .t3 44 .sp,
    .sw .t4 48 .sp, .sw .t5 52 .sp, .sw .t6 56 .sp, .sw .s0 60 .sp,
    .sw .s1 64 .sp, .sw .s2 68 .sp, .sw .s3 72 .sp, .sw .s4 76 .sp,
    .sw .s5 80 .sp, .sw .s6 84 .sp, .sw .s7 88 .sp, .sw .s8 92 .sp,
    .sw .s9 96 .sp, .sw .s10 100 .sp, .sw .s11 104 .sp, .sw .ra 108 .sp,
    .sw .gp 112 .sp, .sw .tp 116 .sp,
    .csrrMscratch .t0,
    .sw .t0 120 .sp ]

/-- Steps 5 and 6: restore all the registers, switch back to the process stack. -/
def restoreRegisters : List Instr :=
  [ .lw .a0 0 .sp, .lw .a1 4 .sp, .lw .a2 8 .sp, .lw .a3 12 .sp,
    .lw .a4 16 .sp, .lw .a5 20 .sp, .lw .a6 24 .sp, .lw .a7 28 .sp,
    .lw .t0 32 .sp, .lw .t1 36 .sp, .lw .t2 40 .sp, .lw .t3 44 .sp,
    .lw .t4 48 .sp, .lw .t5 52 .sp, .lw .t6 56 .sp, .lw .s0 60 .sp,
    .lw .s1 64 .sp, .lw .s2 68 .sp, .lw .s3 72 .sp, .lw .s4 76 .sp,
    .lw .s5 80 .sp, .lw .s6 84 .sp, .lw .s7 88 .sp, .lw .s8 92 .sp,
    .lw .s9 96 .sp, .lw .s10 100 .sp, .lw .s11 104 .sp, .lw .ra 108 .sp,
    .lw .gp 112 .sp, .lw .tp 116 .sp,
    .lw .sp 120 .sp ]

/-- The 32 words at `EGOS_STACK_TOP - 32 * 4`. -/
def Cpu.frame (cpu : Cpu) (n : Fin 32) : UInt32 :=
  cpu.mem (egosStackTop - 128 + 4 * UInt32.ofNat n.val)

/-- `memcpy` of 32 words to `EGOS_STACK_TOP - 32 * 4`. -/
def withFrame (mem : UInt32 → UInt32) (words : Fin 32 → UInt32) : UInt32 → UInt32 := fun a =>
  let off := (a - (egosStackTop - 128)).toNat
  if off % 4 = 0 ∧ off < 128 then words (Fin.ofNat 32 (off / 4)) else mem a

/-- The processor when `kernel_entry` has returned. -/
def Cpu.afterKernelEntry (cpu clobber : Cpu) (c : Context) : Cpu where
  regs := Function.update clobber.regs .sp (cpu.regs .sp)
  mscratch := clobber.mscratch
  mepc := c.mepc
  pc := clobber.pc
  mem := withFrame clobber.mem c.registers

variable {μ : Type}

/-- A trap: the processor saves the program counter and goes to `trap_entry`, which ends with
    `mret`. -/
def trapEntry (passes : Nat) (mcause : UInt32) (key : Option UInt8) (clobber cpu : Cpu)
    (k : Kernel μ) : Except Stop (Kernel μ × Cpu) := do
  let cpu := { cpu with mepc := cpu.pc }
  let cpu := saveRegisters.foldl Cpu.exec cpu
  let (k, c) ← Kernel.kernelEntry passes mcause key ⟨cpu.mepc, cpu.frame⟩ k
  let cpu := restoreRegisters.foldl Cpu.exec (cpu.afterKernelEntry clobber c)
  .ok (k, { cpu with pc := cpu.mepc })

end Egos.Trap
