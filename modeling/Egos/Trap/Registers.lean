import Mathlib.Data.UInt
import Egos.Lib.Ends
import Egos.Lib.Writes
import Egos.Trap.Code

/-!
# Trap Entry: Registers

What the assembly of `trap_entry` does, without its instructions: `kernel_entry` finds every
register in the frame, and every register is loaded from the frame afterwards. The two lists
of offsets are written by hand in the source; `saveRegisters_eq` and `restoreRegisters_eq`
say that both are the one order `frameRegs`.

- `trapEntry_eq`: a trap is `kernel_entry` on the registers and the program counter.
-/

namespace Egos.Trap

open Egos.Lib Egos.Grass

variable {μ : Type} {cpu clobber : Cpu} {c : Context} {r : Reg}

/-! ## The layout of the frame -/

/-- The word of the frame that holds the register. -/
def Reg.slot : Reg → Fin 32
  | .a0 => 0 | .a1 => 1 | .a2 => 2 | .a3 => 3 | .a4 => 4 | .a5 => 5 | .a6 => 6 | .a7 => 7
  | .t0 => 8 | .t1 => 9 | .t2 => 10 | .t3 => 11 | .t4 => 12 | .t5 => 13 | .t6 => 14
  | .s0 => 15 | .s1 => 16 | .s2 => 17 | .s3 => 18 | .s4 => 19 | .s5 => 20 | .s6 => 21
  | .s7 => 22 | .s8 => 23 | .s9 => 24 | .s10 => 25 | .s11 => 26
  | .ra => 27 | .gp => 28 | .tp => 29 | .sp => 30

/-- Its distance from the start of the frame. -/
def Reg.offset (r : Reg) : UInt32 := 4 * UInt32.ofNat r.slot.val

/-- The registers in the order of the frame, up to `sp`. -/
def frameRegs : List Reg :=
  [.a0, .a1, .a2, .a3, .a4, .a5, .a6, .a7, .t0, .t1, .t2, .t3, .t4, .t5, .t6,
    .s0, .s1, .s2, .s3, .s4, .s5, .s6, .s7, .s8, .s9, .s10, .s11, .ra, .gp, .tp]

theorem mem_frameRegs : r ≠ .sp → r ∈ frameRegs := by
  cases r <;> decide

theorem sp_notMem_frameRegs : Reg.sp ∉ frameRegs := by
  decide

theorem nodup_frameRegs : frameRegs.Nodup := by
  decide

/-- Every register has a word of its own. -/
theorem nodup_offsets : (frameRegs.map Reg.offset).Nodup := by
  decide

theorem sp_notMem_offsets : Reg.offset .sp ∉ frameRegs.map Reg.offset := by
  decide

theorem saveRegisters_eq : saveRegisters =
    [.csrwMscratch .sp, .li .sp 0x80200000, .addi .sp .sp (-128)] ++
      frameRegs.map (fun r => .sw r r.offset .sp) ++
      [.csrrMscratch .t0, .sw .t0 (Reg.offset .sp) .sp] := by
  decide

theorem restoreRegisters_eq : restoreRegisters =
    frameRegs.map (fun r => .lw r r.offset .sp) ++ [.lw .sp (Reg.offset .sp) .sp] := by
  decide

/-! ## Runs of stores and loads -/

/-- A run of stores. -/
theorem exec_stores (regs : List Reg) (cpu : Cpu) :
    (regs.map fun r => Instr.sw r r.offset .sp).foldl Cpu.exec cpu =
      { cpu with
        mem := writes (regs.map fun r => (cpu.regs .sp + r.offset, cpu.regs r)) cpu.mem } := by
  induction regs generalizing cpu with
  | nil => rfl
  | cons r regs ih =>
    rw [List.map_cons, List.foldl_cons, ih]
    rfl

/-- A run of loads that leaves `sp` alone. -/
theorem exec_loads (regs : List Reg) (hsp : Reg.sp ∉ regs) (cpu : Cpu) :
    (regs.map fun r => Instr.lw r r.offset .sp).foldl Cpu.exec cpu =
      { cpu with
        regs := writes (regs.map fun r => (r, cpu.mem (cpu.regs .sp + r.offset))) cpu.regs } := by
  induction regs generalizing cpu with
  | nil => rfl
  | cons r regs ih =>
    rw [List.mem_cons, not_or] at hsp
    -- the base of the next loads is the same
    have hbase : (cpu.exec (.lw r r.offset .sp)).regs .sp = cpu.regs .sp :=
      Function.update_of_ne hsp.1 ..
    rw [List.map_cons, List.foldl_cons, ih hsp.2, hbase]
    rfl

/-- The addresses of a run of stores. -/
theorem addresses_eq (base : UInt32) (values : Reg → UInt32) :
    (frameRegs.map fun r => (base + r.offset, values r)).map Prod.fst =
      (frameRegs.map Reg.offset).map (base + ·) := by
  rw [List.map_map, List.map_map]
  rfl

/-- What the stores leave in the frame. -/
theorem stores_word (base : UInt32) (values : Reg → UInt32) (mem : UInt32 → UInt32)
    (hr : r ≠ .sp) :
    writes (frameRegs.map fun r => (base + r.offset, values r)) mem (base + r.offset) =
      values r := by
  apply writes_of_mem
  · rw [addresses_eq]
    exact nodup_offsets.map (add_right_injective base)
  · exact List.mem_map.mpr ⟨r, mem_frameRegs hr, rfl⟩

/-- What the loads leave in a register. -/
theorem loads_word (values : Reg → UInt32) (regs : Reg → UInt32) (hr : r ≠ .sp) :
    writes (frameRegs.map fun r => (r, values r)) regs r = values r := by
  apply writes_of_mem
  · rw [List.map_map]
    exact (List.map_id frameRegs).symm ▸ nodup_frameRegs
  · exact List.mem_map.mpr ⟨r, mem_frameRegs hr, rfl⟩

/-! ## Before and after `kernel_entry` -/

/-- The start of the frame. -/
def frameBase : UInt32 := egosStackTop - 128

theorem frame_slot (cpu : Cpu) (r : Reg) : cpu.frame r.slot = cpu.mem (frameBase + r.offset) := rfl

/-- The processor after the switch to the kernel stack. -/
def Cpu.onStack (cpu : Cpu) : Cpu :=
  { cpu with regs := Function.update cpu.regs .sp frameBase, mscratch := cpu.regs .sp }

theorem onStack_eq (cpu : Cpu) :
    [.csrwMscratch .sp, .li .sp 0x80200000, .addi .sp .sp (-128)].foldl Cpu.exec cpu =
      cpu.onStack := by
  have hsp : (0x80200000 : UInt32) + -128 = frameBase := by decide
  simp only [List.foldl_cons, List.foldl_nil, Cpu.exec, Cpu.setReg, Function.update_self, hsp,
    Function.update_idem]
  rfl

/-- The stack pointer goes through `mscratch` and `t0` to the frame. -/
theorem exec_saveSp (cpu : Cpu) (offset : UInt32) :
    [.csrrMscratch .t0, .sw .t0 offset .sp].foldl Cpu.exec cpu =
      { cpu with
        regs := Function.update cpu.regs .t0 cpu.mscratch
        mem := Function.update cpu.mem (cpu.regs .sp + offset) cpu.mscratch } := by
  have hsp : Function.update cpu.regs .t0 cpu.mscratch .sp = cpu.regs .sp :=
    Function.update_of_ne (by decide) ..
  simp only [List.foldl_cons, List.foldl_nil, Cpu.exec, Cpu.setReg, Function.update_self, hsp]

/-- The processor when `kernel_entry` is called. -/
theorem save_eq (cpu : Cpu) : saveRegisters.foldl Cpu.exec cpu =
    { cpu.onStack with
      regs := Function.update cpu.onStack.regs .t0 (cpu.regs .sp)
      mem := Function.update
        (writes (frameRegs.map fun r => (frameBase + r.offset, cpu.onStack.regs r)) cpu.mem)
        (frameBase + Reg.offset .sp) (cpu.regs .sp) } := by
  have hbase : cpu.onStack.regs .sp = frameBase := rfl
  rw [saveRegisters_eq, List.foldl_append, List.foldl_append, onStack_eq, exec_stores,
    exec_saveSp, hbase]
  rfl

/-- `kernel_entry` finds the registers in the frame. -/
theorem frame_save (cpu : Cpu) (r : Reg) :
    (saveRegisters.foldl Cpu.exec cpu).frame r.slot = cpu.regs r := by
  have hmem : (saveRegisters.foldl Cpu.exec cpu).mem = Function.update
      (writes (frameRegs.map fun r => (frameBase + r.offset, cpu.onStack.regs r)) cpu.mem)
      (frameBase + Reg.offset .sp) (cpu.regs .sp) := by
    rw [save_eq]
  rw [frame_slot, hmem]
  by_cases hr : r = .sp
  · rw [hr, Function.update_self]
  · have hne : frameBase + r.offset ≠ frameBase + Reg.offset .sp := by
      intro h
      apply sp_notMem_offsets
      rw [← add_left_cancel h]
      exact List.mem_map_of_mem (mem_frameRegs hr)
    rw [Function.update_of_ne hne, stores_word frameBase _ _ hr]
    exact Function.update_of_ne hr ..

theorem save_rest (cpu : Cpu) :
    (saveRegisters.foldl Cpu.exec cpu).regs .sp = frameBase ∧
      (saveRegisters.foldl Cpu.exec cpu).mepc = cpu.mepc := by
  rw [save_eq]
  exact ⟨rfl, rfl⟩

/-- A word of the frame that `kernel_entry` has written. -/
theorem withFrame_offset (mem : UInt32 → UInt32) (words : Fin 32 → UInt32) (r : Reg) :
    withFrame mem words (frameBase + r.offset) = words r.slot := by
  have hoff : ∀ n : Fin 32, (frameBase + 4 * UInt32.ofNat n.val - frameBase).toNat = 4 * n.val := by
    decide
  have hslot : Fin.ofNat 32 (4 * r.slot.val / 4) = r.slot := by
    rw [Nat.mul_div_cancel_left _ (by decide)]
    exact Fin.ofNat_val_eq_self r.slot
  have hcheck : 4 * r.slot.val % 4 = 0 ∧ 4 * r.slot.val < 128 := by omega
  show (if _ ∧ _ then _ else _) = _
  unfold Reg.offset
  rw [show egosStackTop - 128 = frameBase from rfl, hoff, if_pos hcheck, hslot]

/-- The processor before `mret`. -/
theorem restore_eq {base : UInt32} (hbase : cpu.regs .sp = base) :
    restoreRegisters.foldl Cpu.exec cpu =
      { cpu with
        regs := Function.update
          (writes (frameRegs.map fun r => (r, cpu.mem (base + r.offset))) cpu.regs)
          .sp (cpu.mem (base + Reg.offset .sp)) } := by
  -- `sp` is the base of all loads, and loaded last
  have hkept : writes (frameRegs.map fun r => (r, cpu.mem (base + r.offset))) cpu.regs .sp =
      base := by
    refine (writes_of_notMem ?_).trans hbase
    rw [List.map_map]
    exact (List.map_id frameRegs).symm ▸ sp_notMem_frameRegs
  rw [restoreRegisters_eq, List.foldl_append, exec_loads _ sp_notMem_frameRegs, hbase]
  simp only [List.foldl_cons, List.foldl_nil, Cpu.exec, Cpu.setReg, hkept]

/-- Every register is loaded from the frame. -/
theorem regs_restore (hsp : cpu.regs .sp = frameBase) (clobber : Cpu) (c : Context) (r : Reg) :
    (restoreRegisters.foldl Cpu.exec (cpu.afterKernelEntry clobber c)).regs r =
      c.registers r.slot := by
  have hbase : (cpu.afterKernelEntry clobber c).regs .sp = frameBase := hsp
  have hword : ∀ r : Reg, (cpu.afterKernelEntry clobber c).mem (frameBase + r.offset) =
      c.registers r.slot := withFrame_offset clobber.mem c.registers
  rw [restore_eq hbase]
  simp only [hword]
  by_cases hr : r = .sp
  · rw [hr, Function.update_self]
  · rw [Function.update_of_ne hr, loads_word _ _ hr]

theorem mepc_restore (hsp : cpu.regs .sp = frameBase) (clobber : Cpu) (c : Context) :
    (restoreRegisters.foldl Cpu.exec (cpu.afterKernelEntry clobber c)).mepc = c.mepc := by
  have hbase : (cpu.afterKernelEntry clobber c).regs .sp = frameBase := hsp
  rw [restore_eq hbase]
  rfl

/-! ## A trap -/

/-- The processor holds the context. -/
structure Cpu.Holds (cpu : Cpu) (c : Context) : Prop where
  pc : cpu.pc = c.mepc
  regs : ∀ r : Reg, cpu.regs r = c.registers r.slot

/-- A trap is `kernel_entry`, called with the context of the processor, and it leaves the
    processor with the context that `kernel_entry` returns. -/
theorem trapEntry_ok {passes : Nat} {mcause : UInt32} {key : Option UInt8} {cpu' : Cpu}
    {k k' : Kernel μ} (h : trapEntry passes mcause key clobber cpu k = .ok (k', cpu')) :
    ∃ c c', cpu.Holds c ∧ Kernel.kernelEntry passes mcause key c k = .ok (k', c') ∧
      cpu'.Holds c' := by
  obtain ⟨hsp, hmepc⟩ := save_rest { cpu with mepc := cpu.pc }
  have hframe := frame_save { cpu with mepc := cpu.pc }
  have htrap : trapEntry passes mcause key clobber cpu k =
      (let saved := saveRegisters.foldl Cpu.exec { cpu with mepc := cpu.pc }
      Kernel.kernelEntry passes mcause key ⟨saved.mepc, saved.frame⟩ k >>= fun kc =>
        let cpu := restoreRegisters.foldl Cpu.exec (saved.afterKernelEntry clobber kc.2)
        .ok (kc.1, { cpu with pc := cpu.mepc })) := rfl
  generalize saveRegisters.foldl Cpu.exec { cpu with mepc := cpu.pc } = saved at htrap hsp hmepc hframe
  rw [htrap] at h
  refine ⟨⟨saved.mepc, saved.frame⟩, ?_⟩
  dsimp only at h
  cases hentry : Kernel.kernelEntry passes mcause key ⟨saved.mepc, saved.frame⟩ k with
  | error e =>
    rw [hentry] at h
    cases h
  | ok kc =>
    rw [hentry] at h
    obtain ⟨rfl, rfl⟩ := Prod.mk.inj (Except.ok.inj h)
    refine ⟨kc.2, ⟨hmepc.symm, fun r => (hframe r).symm⟩, rfl, ?_, ?_⟩
    · exact mepc_restore hsp clobber kc.2
    · exact regs_restore hsp clobber kc.2

end Egos.Trap
