import Egos.Lib.Transition
import Egos.Trap.Context

/-!
# Trap Entry: Context Switching Is Transparent

Runs of traps, with process management in between. What the processes do between traps is
not restricted: the registers and the program counter at a trap are arbitrary, and part of its
label.

- `lastTrap`: the last trap of a process, since its pid was given out.
- `Kept`: while a process does not run, its slot holds the context of its last trap.
- `context_switch_transparent`: a process is resumed with the context of its last trap, and
  started with the context that `proc_yield` sets up.
-/

namespace Egos.Trap

open Egos.Lib Egos.Lib.Rendezvous Egos.Grass

variable {μ : Type} {k k' k₀ : Kernel μ} {i : Slot} {pid : Int}

/-! ## Runs of traps -/

/-- A trap of the process `pid`: the processor before it and when a process is resumed, and
    whether it was a system call. -/
structure TrapRecord where
  pid : Int
  syscall : Bool
  before : Cpu
  after : Cpu

/-- What happens in a run. -/
inductive Happening (μ : Type) where
  | trap (trap : TrapRecord)
  | manage (event : Event μ)

/-- A timer interrupt that is no ctrl+c, a system call, or a call of process management. -/
inductive Happens (k : Kernel μ) : Happening μ → Kernel μ → Prop where
  | tick {passes : Nat} {key : Option UInt8} {clobber before after : Cpu} {k' : Kernel μ}
      (hkey : ¬ (k.curr.pid ≥ gpidUserStart ∧ key = some 0x03))
      (h : trapEntry passes 0x80000007 key clobber before k = .ok (k', after)) :
      Happens k (.trap ⟨k.curr.pid, false, before, after⟩) k'
  | call {passes : Nat} {key : Option UInt8} {clobber before after : Cpu} {k' : Kernel μ}
      (c : Request Int Int μ)
      (h : trapEntry passes 0x80000003 key clobber before (k.request c) = .ok (k', after)) :
      Happens k (.trap ⟨k.curr.pid, true, before, after⟩) k'
  | manage {ev : Event μ} {k' : Kernel μ} (hnot : ∀ e, ev ≠ .entry e) (h : Evolves k ev k') :
      Happens k (.manage ev) k'

/-- The last trap of a process, after one more happening. -/
def nextTrap (pid : Int) (last : Option TrapRecord) : Happening μ → Option TrapRecord
  | .trap trap => if trap.pid = pid then some trap else last
  | .manage (.alloc pid') => if pid' = pid then none else last
  | .manage _ => last

/-- The last trap of a process; `proc_alloc` starts with a new process. -/
def lastTrap (pid : Int) (log : List (Happening μ)) : Option TrapRecord :=
  log.foldl (nextTrap pid) none

theorem lastTrap_concat (pid : Int) (log : List (Happening μ)) (h : Happening μ) :
    lastTrap pid (log ++ [h]) = nextTrap pid (lastTrap pid log) h := by
  rw [lastTrap, List.foldl_append]
  rfl

/-! ## What runs keep -/

/-- The context in which a process continues after the trap. -/
structure TrapRecord.Continues (trap : TrapRecord) (c : Context) : Prop where
  mepc : c.mepc = if trap.syscall then trap.before.pc + 4 else trap.before.pc
  regs : ∀ r : Reg, c.registers r.slot = trap.before.regs r

/-- A process that has trapped has run, and its slot holds its context unless it runs. -/
structure Kept (log : List (Happening μ)) (k : Kernel μ) : Prop where
  ordered : Ordered k
  started : ∀ (i : Slot) (trap : TrapRecord), lastTrap i.val log = some trap →
    (k.procSet i).status ≠ .ready ∧ (k.procSet i).status ≠ .loading
  saved : ∀ (i : Slot) (trap : TrapRecord), lastTrap i.val log = some trap → i ≠ k.currProcIdx →
    trap.Continues (contextOf (k.procSet i))

theorem kept_nil (h : Ordered k) : Kept [] k := by
  refine ⟨h, fun i trap hlast => ?_, fun i trap hlast => ?_⟩ <;> cases hlast

/-- A trap, seen from the kernel. -/
theorem Happens.trap {trap : TrapRecord} (h : Ordered k) (he : Happens k (.trap trap) k') :
    trap.pid = k.curr.pid ∧ (∃ e, Enters k e k') ∧ ∃ saved c : Context,
      Resumed k saved k' c ∧ trap.Continues saved ∧ trap.after.Holds c := by
  cases he with
  | tick hkey htrap =>
    obtain ⟨ctx, c, hbefore, hentry, hafter⟩ := trapEntry_ok htrap
    refine ⟨rfl, ⟨_, .tick hentry⟩, ctx, c, .tick h hkey hentry, ⟨hbefore.pc.symm, ?_⟩, hafter⟩
    exact fun r => (hbefore.regs r).symm
  | call request htrap =>
    obtain ⟨ctx, c, hbefore, hentry, hafter⟩ := trapEntry_ok htrap
    refine ⟨rfl, ⟨_, .call hentry⟩, _, c, .call h hentry, ⟨?_, ?_⟩, hafter⟩
    · exact congrArg (· + 4) hbefore.pc.symm
    · exact fun r => (hbefore.regs r).symm

theorem Ordered.pid_curr (h : Ordered k) : k.curr.pid = k.currProcIdx.val :=
  h.table.named _ h.loaded.1

/-- The processes of different slots are different. -/
theorem val_ne {i j : Slot} (hij : i ≠ j) : (i.val : Int) ≠ j.val :=
  fun h => hij (Fin.ext (Int.ofNat_inj.mp h))

theorem Kept.trap {log : List (Happening μ)} {trap : TrapRecord} (h : Kept log k)
    (he : Happens k (.trap trap) k') : Kept (log ++ [.trap trap]) k' := by
  obtain ⟨hpid, ⟨e, henters⟩, saved, c, hresumed, hsaved, _⟩ := Happens.trap h.ordered he
  obtain ⟨hordered, _, _, hmoved⟩ := h.ordered.enters henters
  rw [Ordered.pid_curr h.ordered] at hpid
  have hself : lastTrap k.currProcIdx.val (log ++ [.trap trap]) = some trap := by
    rw [lastTrap_concat, nextTrap, if_pos hpid]
  have hother : ∀ i : Slot, i ≠ k.currProcIdx →
      lastTrap i.val (log ++ [.trap trap]) = lastTrap i.val log := by
    intro i hi
    rw [lastTrap_concat, nextTrap, if_neg]
    rw [hpid]
    exact val_ne hi.symm
  refine ⟨hordered, fun i last hlast => ?_, fun i last hlast hi => ?_⟩
  · -- who has trapped was running; no entry makes it ready or loading again
    have hstarted : (k.procSet i).status ≠ .ready ∧ (k.procSet i).status ≠ .loading := by
      by_cases hcurr : i = k.currProcIdx
      · rw [hcurr, h.ordered.running]
        decide
      · rw [hother i hcurr] at hlast
        exact h.started i last hlast
    exact ⟨fun hc => hstarted.1 (hresumed.ready i hc),
      fun hc => hstarted.2 ((hmoved.use.loading i).mp hc)⟩
  · by_cases hcurr : i = k.currProcIdx
    · subst hcurr
      rw [hself] at hlast
      obtain rfl := Option.some.inj hlast
      -- this trap is its last one, and what it saved is still there
      rw [hresumed.saved hi.symm]
      exact hsaved
    · rw [hother i hcurr] at hlast
      rw [hresumed.others i hi hcurr]
      exact h.saved i last hlast hcurr

/-- Process management that leaves the contexts alone, and starts no process that has
    trapped. -/
theorem Kept.same {log : List (Happening μ)} {ev : Event μ} (h : Kept log k)
    (hordered : Ordered k') (hidx : k'.currProcIdx = k.currProcIdx)
    (hlast : ∀ (i : Slot) (last : TrapRecord),
      lastTrap i.val (log ++ [.manage ev]) = some last → lastTrap i.val log = some last)
    (hcontext : ∀ i, contextOf (k'.procSet i) = contextOf (k.procSet i))
    (hstarted : ∀ (i : Slot) (last : TrapRecord), lastTrap i.val (log ++ [.manage ev]) = some last →
      (k'.procSet i).status = .unused ∨ (k'.procSet i).status = (k.procSet i).status) :
    Kept (log ++ [.manage ev]) k' := by
  refine ⟨hordered, fun i last hi => ?_, fun i last hi hne => ?_⟩
  · rcases hstarted i last hi with hunused | hsame
    · rw [hunused]
      decide
    · rw [hsame]
      exact h.started i last (hlast i last hi)
  · rw [hcontext]
    rw [hidx] at hne
    exact h.saved i last (hlast i last hi) hne

theorem Kept.manage {log : List (Happening μ)} {ev : Event μ} (h : Kept log k)
    (hnot : ∀ e, ev ≠ .entry e) (he : Evolves k ev k') : Kept (log ++ [.manage ev]) k' := by
  have hordered := h.ordered.evolves he
  cases he with
  | entry => exact absurd rfl (hnot _)
  | @alloc pid _ halloc =>
    obtain ⟨j, _, _, rfl, rfl⟩ := procAlloc_ok halloc
    -- the process in the new slot has not trapped
    have hnew : ∀ (i : Slot) (last : TrapRecord),
        lastTrap i.val (log ++ [.manage (.alloc j.val)]) = some last →
          i ≠ j ∧ lastTrap i.val log = some last := by
      intro i last hi
      rw [lastTrap_concat, nextTrap] at hi
      split_ifs at hi with hij
      exact ⟨fun heq => hij (by rw [heq]), hi⟩
    refine h.same hordered rfl (fun i last hi => (hnew i last hi).2) (fun i => ?_)
      fun i last hi => .inr ?_
    · by_cases hij : i = j
      · rw [hij, Kernel.setProc_self]
        rfl
      · rw [k.setProc_of_ne _ hij]
    · rw [k.setProc_of_ne _ (hnew i last hi).1]
  | load hloading cleared =>
    refine h.same hordered rfl (fun i last hi => ?_) (fun _ => rfl) fun _ _ _ => .inr rfl
    rwa [lastTrap_concat] at hi
  | @ready pid hloading =>
    refine h.same hordered rfl (fun i last hi => ?_) (fun i => contextOf_withStatus ..)
      fun i last hi => .inr ?_
    · rwa [lastTrap_concat] at hi
    · rw [lastTrap_concat] at hi
      obtain ⟨j, rfl, hj⟩ := hloading
      have hused : (k.procSet j).status ≠ .unused := by
        rw [hj]
        decide
      refine congrArg Process.status (if_neg fun hc => ?_)
      -- the slot that is being loaded is another one
      rw [← h.ordered.table.eq_of_pid hused hc.2] at hj
      exact (h.started i last hi).2 hj
  | @free pid hother =>
    refine h.same hordered (procFree_rest k pid).1 (fun i last hi => ?_) (fun i => ?_)
      fun i last hi => ?_
    · rwa [lastTrap_concat] at hi
    · by_cases hfreed : Freed k.procSet pid i
      · rw [procFree_freed hfreed]
        rfl
      · rw [procFree_not_freed hfreed]
    · by_cases hfreed : Freed k.procSet pid i
      · rw [procFree_freed hfreed]
        exact .inl rfl
      · rw [procFree_not_freed hfreed]
        exact .inr rfl

theorem Kept.step {log : List (Happening μ)} {ev : Happening μ} (h : Kept log k)
    (he : Happens k ev k') : Kept (log ++ [ev]) k' := by
  cases ev with
  | trap trap => exact h.trap he
  | manage ev =>
    cases he with
    | manage hnot hev => exact h.manage hnot hev

theorem Kept.of_run {log : List (Happening μ)} (h : Ordered k₀) (hrun : Run Happens k₀ log k) :
    Kept log k :=
  hrun.invariant_log (kept_nil h) fun _ _ _ _ hk he => hk.step he

/-! ## Transparency -/

/-- Context switching is transparent. After every run, whenever a trap ends:

    - if the process that is resumed has trapped before, in this run and since its pid was
      given out, all of its registers hold what they held at its last trap, and it continues
      where it was interrupted, or behind the instruction of its system call;
    - if it was ready for its first run, it starts at `APPS_ENTRY` with the address of `argc` in
      `a0` and that of `argv` in `a1`. -/
theorem context_switch_transparent {log : List (Happening μ)} {trap : TrapRecord}
    (h : Ordered k₀) (hrun : Run Happens k₀ log k) (htrap : Happens k (.trap trap) k') :
    (∀ last, lastTrap k'.curr.pid (log ++ [.trap trap]) = some last →
      (∀ r, trap.after.regs r = last.before.regs r) ∧
        trap.after.pc = if last.syscall then last.before.pc + 4 else last.before.pc) ∧
    ((k.procSet k'.currProcIdx).status = .ready →
      trap.after.pc = appsEntry ∧ trap.after.regs .a0 = appsArg ∧
        trap.after.regs .a1 = appsArg + 4) := by
  have hkept := Kept.of_run h hrun
  obtain ⟨hpid, ⟨e, henters⟩, saved, c, hresumed, hsaved, hafter⟩ := Happens.trap hkept.ordered htrap
  obtain ⟨hordered, _⟩ := hkept.ordered.enters henters
  rw [Ordered.pid_curr hkept.ordered] at hpid
  refine ⟨fun last hlast => ?_, fun hready => ?_⟩
  · rw [Ordered.pid_curr hordered, lastTrap_concat, nextTrap, hpid] at hlast
    have hcontinues : last.Continues c := by
      by_cases hsame : k'.currProcIdx = k.currProcIdx
      · -- the process continues itself
        rw [hsame, if_pos rfl] at hlast
        obtain rfl := Option.some.inj hlast
        rw [hresumed.own hsame]
        exact hsaved
      · rw [if_neg (val_ne fun heq => hsame heq.symm)] at hlast
        rw [hresumed.again hsame (hkept.started _ last hlast).1]
        exact hkept.saved _ last hlast hsame
    refine ⟨fun r => ?_, hafter.pc.trans hcontinues.mepc⟩
    rw [hafter.regs, hcontinues.regs]
  · obtain ⟨hmepc, h0, h1⟩ := hresumed.first hready
    exact ⟨hafter.pc.trans hmepc, (hafter.regs .a0).trans h0, (hafter.regs .a1).trans h1⟩

/-- A processor with one value in all registers. -/
def plainCpu (value pc : UInt32) : Cpu := ⟨fun _ => value, 0, 0, pc, fun _ => 0⟩

/-- A timer interrupt with this processor. -/
def trapAct (k : Kernel Nat) (cpu : Cpu) : Option (TrapRecord × Kernel Nat) :=
  (trapEntry 2 0x80000007 none cpu cpu k).toOption.map fun r =>
    (⟨k.curr.pid, false, cpu, r.2⟩, r.1)

theorem trapAct_eq_some {k k' : Kernel Nat} {cpu : Cpu} {trap : TrapRecord}
    (h : trapAct k cpu = some (trap, k')) :
    Happens k (.trap trap) k' ∧ trap.pid = k.curr.pid ∧ trap.syscall = false ∧
      trap.before = cpu := by
  obtain ⟨⟨k₁, after⟩, htrap, heq⟩ := Option.map_eq_some_iff.mp h
  obtain ⟨rfl, rfl⟩ := Prod.mk.inj heq
  have hkey : ¬ (k.curr.pid ≥ gpidUserStart ∧ (none : Option UInt8) = some 0x03) :=
    fun hkill => nomatch hkill.2
  cases hentry : trapEntry 2 0x80000007 none cpu cpu k with
  | error e =>
    rw [hentry] at htrap
    cases htrap
  | ok r =>
    rw [hentry] at htrap
    obtain rfl := Option.some.inj htrap
    exact ⟨.tick hkey hentry, rfl, rfl, rfl⟩

/-- Process 1 is interrupted, and process 2 goes on. -/
def tickedOnce : Kernel Nat :=
  ((trapAct (quietKernel 2) (plainCpu 7 100)).map Prod.snd).getD (quietKernel 2)

/-- Then process 2 is interrupted, and process 1 is resumed. -/
theorem context_switch_transparent_pair : ∃ first second k,
    trapAct (quietKernel 2) (plainCpu 7 100) = some (first, tickedOnce) ∧
    trapAct tickedOnce (plainCpu 8 200) = some (second, k) ∧ k.curr.pid = 1 ∧
    second.after.regs .s0 = 7 ∧ second.after.pc = 100 := by
  have hsome : (trapAct (quietKernel 2) (plainCpu 7 100)).isSome = true := by decide +kernel
  obtain ⟨⟨first, k₁⟩, hfirst⟩ := Option.isSome_iff_exists.mp hsome
  obtain rfl : tickedOnce = k₁ := by
    rw [tickedOnce, hfirst]
    rfl
  have hpids : tickedOnce.curr.pid = 2 ∧
      (trapAct tickedOnce (plainCpu 8 200)).map (fun r => r.2.curr.pid) = some 1 := by
    decide +kernel
  obtain ⟨⟨second, k⟩, hsecond, hresumed⟩ := Option.map_eq_some_iff.mp hpids.2
  obtain ⟨hhappens, hpid, hsyscall, hbefore⟩ := trapAct_eq_some hfirst
  obtain ⟨hhappens', hpid', _⟩ := trapAct_eq_some hsecond
  obtain ⟨hlast, _⟩ :=
    context_switch_transparent start_pair.inv.ordered (.snoc .nil hhappens) hhappens'
  -- the last trap of process 1 is the first one
  obtain ⟨hregs, hpc⟩ := hlast first (by
    rw [lastTrap_concat, lastTrap_concat, nextTrap, nextTrap, hpid, hpid', hpids.1, hresumed]
    rfl)
  rw [hbefore] at hregs hpc
  rw [hsyscall] at hpc
  exact ⟨first, second, k, hfirst, hsecond, hresumed, hregs .s0, hpc⟩

end Egos.Trap
