import Egos.Grass.Entry
import Egos.Lib.CyclicScan
import Mathlib.Data.List.TakeWhile

/-!
# The Grass Kernel: Bounded Bypass

`round_robin` takes the first slot behind the current one that is ready or runnable. A slot that
stays so is passed over by each other slot at most once, whatever happens to the other slots
between the decisions.

The measure is the number of slots between the current one and the slot that waits: each
decision for another slot makes it smaller (`Egos.Lib.CyclicScan`).
-/

namespace Egos.Grass

open Egos.Lib

variable {μ : Type} {k k' k₀ : Kernel μ} {i j : Slot}

/-! ## One decision -/

/-- `round_robin` may choose the slot. -/
def Selectable (k : Kernel μ) (i : Slot) : Prop :=
  (k.procSet i).status = .ready ∨ (k.procSet i).status = .runnable

instance (k : Kernel μ) (i : Slot) : Decidable (Selectable k i) :=
  inferInstanceAs (Decidable (_ ∨ _))

/-- A scheduling decision while the slot `j` may be chosen. Behind it, all but `curr_proc_idx` may
    change before the next one. -/
structure Decides (j : Slot) (k : Kernel μ) (next : Slot) (k' : Kernel μ) : Prop where
  selectable : Selectable k j
  next_eq : next = k.roundRobin
  curr : k'.currProcIdx = next

/-- `proc_yield` makes such a decision. -/
theorem decides_of_yieldIn {k'' : Kernel μ} (hj : Selectable k j) (h : k.yieldIn = .ok k')
    (hcurr : k''.currProcIdx = k'.currProcIdx) : Decides j k k'.currProcIdx k'' := by
  refine ⟨hj, ?_, hcurr⟩
  unfold Kernel.yieldIn at h
  dsimp only at h
  split_ifs at h
  obtain rfl := Except.ok.inj h
  rfl

/-- The slot that is chosen is not behind `j` in the order of the scan. -/
theorem roundRobin_turnsTo (hlt : j.val < 16) (hj : Selectable k j) :
    k.roundRobin.val < 16 ∧
      turnsTo 16 k.currProcIdx.val k.roundRobin.val ≤ turnsTo 16 k.currProcIdx.val j.val := by
  have hval : ∀ x < 16, (Fin.ofNat 17 x).val = x := fun x hx => Nat.mod_eq_of_lt (by omega)
  have hp : decide (Selectable k (Fin.ofNat 17 j.val)) = true := by
    rw [Fin.ofNat_val_eq_self]
    exact decide_eq_true hj
  obtain ⟨x, hfind, hx, _, hle⟩ := find?_cyclicScan (c := k.currProcIdx.val)
    (p := fun x => decide (Selectable k (Fin.ofNat 17 x))) hlt hp
  have hchosen : k.roundRobin = Fin.ofNat 17 x := by
    unfold Kernel.roundRobin
    rw [cyclicOrder_eq_map, List.find?_map]
    show (((cyclicScan 16 k.currProcIdx.val).find? fun x =>
      decide (Selectable k (Fin.ofNat 17 x))).map (Fin.ofNat 17)).getD _ = _
    rw [hfind]
    rfl
  rw [hchosen, hval x hx]
  exact ⟨hx, hle⟩

/-! ## Sequences of decisions -/

/-- What is known as long as `j` is not chosen: every slot that was chosen is farther away from `j`
    than the current one, and there were not more decisions than slots on the way. -/
structure Nearing (k₀ : Kernel μ) (j : Slot) (log : List Slot) (k : Kernel μ) : Prop where
  nodup : log.Nodup
  farther : ∀ i ∈ log, turnsTo 16 k.currProcIdx.val j.val ≤ turnsTo 16 i.val j.val
  count : log.length + turnsTo 16 k.currProcIdx.val j.val ≤ turnsTo 16 k₀.currProcIdx.val j.val

theorem Nearing.step {log : List Slot} (h : Nearing k₀ j log k) (hlt : j.val < 16)
    (hstep : Decides j k i k') (hne : i ≠ j) : Nearing k₀ j (log ++ [i]) k' := by
  obtain ⟨hi, hle⟩ := roundRobin_turnsTo hlt hstep.selectable
  rw [← hstep.next_eq] at hi hle
  have hnearer := turnsTo_lt_turnsTo hi hlt (fun heq => hne (Fin.ext heq)) hle
  refine ⟨List.nodup_append.mpr ⟨h.nodup, List.nodup_singleton i, ?_⟩, ?_, ?_⟩
  · intro a ha b hb
    rw [List.mem_singleton.mp hb]
    rintro rfl
    have hfar := h.farther a ha
    omega
  · rw [hstep.curr]
    intro a ha
    rcases List.mem_append.mp ha with ha | ha
    · have hfar := h.farther a ha
      omega
    · rw [List.mem_singleton.mp ha]
  · rw [hstep.curr, List.length_append, List.length_singleton]
    have hcount := h.count
    omega

/-- The state of a sequence of decisions: `j` was chosen in time, or it is coming nearer. -/
structure Fair (k₀ : Kernel μ) (j : Slot) (log : List Slot) (k : Kernel μ) : Prop where
  lt : ∀ i ∈ log, i.val < maxNprocess
  once : (log.takeWhile (· ≠ j)).Nodup
  chosen : j ∈ log → j ∈ log.take maxNprocess
  nearing : j ∉ log → Nearing k₀ j log k

theorem Fair.start (k₀ : Kernel μ) (j : Slot) : Fair k₀ j [] k₀ :=
  ⟨by simp, by simp, by simp, fun _ => ⟨List.nodup_nil, by simp, by simp⟩⟩

theorem Fair.step {log : List Slot} (h : Fair k₀ j log k) (hlt : j.val < 16)
    (hstep : Decides j k i k') : Fair k₀ j (log ++ [i]) k' := by
  have hall : ∀ a ∈ log ++ [i], a.val < maxNprocess := by
    intro a ha
    rcases List.mem_append.mp ha with ha | ha
    · exact h.lt a ha
    · rw [List.mem_singleton.mp ha, hstep.next_eq]
      exact (roundRobin_turnsTo hlt hstep.selectable).1
  by_cases hmem : j ∈ log
  · -- later decisions do not matter
    refine ⟨hall, ?_, fun _ => ?_, fun hnot => absurd (List.mem_append_left _ hmem) hnot⟩
    · have hsame : (log ++ [i]).takeWhile (· ≠ j) = log.takeWhile (· ≠ j) := by
        rw [List.takeWhile_append, if_neg]
        intro hlength
        have hwhole := (List.takeWhile_prefix (fun a => decide (a ≠ j)) (l := log)).eq_of_length
          hlength
        rw [← hwhole] at hmem
        simpa using List.mem_takeWhile_imp hmem
      rw [hsame]
      exact h.once
    · rw [List.take_append]
      exact List.mem_append_left _ (h.chosen hmem)
  · have hnear := h.nearing hmem
    have hlog : ∀ a ∈ log, decide (a ≠ j) = true := by
      intro a ha
      rw [decide_eq_true_iff]
      rintro rfl
      exact hmem ha
    by_cases hij : i = j
    · subst hij
      refine ⟨hall, ?_, fun _ => ?_, fun hnot => absurd (by simp) hnot⟩
      · rw [List.takeWhile_append_of_pos hlog]
        simpa using hnear.nodup
      · -- at most fifteen slots were on the way
        have hcount := hnear.count
        have hbound := turnsTo_lt (N := 16) (c := k₀.currProcIdx.val) hlt
        rw [List.take_of_length_le]
        · simp
        · rw [List.length_append, List.length_singleton, maxNprocess]
          omega
    · have hnext := hnear.step hlt hstep hij
      have hnot : j ∉ log ++ [i] := by
        simp [hmem, Ne.symm hij]
      refine ⟨hall, ?_, fun hin => absurd hin hnot, fun _ => hnext⟩
      exact hnext.nodup.sublist (List.takeWhile_sublist _)

/-- Bounded bypass. In every sequence of decisions during which the slot `j` may be chosen, while
    the other slots change in any way:

    - every decision finds a process to run;
    - until `j` is chosen, no other slot is chosen twice;
    - `j` is chosen at the latest in the sixteenth decision. -/
theorem bounded_bypass {log : List Slot} (hj : j.val < maxNprocess)
    (hrun : Run (Decides j) k₀ log k) :
    (∀ i ∈ log, i.val < maxNprocess) ∧ (log.takeWhile (· ≠ j)).Nodup ∧
      (maxNprocess ≤ log.length → j ∈ log.take maxNprocess) := by
  have hfair : Fair k₀ j log k := hrun.invariant_log (Fair.start k₀ j)
    fun _ _ _ _ h hstep => h.step hj hstep
  refine ⟨hfair.lt, hfair.once, fun hlength => ?_⟩
  by_contra hnot
  have hmem : j ∉ log := fun hin => hnot (hfair.chosen hin)
  have hcount := (hfair.nearing hmem).count
  have hbound : turnsTo 16 k₀.currProcIdx.val j.val < 16 := turnsTo_lt hj
  have hmax : maxNprocess = 16 := rfl
  omega

/-- All processes are runnable, the current one too. -/
def runnableKernel (curr : Slot) : Kernel Unit where
  procSet i := ⟨i.val, ⟨.recv, 0, 0, (), .done⟩, .runnable, 0, fun _ => 0⟩
  currProcIdx := curr
  currVmPid := curr.val
  area _ := ⟨.recv, 0, 0, (), .done⟩
  actions := []

theorem decides_runnableKernel (hj : j.val < 16) (curr : Slot) :
    Decides j (runnableKernel curr) (runnableKernel curr).roundRobin
      (runnableKernel (runnableKernel curr).roundRobin) := by
  obtain ⟨hlt, _⟩ := roundRobin_turnsTo (k := runnableKernel curr) hj (.inr rfl)
  have hyield : ∃ k', (runnableKernel curr).yieldIn = .ok k' ∧
      k'.currProcIdx = (runnableKernel curr).roundRobin := ⟨_, if_neg (not_not_intro hlt), rfl⟩
  obtain ⟨k', hok, hnext⟩ := hyield
  rw [← hnext]
  exact decides_of_yieldIn (.inr rfl) hok rfl

/-- The slots behind the slot 1, up to itself. -/
def onceAround : List Slot := [2, 3, 4, 5, 6, 7, 8, 9, 10, 11, 12, 13, 14, 15, 0, 1]

/-- The current slot comes last, in the sixteenth decision. -/
theorem bounded_bypass_around :
    Run (Decides 1) (runnableKernel 1) onceAround (runnableKernel 1) ∧
      (onceAround.takeWhile (· ≠ 1)).Nodup ∧ 1 ∈ onceAround.take maxNprocess := by
  have hrun : Run (Decides 1) (runnableKernel 1) onceAround (runnableKernel 1) := by
    unfold onceAround
    iterate 16 refine .cons (decides_runnableKernel (by decide) _) ?_
    exact .nil
  obtain ⟨_, hnodup, hsoon⟩ := bounded_bypass (by decide) hrun
  exact ⟨hrun, hnodup, hsoon (by decide)⟩

end Egos.Grass
