import Egos.Grass.Lifecycle

/-!
# The Grass Kernel: The Last Slot

The loops over `proc_set` do not agree on its range. `proc_alloc` goes from slot 1 to slot
`MAX_NPROCESS`. `proc_set_status`, `proc_try_send`, `round_robin` and `proc_free` stop at
slot `MAX_NPROCESS - 1`. So a process in the last slot can be created, and then neither be
made ready, nor run, nor be sent a message, nor be freed.

`manageable_iff` says that this is the only exception: a process that `proc_alloc` creates
can be managed exactly if one of the slots `1..MAX_NPROCESS-1` was not in use.
-/

namespace Egos.Grass

open Egos.Lib

variable {μ : Type} {k k' : Kernel μ} {i j : Slot}

/-! ## What it means to manage a process -/

/-- A call of `proc_alloc`. -/
def Allocates (k : Kernel μ) (pid : Int) (k' : Kernel μ) : Prop := k.procAlloc = .ok (pid, k')

/-- Calls of `proc_alloc` return this slot. -/
def Reusable (k : Kernel μ) (i : Slot) : Prop :=
  ∃ pids k', Run Allocates k pids k' ∧ (i.val : Int) ∈ pids

/-- The slot is reached by all functions that work on a process. -/
structure ManageableSlot (k : Kernel μ) (i : Slot) : Prop where
  /-- `proc_set_ready` makes it ready. -/
  ready : ((k.procSetReady i.val).procSet i).status = .ready
  /-- Ready, and with no other slot ready or runnable, it is selected. -/
  selected : ∀ c : Kernel μ, c.procSet i = (k.procSetReady i.val).procSet i →
    (∀ j ≠ i, (c.procSet j).status ≠ .ready ∧ (c.procSet j).status ≠ .runnable) →
    c.roundRobin = i
  /-- A send to its pid finds it, whatever the other slots hold. -/
  found : ∀ (c : Kernel μ) (sender : Slot), (c.procSet i).pid = (k.procSet i).pid →
    (c.procSet i).status = (k.procSet i).status → (c.procSet sender).syscall.receiver = i.val →
    ∀ e, c.procTrySend sender ≠ .error e
  /-- `proc_free` makes it unused, and it can be allocated again. -/
  freed : ((k.procFree i.val).procSet i).status = .unused ∧ Reusable (k.procFree i.val) i
  /-- So does `proc_free(GPID_ALL)`, for user processes. -/
  freedAll : (i.val : Int) ≥ gpidUserStart →
    ((k.procFree gpidAll).procSet i).status = .unused ∧ Reusable (k.procFree gpidAll) i

/-- The process can be managed in the slot that has its pid as index. -/
def Manageable (k : Kernel μ) (pid : Int) : Prop := ∃ i : Slot, pid = i.val ∧ ManageableSlot k i

/-! ## Allocation -/

theorem mem_allocOrder : i ∈ Kernel.allocOrder ↔ i ≠ 0 := by
  simp only [Kernel.allocOrder, List.mem_map, List.mem_finRange, true_and]
  constructor
  · rintro ⟨j, rfl⟩
    exact Fin.succ_ne_zero j
  · intro hne
    exact ⟨i.pred hne, Fin.succ_pred i hne⟩

theorem sorted_allocOrder : Kernel.allocOrder.Pairwise (· < ·) := by decide

/-- The search of `proc_alloc` stops at the first slot that is not in use. -/
theorem find_unused_le
    (hfind : (Kernel.allocOrder.find? fun j => decide ((k.procSet j).status = .unused)) = some j)
    (hi : i ≠ 0) (hunused : (k.procSet i).status = .unused) : j ≤ i := by
  obtain ⟨_, before, after, happ, hbefore⟩ := List.find?_eq_some_iff_append.mp hfind
  have hsorted := sorted_allocOrder
  have hmem := mem_allocOrder.mpr hi
  rw [happ] at hsorted hmem
  -- slot `i` is not before the one found
  rcases List.mem_append.mp hmem with hin | hin
  · have hused := hbefore i hin
    simp [hunused] at hused
  · rcases List.mem_cons.mp hin with rfl | hlater
    · exact le_refl i
    · exact le_of_lt (List.rel_of_pairwise_cons (List.pairwise_append.mp hsorted).2.1 hlater)

theorem procAlloc_le {pid : Int} (halloc : k.procAlloc = .ok (pid, k')) (hi : i ≠ 0)
    (hunused : (k.procSet i).status = .unused) : pid ≤ i.val := by
  rw [Kernel.procAlloc] at halloc
  cases hfind : Kernel.allocOrder.find? fun j => decide ((k.procSet j).status = .unused) with
  | none =>
    rw [hfind] at halloc
    cases halloc
  | some j =>
    rw [hfind] at halloc
    obtain ⟨rfl, _⟩ := Prod.mk.inj (Except.ok.inj halloc)
    exact Int.ofNat_le.mpr (find_unused_le hfind hi hunused)

/-- `proc_alloc` returns the first slot that is not in use. -/
theorem procAlloc_first (hi : i ≠ 0) (hunused : (k.procSet i).status = .unused)
    (hbelow : ∀ j, j ≠ 0 → j < i → (k.procSet j).status ≠ .unused) :
    k.procAlloc = .ok (i.val, k.setProc i { k.procSet i with pid := i.val, status := .loading }) := by
  rw [Kernel.procAlloc]
  cases hfind : Kernel.allocOrder.find? fun j => decide ((k.procSet j).status = .unused) with
  | none =>
    have hnone := List.find?_eq_none.mp hfind i (mem_allocOrder.mpr hi)
    simp [hunused] at hnone
  | some j =>
    have hj0 : j ≠ 0 := mem_allocOrder.mp (List.mem_of_find?_eq_some hfind)
    have hj := List.find?_some hfind
    simp only [decide_eq_true_eq] at hj
    obtain hlt | rfl := lt_or_eq_of_le (find_unused_le hfind hi hunused)
    · exact absurd hj (hbelow j hj0 hlt)
    · rfl

/-- A slot that is not in use is returned once those below it are in use. -/
theorem reusable_of_below (m d : Nat) (hm : 0 < m) (hmd : m + d = i.val)
    (hunused : (k.procSet i).status = .unused)
    (hbelow : ∀ j : Slot, j ≠ 0 → j.val < m → (k.procSet j).status ≠ .unused) : Reusable k i := by
  induction d generalizing k m with
  | zero =>
    have hi : i ≠ 0 := by
      rintro rfl
      simp at hmd
      omega
    have halloc := procAlloc_first hi hunused fun j hj0 hj => hbelow j hj0 (by
      have hval : j.val < i.val := hj
      omega)
    exact ⟨_, _, .snoc .nil halloc, by simp⟩
  | succ d ih =>
    have hlt : m < 17 := by
      have hbound := i.isLt
      omega
    by_cases hused : (k.procSet ⟨m, hlt⟩).status = .unused
    · -- slot `m` is the first one that is not in use, so it is allocated now
      have hm0 : (⟨m, hlt⟩ : Slot) ≠ 0 := by
        intro heq
        have hval : m = 0 := congrArg Fin.val heq
        omega
      have halloc := procAlloc_first hm0 hused fun j hj0 hj => hbelow j hj0 hj
      have hi : i ≠ ⟨m, hlt⟩ := by
        rintro rfl
        simp at hmd
      obtain ⟨pids, k₁, hrun, hmem⟩ := ih (k := k.setProc ⟨m, hlt⟩
          { k.procSet ⟨m, hlt⟩ with pid := m, status := .loading }) (m + 1) (by omega) (by omega)
        (by rw [k.setProc_of_ne _ hi]; exact hunused) (by
          intro j hj0 hj
          by_cases hjm : j = ⟨m, hlt⟩
          · rw [hjm, Kernel.setProc_self]
            exact ProcStatus.noConfusion
          · have hne : j.val ≠ m := fun heq => hjm (Fin.ext heq)
            rw [k.setProc_of_ne _ hjm]
            exact hbelow j hj0 (by omega))
      exact ⟨_, k₁, hrun.cons halloc, List.mem_cons_of_mem _ hmem⟩
    · refine ih (m + 1) (by omega) (by omega) hunused fun j hj0 hj => ?_
      by_cases hjm : j = ⟨m, hlt⟩
      · rw [hjm]
        exact hused
      · have hne : j.val ≠ m := fun heq => hjm (Fin.ext heq)
        exact hbelow j hj0 (by omega)

theorem reusable_of_unused (hi : i ≠ 0) (hunused : (k.procSet i).status = .unused) :
    Reusable k i := by
  have hpos : 0 < i.val := Nat.pos_of_ne_zero fun h0 => hi (Fin.ext h0)
  refine reusable_of_below 1 (i.val - 1) (by omega) (by omega) hunused fun j hj0 hj => ?_
  exact absurd (Fin.ext (show j.val = 0 by omega)) hj0

/-! ## The slots below the last one -/

/-- The only slot that can run is selected. -/
theorem roundRobin_only (hlt : i.val < 16) (hready : (k.procSet i).status = .ready)
    (hothers : ∀ j ≠ i, (k.procSet j).status ≠ .ready ∧ (k.procSet j).status ≠ .runnable) :
    k.roundRobin = i := by
  rw [Kernel.roundRobin]
  cases hfind : (Kernel.cyclicOrder k.currProcIdx).find? fun j =>
      decide ((k.procSet j).status = .ready ∨ (k.procSet j).status = .runnable) with
  | none =>
    have hnone := List.find?_eq_none.mp hfind i (mem_cyclicOrder _ hlt)
    simp [hready] at hnone
  | some j =>
    have hj := List.find?_some hfind
    simp only [decide_eq_true_eq] at hj
    by_contra hne
    obtain ⟨hnotReady, hnotRunnable⟩ := hothers j hne
    exact hj.elim hnotReady hnotRunnable

/-- `proc_try_send` stops the machine only if it finds no receiver. -/
theorem procTrySend_ne_error {sender : Slot} (hlt : i.val < 16) (hpid : (k.procSet i).pid = i.val)
    (hused : (k.procSet i).status ≠ .unused)
    (hreceiver : (k.procSet sender).syscall.receiver = i.val) (e : Stop) :
    k.procTrySend sender ≠ .error e := by
  rw [Kernel.procTrySend_eq, hreceiver]
  cases hfind : k.findReceiver i.val with
  | none => exact absurd ⟨i, hlt, hpid, hused⟩ (not_inUse_of_findReceiver hfind)
  | some j =>
    dsimp only
    split_ifs <;> exact nofun

/-- A process that has just been allocated below the last slot can be managed. -/
theorem manageableSlot_of_lt (hi : i ≠ 0) (hlt : i.val < 16)
    (hpid : (k.procSet i).pid = i.val) (hloading : (k.procSet i).status = .loading) :
    ManageableSlot k i := by
  have hused : (k.procSet i).status ≠ .unused := by
    rw [hloading]
    decide
  have hready : ((k.procSetReady i.val).procSet i).status = .ready :=
    congrArg Process.status (if_pos ⟨hlt, hpid⟩)
  have hnotAll : (i.val : Int) ≠ gpidAll := by
    rw [gpidAll]
    omega
  have hfreed : Freed k.procSet i.val i := ⟨hlt, by rw [if_pos hnotAll]; exact hpid⟩
  have hunused := congrArg Process.status (procFree_freed hfreed)
  refine ⟨hready, ?_, ?_, ⟨hunused, reusable_of_unused hi hunused⟩, fun huser => ?_⟩
  · intro c hc hothers
    exact roundRobin_only hlt (by rw [hc]; exact hready) hothers
  · intro c sender hcpid hcstatus hreceiver
    exact procTrySend_ne_error hlt (hcpid.trans hpid) (by rw [hcstatus]; exact hused) hreceiver
  · have hfreedAll : Freed k.procSet gpidAll i := by
      refine ⟨hlt, ?_⟩
      rw [if_neg (not_not.mpr rfl), hpid]
      exact ⟨huser, hused⟩
    have hunusedAll := congrArg Process.status (procFree_freed hfreedAll)
    exact ⟨hunusedAll, reusable_of_unused hi hunusedAll⟩

/-- A process that is being loaded in the last slot never becomes ready. -/
theorem not_manageableSlot_last (hloading : (k.procSet 16).status = .loading) :
    ¬ ManageableSlot k 16 := by
  intro h
  have hsame : Kernel.withStatus k.procSet (16 : Slot).val .ready 16 = k.procSet 16 :=
    if_neg fun hc => absurd hc.1 (by decide)
  have hready : (Kernel.withStatus k.procSet (16 : Slot).val .ready 16).status = .ready := h.ready
  rw [hsame, hloading] at hready
  cases hready

/-- Every process that can be created can be managed, but for the last slot. In every state,
    and for every pid that `proc_alloc` returns in it: `proc_set_ready` makes the slot ready,
    `round_robin` selects it if no other slot can run, `proc_try_send` finds it, and
    `proc_free` releases it for another `proc_alloc`, if and only if one of the slots
    `1..MAX_NPROCESS-1` is not in use. -/
theorem manageable_iff {pid : Int} (halloc : k.procAlloc = .ok (pid, k')) :
    Manageable k' pid ↔ ∃ i : Slot, 0 < i.val ∧ i.val < 16 ∧ (k.procSet i).status = .unused := by
  obtain ⟨j, hj0, hj, hpid, rfl⟩ := procAlloc_ok halloc
  have hself := k.setProc_self j { k.procSet j with pid := j.val, status := .loading }
  have hloading : ((k.setProc j { k.procSet j with
      pid := j.val, status := .loading }).procSet j).status = .loading := by
    rw [hself]
  constructor
  · rintro ⟨i, hi, hmanage⟩
    obtain rfl : i = j := Fin.ext (Int.ofNat_inj.mp (hi.symm.trans hpid))
    refine ⟨i, Nat.pos_of_ne_zero fun h0 => hj0 (Fin.ext h0), ?_, hj⟩
    by_contra hge
    have hbound := i.isLt
    obtain rfl : i = 16 := Fin.ext (show i.val = 16 by omega)
    exact not_manageableSlot_last hloading hmanage
  · rintro ⟨i, hpos, hlt, hunused⟩
    have hi0 : i ≠ 0 := by
      rintro rfl
      exact absurd hpos (by decide)
    -- the slot that is returned is the first one not in use, so it is not after slot `i`
    have hle := procAlloc_le halloc hi0 hunused
    rw [hpid] at hle
    refine ⟨j, hpid, manageableSlot_of_lt hj0 (by omega) ?_ hloading⟩
    rw [hself]

theorem manageable_first : Manageable ((quietKernel 1).setProc 2
    { (quietKernel 1).procSet 2 with pid := 2, status := .loading }) 2 :=
  (manageable_iff (k := quietKernel 1) rfl).mpr ⟨2, by decide, by decide, by decide⟩

/-! Sixteen processes. -/

/-- The events of 14 calls of `proc_alloc` by process 1, and the state after them. -/
def fullTable : List (Event Nat) × Kernel Nat :=
  executed Kernel.perform (List.replicate 14 .alloc) (quietKernel 1)

/-- The state after one more call. -/
def overfullTable : Kernel Nat :=
  fullTable.2.setProc 16 { fullTable.2.procSet 16 with pid := 16, status := .loading }

/-- The next pid is 16. `proc_set_ready` does not make that process ready, a send to it stops
    the machine, and `proc_free` does not release it. -/
theorem last_slot_not_manageable :
    Run Evolves (quietKernel 1) fullTable.1 fullTable.2 ∧
      fullTable.2.procAlloc = .ok (16, overfullTable) ∧ ¬ Manageable overfullTable 16 ∧
      ((overfullTable.procSetReady 16).procSet 16).status = .loading ∧
      overfullTable.findReceiver 16 = none ∧
      ((overfullTable.procFree 16).procSet 16).status = .loading ∧
      ((overfullTable.procFree gpidAll).procSet 16).status = .loading := by
  have hrun : Run Evolves (quietKernel 1) fullTable.1 fullTable.2 :=
    run_executed (fun _ _ _ _ => evolves_of_perform) (by decide +kernel)
  have halloc : fullTable.2.procAlloc = .ok (16, overfullTable) :=
    procAlloc_first (k := fullTable.2) (i := 16) (by decide) (by decide +kernel) (by decide +kernel)
  refine ⟨hrun, halloc, ?_, by decide +kernel, by decide +kernel, by decide +kernel,
    by decide +kernel⟩
  rintro ⟨i, hi, hmanage⟩
  obtain rfl : i = 16 := Fin.ext (Int.ofNat_inj.mp hi.symm)
  exact not_manageableSlot_last (by decide +kernel) hmanage

end Egos.Grass
