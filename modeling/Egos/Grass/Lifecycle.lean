import Egos.Grass.Rendezvous
import Egos.Grass.Stale

/-!
# The Grass Kernel: Processes Come and Go

Runs in which the running process also calls the functions of process management, as
`sys_proc` does: `proc_alloc`, `elf_load` and `proc_set_ready` for a new process, and
`proc_free` for another one. A slot, and with it a pid, may be used again and again.

- `Ordered.evolves`: every event keeps `Ordered`.
- `Inv.evolves`: if `proc_alloc` takes no slot with an open receive in it, `Inv` is kept as
  well.
- `message_to_own_receive`: under this condition a message is only ever given to a receive
  that the process itself has made.

`Kernel.perform` executes single events, so that runs can be evaluated (`Egos.Lib.Execute`).
-/

namespace Egos.Grass

open Egos.Lib Egos.Lib.Rendezvous

variable {μ : Type} {k k' k₀ : Kernel μ} {i : Slot}

/-! ## Events -/

/-- `elf_load`, as far as the kernel is concerned: the page with the system call record is a
    new one, which `mmu_alloc` has cleared. -/
def Kernel.elfLoad (k : Kernel μ) (pid : Int) (cleared : Syscall μ) : Kernel μ :=
  { k with area := Function.update k.area pid cleared }

/-- An entry of the kernel, or a call of process management. -/
inductive Event (μ : Type) where
  | entry (e : Entry μ)
  | alloc (pid : Int)
  | load (pid : Int)
  | ready (pid : Int)
  | free (pid : Int)

/-- The process has been allocated and is not ready yet. -/
def IsLoading (k : Kernel μ) (pid : Int) : Prop :=
  ∃ i : Slot, (k.procSet i).pid = pid ∧ (k.procSet i).status = .loading

instance (k : Kernel μ) (pid : Int) : Decidable (IsLoading k pid) :=
  inferInstanceAs (Decidable (∃ _ : Slot, _))

/-- The running process does not free itself. -/
def FreesOther (k : Kernel μ) (pid : Int) : Prop :=
  pid ≠ k.curr.pid ∧ (pid = gpidAll → k.curr.pid < gpidUserStart)

instance (k : Kernel μ) (pid : Int) : Decidable (FreesOther k pid) :=
  inferInstanceAs (Decidable (_ ∧ _))

/-- What may happen while user code runs. -/
inductive Evolves (k : Kernel μ) : Event μ → Kernel μ → Prop where
  | entry {e : Entry μ} {k' : Kernel μ} (h : Enters k e k') : Evolves k (.entry e) k'
  | alloc {pid : Int} {k' : Kernel μ} (h : k.procAlloc = .ok (pid, k')) : Evolves k (.alloc pid) k'
  | load {pid : Int} (h : IsLoading k pid) (cleared : Syscall μ) :
      Evolves k (.load pid) (k.elfLoad pid cleared)
  | ready {pid : Int} (h : IsLoading k pid) : Evolves k (.ready pid) (k.procSetReady pid)
  | free {pid : Int} (h : FreesOther k pid) : Evolves k (.free pid) (k.procFree pid)

/-! ## Executing events -/

/-- The events as the running process causes them. -/
inductive Command (μ : Type) where
  | call (c : Request Int Int μ)
  | tick
  | alloc
  | load (pid : Int) (cleared : Syscall μ)
  | ready (pid : Int)
  | free (pid : Int)

/-- The event that a command causes, and the state after it. -/
def Kernel.perform (k : Kernel μ) : Command μ → Option (Event μ × Kernel μ)
  | .call c => (k.act (some c)).map fun r => (.entry r.1, r.2)
  | .tick => (k.act none).map fun r => (.entry r.1, r.2)
  | .alloc => match k.procAlloc with
      | .ok (pid, k') => some (.alloc pid, k')
      | .error _ => none
  | .load pid cleared => if IsLoading k pid then some (.load pid, k.elfLoad pid cleared) else none
  | .ready pid => if IsLoading k pid then some (.ready pid, k.procSetReady pid) else none
  | .free pid => if FreesOther k pid then some (.free pid, k.procFree pid) else none

theorem evolves_of_perform {c : Command μ} {ev : Event μ} (h : k.perform c = some (ev, k')) :
    Evolves k ev k' := by
  cases c with
  | call c =>
    obtain ⟨⟨e, k₁⟩, hact, heq⟩ := Option.map_eq_some_iff.mp h
    obtain ⟨rfl, rfl⟩ := Prod.mk.inj heq
    exact .entry (enters_of_act hact)
  | tick =>
    obtain ⟨⟨e, k₁⟩, hact, heq⟩ := Option.map_eq_some_iff.mp h
    obtain ⟨rfl, rfl⟩ := Prod.mk.inj heq
    exact .entry (enters_of_act hact)
  | alloc =>
    unfold Kernel.perform at h
    dsimp only at h
    split at h
    case h_1 pid k₁ halloc =>
      obtain ⟨rfl, rfl⟩ := Prod.mk.inj (Option.some.inj h)
      exact .alloc halloc
    case h_2 => cases h
  | load pid cleared =>
    obtain ⟨hloading, heq⟩ := Option.ite_none_right_eq_some.mp h
    obtain ⟨rfl, rfl⟩ := Prod.mk.inj (Option.some.inj heq)
    exact .load hloading cleared
  | ready pid =>
    obtain ⟨hloading, heq⟩ := Option.ite_none_right_eq_some.mp h
    obtain ⟨rfl, rfl⟩ := Prod.mk.inj (Option.some.inj heq)
    exact .ready hloading
  | free pid =>
    obtain ⟨hother, heq⟩ := Option.ite_none_right_eq_some.mp h
    obtain ⟨rfl, rfl⟩ := Prod.mk.inj (Option.some.inj heq)
    exact .free hother

/-- Commands whose events pass a check make a run. -/
theorem run_checked [Force μ] {check : Kernel μ → Event μ → Bool} {cs : List (Command μ)}
    (h : (execute (checked check Kernel.perform) cs k).isSome = true) :
    Run (fun k ev k' => check k ev = true ∧ Evolves k ev k') k
      (executed (checked check Kernel.perform) cs k).1
      (executed (checked check Kernel.perform) cs k).2 := by
  refine run_executed (fun k c ev k' hact => ?_) h
  obtain ⟨hperform, hcheck⟩ := checked_eq_some.mp hact
  exact ⟨hcheck, evolves_of_perform hperform⟩

/-! ## What process management does to a slot -/

/-- The slot before and after a call of process management. -/
inductive SlotChange (i : Slot) (p : Process μ) : Process μ → Prop where
  | same : SlotChange i p p
  | alloc (hne : i ≠ 0) (h : p.status = .unused) :
      SlotChange i p { p with pid := i.val, status := .loading }
  | ready (hlt : i.val < 16) (h : p.status = .loading) : SlotChange i p { p with status := .ready }
  | free : SlotChange i p { p with status := .unused }

section SlotChange

variable {p q : Process μ}

theorem SlotChange.pid (h : SlotChange i p q) (hp : p.pid = 0 ∨ p.pid = i.val) :
    q.pid = 0 ∨ q.pid = i.val := by
  cases h with
  | same => exact hp
  | alloc => exact Or.inr rfl
  | ready => exact hp
  | free => exact hp

theorem SlotChange.named (h : SlotChange i p q) (hp : p.status ≠ .unused → p.pid = i.val)
    (hq : q.status ≠ .unused) : q.pid = i.val := by
  cases h with
  | same => exact hp hq
  | alloc => rfl
  | ready _ hloading =>
    apply hp
    rw [hloading]
    decide
  | free => exact absurd rfl hq

/-- Process management makes no process wait or run. -/
theorem SlotChange.eq_of_pending (h : SlotChange i p q) (hq : q.status = .pendingSyscall) :
    q = p := by
  cases h with
  | same => rfl
  | alloc => cases hq
  | ready => cases hq
  | free => cases hq

theorem SlotChange.eq_of_running (h : SlotChange i p q) (hq : q.status = .running) : q = p := by
  cases h with
  | same => rfl
  | alloc => cases hq
  | ready => cases hq
  | free => cases hq

theorem SlotChange.recordOk (h : SlotChange i p q) (hp : RecordOk p) : RecordOk q := by
  intro hq
  obtain rfl := h.eq_of_pending hq
  exact hp hq

theorem SlotChange.pendingCall (h : SlotChange i p q) {c : Request Int Int μ}
    (hc : pendingCall q = some c) : Egos.Grass.pendingCall p = some c := by
  have hq : q.status = .pendingSyscall := by
    by_contra hne
    rw [Egos.Grass.pendingCall, if_neg hne] at hc
    cases hc
  rwa [h.eq_of_pending hq] at hc

/-- A slot in use has the call that it had. -/
theorem SlotChange.pendingCall_eq (h : SlotChange i p q) (hq : q.status ≠ .unused) :
    Egos.Grass.pendingCall q = Egos.Grass.pendingCall p := by
  cases h with
  | same => rfl
  | alloc _ hunused => simp [Egos.Grass.pendingCall, hunused]
  | ready _ hloading => simp [Egos.Grass.pendingCall, hloading]
  | free => exact absurd rfl hq

/-- A slot stays closed unless it is allocated with an open receive in it. -/
theorem SlotChange.idleOk (h : SlotChange i p q) (hp : IdleOk p)
    (hfresh : p.status = .unused → q.status ≠ .unused → Closed p.syscall) : IdleOk q := by
  intro hused hidle
  cases h with
  | same => exact hp hused hidle
  | alloc _ hunused => exact hfresh hunused hused
  | ready _ hloading =>
    apply hp
    · rw [hloading]
      decide
    · rw [hloading]
      decide
  | free => exact absurd rfl hused

end SlotChange

/-- Process management leads from the first table to the second. -/
def Managed (t t' : Slot → Process μ) : Prop := ∀ i, SlotChange i (t i) (t' i)

section Managed

variable {t t' : Slot → Process μ}

theorem Managed.table (h : Managed t t') (ht : Table t) : Table t' := by
  refine ⟨fun i => (h i).pid (ht.pid i), fun i => (h i).named (ht.named i), ?_, ?_⟩
  · -- slot 0 is never allocated
    have hzero := ht.zero
    have hchange := h 0
    generalize t' 0 = q at hchange ⊢
    cases hchange with
    | same => exact hzero
    | alloc hne => exact absurd rfl hne
    | ready _ hloading =>
      rw [hzero] at hloading
      cases hloading
    | free => rfl
  · -- the last slot is allocated, but never becomes ready
    have hlast := ht.last
    have hchange := h 16
    generalize t' 16 = q at hchange ⊢
    cases hchange with
    | same => exact hlast
    | alloc => exact Or.inr rfl
    | ready hlt => exact absurd hlt (by decide)
    | free => exact Or.inl rfl

/-- Whoever waits afterwards waited before, with the same call. -/
theorem Managed.waiting (h : Managed t t') {pid : Int} {c : Request Int Int μ}
    (hc : waitingOf t' pid = some c) : waitingOf t pid = some c := by
  rw [waitingOf, Option.bind_eq_some_iff] at hc ⊢
  obtain ⟨i, hslot, hcall⟩ := hc
  exact ⟨i, hslot, (h i).pendingCall hcall⟩

/-- Whoever is in use afterwards waits as before. -/
theorem Managed.waiting_eq (h : Managed t t') (hi : (t' i).status ≠ .unused) :
    waitingOf t' i.val = waitingOf t i.val := by
  rw [waitingOf, waitingOf]
  cases hslot : slotOf i.val with
  | none => rfl
  | some j =>
    obtain rfl : i = j := Fin.ext (Int.ofNat_inj.mp (slotOf_some hslot).2)
    exact (h i).pendingCall_eq hi

/-- Process management that leaves the running process alone keeps the order. -/
theorem Ordered.managed (h : Ordered k) (hm : Managed k.procSet k'.procSet)
    (hidx : k'.currProcIdx = k.currProcIdx) (hvm : k'.currVmPid = k.currVmPid)
    (hcurr : k'.procSet k.currProcIdx = k.procSet k.currProcIdx) : Ordered k' := by
  refine ⟨hm.table h.table, fun i => (hm i).recordOk (h.record i),
    h.settled.mono fun _ _ hc => hm.waiting hc, ?_, fun i hi => ?_, ?_⟩
  · rw [hidx, hcurr]
    exact h.running
  · rw [hidx]
    rw [(hm i).eq_of_running hi] at hi
    exact h.only i hi
  · rw [hvm, hidx, hcurr]
    exact h.switched

end Managed

/-! ## The functions of process management -/

/-- `proc_alloc` takes a slot that is not in use, and never slot 0. -/
theorem procAlloc_ok {pid : Int} (h : k.procAlloc = .ok (pid, k')) :
    ∃ i : Slot, i ≠ 0 ∧ (k.procSet i).status = .unused ∧ pid = i.val ∧
      k' = k.setProc i { k.procSet i with pid := i.val, status := .loading } := by
  rw [Kernel.procAlloc] at h
  cases hfind : Kernel.allocOrder.find? fun i => decide ((k.procSet i).status = .unused) with
  | none =>
    rw [hfind] at h
    cases h
  | some i =>
    rw [hfind] at h
    have hunused := List.find?_some hfind
    simp only [decide_eq_true_eq] at hunused
    have hmem := List.mem_of_find?_eq_some hfind
    simp only [Kernel.allocOrder, List.mem_map, List.mem_finRange, true_and] at hmem
    obtain ⟨j, rfl⟩ := hmem
    obtain ⟨rfl, rfl⟩ := Prod.mk.inj (Except.ok.inj h)
    exact ⟨j.succ, Fin.succ_ne_zero j, hunused, rfl, rfl⟩

theorem procAlloc_unused_iff {pid : Int} (h : k.procAlloc = .ok (pid, k')) (i : Slot) :
    (k'.procSet i).status = .unused ↔ (k.procSet i).status = .unused ∧ (i.val : Int) ≠ pid := by
  obtain ⟨j, _, _, rfl, rfl⟩ := procAlloc_ok h
  by_cases hij : i = j
  · rw [hij, Kernel.setProc_self]
    exact iff_of_false nofun fun hc => hc.2 rfl
  · rw [k.setProc_of_ne _ hij]
    exact (and_iff_left fun heq => hij (Fin.ext (Int.ofNat_inj.mp heq))).symm

/-- `proc_alloc` looks only for the slots that are not in use. -/
theorem procAlloc_congr {ν : Type} {l : Kernel ν} {pid : Int}
    (hunused : ∀ i, (l.procSet i).status = .unused ↔ (k.procSet i).status = .unused)
    (h : k.procAlloc = .ok (pid, k')) : ∃ l', l.procAlloc = .ok (pid, l') := by
  rw [Kernel.procAlloc] at h ⊢
  simp only [hunused]
  cases hfind : Kernel.allocOrder.find? fun i => decide ((k.procSet i).status = .unused) with
  | none =>
    rw [hfind] at h
    cases h
  | some i =>
    rw [hfind] at h
    obtain ⟨rfl, _⟩ := Prod.mk.inj (Except.ok.inj h)
    exact ⟨_, rfl⟩

/-- The slots that `proc_free` releases. -/
def Freed (t : Slot → Process μ) (pid : Int) (i : Slot) : Prop :=
  i.val < 16 ∧ if pid ≠ gpidAll then (t i).pid = pid
    else (t i).pid ≥ gpidUserStart ∧ (t i).status ≠ .unused

theorem procFree_freed {pid : Int} (h : Freed k.procSet pid i) :
    (k.procFree pid).procSet i = { k.procSet i with status := .unused } := by
  obtain ⟨hlt, hpid⟩ := h
  rw [Kernel.procFree]
  split_ifs at hpid ⊢ with hall
  · exact if_pos ⟨hlt, hpid⟩
  · exact if_pos ⟨hlt, hpid⟩

theorem procFree_not_freed {pid : Int} (h : ¬ Freed k.procSet pid i) :
    (k.procFree pid).procSet i = k.procSet i := by
  rw [Kernel.procFree]
  split_ifs with hall
  · exact if_neg fun hc => h ⟨hc.1, by rw [if_pos hall]; exact hc.2⟩
  · exact if_neg fun hc => h ⟨hc.1, by rw [if_neg hall]; exact hc.2⟩

/-- A slot that is in use after `proc_free` was in use and is not one of those released. -/
theorem procFree_used {pid : Int} (hi : ((k.procFree pid).procSet i).status ≠ .unused) :
    (k.procSet i).status ≠ .unused ∧ ¬ Freed k.procSet pid i := by
  by_cases hfreed : Freed k.procSet pid i
  · rw [procFree_freed hfreed] at hi
    exact absurd rfl hi
  · rw [procFree_not_freed hfreed] at hi
    exact ⟨hi, hfreed⟩

theorem procFree_rest (k : Kernel μ) (pid : Int) :
    (k.procFree pid).currProcIdx = k.currProcIdx ∧ (k.procFree pid).currVmPid = k.currVmPid ∧
      (k.procFree pid).area = k.area := by
  unfold Kernel.procFree
  split_ifs <;> exact ⟨rfl, rfl, rfl⟩

theorem managed_procFree (k : Kernel μ) (pid : Int) :
    Managed k.procSet (k.procFree pid).procSet := by
  intro i
  by_cases hi : Freed k.procSet pid i
  · rw [procFree_freed hi]
    exact .free
  · rw [procFree_not_freed hi]
    exact .same

theorem managed_procAlloc {pid : Int} (h : k.procAlloc = .ok (pid, k')) :
    Managed k.procSet k'.procSet := by
  obtain ⟨i, hne, hunused, _, rfl⟩ := procAlloc_ok h
  intro j
  by_cases hji : j = i
  · subst hji
    rw [Kernel.setProc_self]
    exact .alloc hne hunused
  · rw [k.setProc_of_ne _ hji]
    exact .same

theorem managed_procSetReady (htable : Table k.procSet) {pid : Int} (h : IsLoading k pid) :
    Managed k.procSet (k.procSetReady pid).procSet := by
  obtain ⟨i, rfl, hloading⟩ := h
  have hused : (k.procSet i).status ≠ .unused := by
    rw [hloading]
    decide
  intro j
  show SlotChange j (k.procSet j) (Kernel.withStatus k.procSet (k.procSet i).pid .ready j)
  rw [Kernel.withStatus]
  split_ifs with hj
  · obtain rfl := htable.eq_of_pid hused hj.2
    exact .ready hj.1 hloading
  · exact .same

/-- `proc_set_ready` takes no slot into use. -/
theorem procSetReady_used (htable : Table k.procSet) {pid : Int} (h : IsLoading k pid)
    (hi : ((k.procSetReady pid).procSet i).status ≠ .unused) : (k.procSet i).status ≠ .unused := by
  obtain ⟨j, rfl, hj⟩ := h
  have hjused : (k.procSet j).status ≠ .unused := by
    rw [hj]
    decide
  intro hunused
  have hsame : (k.procSetReady (k.procSet j).pid).procSet i = k.procSet i := by
    refine if_neg fun hc => ?_
    rw [htable.eq_of_pid hjused hc.2] at hunused
    exact hjused hunused
  rw [hsame] at hi
  exact hi hunused

/-- The running process is not released. -/
theorem FreesOther.not_freed_curr {pid : Int} (hother : FreesOther k pid) :
    ¬ Freed k.procSet pid k.currProcIdx := by
  rintro ⟨_, hpid⟩
  split_ifs at hpid with hall
  · exact hother.1 hpid.symm
  · have hsystem := hother.2 (not_not.mp hall)
    have huser : k.curr.pid ≥ gpidUserStart := hpid.1
    omega

theorem Ordered.ne_curr (h : Ordered k) (hi : (k.procSet i).status ≠ .running) :
    k.currProcIdx ≠ i := by
  rintro rfl
  exact hi h.running

/-- Every call of process management, seen from the table. -/
theorem Ordered.managed_of_evolves (h : Ordered k) {ev : Event μ} (he : Evolves k ev k')
    (hnot : ∀ e, ev ≠ .entry e) :
    Managed k.procSet k'.procSet ∧ k'.currProcIdx = k.currProcIdx ∧
      k'.currVmPid = k.currVmPid ∧ k'.procSet k.currProcIdx = k.procSet k.currProcIdx := by
  cases he with
  | entry => exact absurd rfl (hnot _)
  | alloc halloc =>
    have hm := managed_procAlloc halloc
    obtain ⟨i, _, hunused, _, rfl⟩ := procAlloc_ok halloc
    refine ⟨hm, rfl, rfl, k.setProc_of_ne _ (h.ne_curr ?_)⟩
    rw [hunused]
    decide
  | load => exact ⟨fun _ => .same, rfl, rfl, rfl⟩
  | @ready pid hloading =>
    refine ⟨managed_procSetReady h.table hloading, rfl, rfl, ?_⟩
    obtain ⟨i, rfl, hi⟩ := hloading
    have hne : k.currProcIdx ≠ i := h.ne_curr (by rw [hi]; decide)
    have hused : (k.procSet i).status ≠ .unused := by
      rw [hi]
      decide
    exact if_neg fun hc => hne (h.table.eq_of_pid hused hc.2)
  | @free pid hother =>
    obtain ⟨hidx, hvm, _⟩ := procFree_rest k pid
    exact ⟨managed_procFree k pid, hidx, hvm, procFree_not_freed hother.not_freed_curr⟩

/-- What an entry does, with whatever idle slots. -/
theorem Ordered.enters (h : Ordered k) {e : Entry μ} (he : Enters k e k') :
    Ordered k' ∧ e.caller = k.curr.pid ∧ ∃ delivery, Moved k e.call delivery k' := by
  cases he with
  | @call c passes key ctx ctx' _ hentry =>
    obtain ⟨hordered, hmoved⟩ := (h.wp_call c passes key ctx).of_ok hentry
    exact ⟨hordered, rfl, hmoved⟩
  | @tick passes key ctx ctx' _ hentry =>
    obtain ⟨hordered, hmoved⟩ := (h.wp_tick passes key ctx).of_ok hentry
    exact ⟨hordered, rfl, hmoved⟩

/-- Every event keeps the order. -/
theorem Ordered.evolves (h : Ordered k) {ev : Event μ} (he : Evolves k ev k') : Ordered k' := by
  by_cases hentry : ∃ e, ev = .entry e
  · obtain ⟨e, rfl⟩ := hentry
    cases he with
    | entry henters => exact (h.enters henters).1
  · obtain ⟨hm, hidx, hvm, hcurr⟩ := h.managed_of_evolves he fun e heq => hentry ⟨e, heq⟩
    exact h.managed hm hidx hvm hcurr

/-! ## Fresh slots -/

/-- If the event is a `proc_alloc`, the slot it takes holds no open receive. -/
def FreshSlot (k : Kernel μ) (ev : Event μ) : Prop :=
  ∀ (i : Slot) (pid : Int), ev = .alloc pid → pid = i.val → Closed (k.procSet i).syscall

/-- An event that allocates only slots without an open receive. -/
def EvolvesFresh (k : Kernel μ) (ev : Event μ) (k' : Kernel μ) : Prop :=
  FreshSlot k ev ∧ Evolves k ev k'

theorem Inv.evolves (h : Inv k) {ev : Event μ} (he : EvolvesFresh k ev k') : Inv k' := by
  obtain ⟨hfresh, he⟩ := he
  by_cases hentry : ∃ e, ev = .entry e
  · obtain ⟨e, rfl⟩ := hentry
    cases he with
    | entry henters => exact (h.enters henters).1
  · have hordered := h.ordered.evolves he
    obtain ⟨hm, _⟩ := h.ordered.managed_of_evolves he fun e heq => hentry ⟨e, heq⟩
    refine hordered.inv fun i => (hm i).idleOk (h.calm.idle i) fun hunused hused => ?_
    -- only `proc_alloc` takes a slot into use
    cases he with
    | entry => exact absurd ⟨_, rfl⟩ hentry
    | @alloc pid _ halloc =>
      obtain ⟨j, _, _, hpid, rfl⟩ := procAlloc_ok halloc
      by_cases hij : i = j
      · exact hfresh i pid rfl (hij ▸ hpid)
      · rw [k.setProc_of_ne _ hij] at hused
        exact absurd hunused hused
    | load => exact absurd hunused hused
    | ready hloading => exact absurd hunused (procSetReady_used h.calm.table hloading hused)
    | free => exact absurd hunused (procFree_used hused).1

/-! ## Receives and their processes -/

/-- The call is a receive. -/
def isRecv : Option (Request Int Int μ) → Bool
  | some (.recv _) => true
  | _ => false

/-- Whether the process has received since it was allocated, after one more event. -/
def recvNext (pid : Int) (since : Bool) : Event μ → Bool
  | .entry e => since || (decide (e.caller = pid) && isRecv e.call)
  | .alloc pid' => since && decide (pid' ≠ pid)
  | _ => since

/-- The process has entered the kernel with a receive since its last `proc_alloc`. -/
def recvSinceAlloc (pid : Int) (events : List (Event μ)) : Bool :=
  events.foldl (recvNext pid) false

theorem recvSinceAlloc_concat (pid : Int) (events : List (Event μ)) (ev : Event μ) :
    recvSinceAlloc pid (events ++ [ev]) = recvNext pid (recvSinceAlloc pid events) ev := by
  rw [recvSinceAlloc, List.foldl_append]
  rfl

/-- The area of every process that waits says so. -/
def Told (k : Kernel μ) : Prop :=
  ∀ pid, waitingOf k.procSet pid ≠ none → (k.area pid).status = .pending

/-- The invariant of runs that allocate only fresh slots. -/
structure Tracked (events : List (Event μ)) (k : Kernel μ) : Prop where
  inv : Inv k
  told : Told k
  own : ∀ pid source, waitingOf k.procSet pid = some (.recv source) →
    recvSinceAlloc pid events = true

theorem Start.tracked (h : Start k) : Tracked [] k := by
  refine ⟨h.inv, fun pid hne => absurd (h.waitingOf_eq pid) hne, fun pid source hc => ?_⟩
  rw [h.waitingOf_eq] at hc
  cases hc

theorem Told.turned (h : Told k) (hinv : Inv k) {call : Option (Request Int Int μ)}
    {delivery : Option (Delivery Int μ)} (ht : Turned k call delivery k') : Told k' := by
  intro pid
  have hreported : Reported pid (waitingOf k.procSet pid) (k.area pid)
      (deliveriesOf pid ([] : List (Turn Int Int μ))).getLast? :=
    ⟨h pid, fun d _ hd => nomatch hd⟩
  exact (hreported.turned hinv ht).pending

/-- A process that is not in use, or is being loaded, does not wait. -/
theorem waitingOf_eq_none {t : Slot → Process μ}
    (hi : (t i).status = .unused ∨ (t i).status = .loading) : waitingOf t i.val = none := by
  cases hc : waitingOf t i.val with
  | none => rfl
  | some c =>
    obtain ⟨j, _, hij, hpending, _⟩ := waitingOf_eq_some hc
    obtain rfl : i = j := Fin.ext (Int.ofNat_inj.mp hij)
    rw [hpending] at hi
    rcases hi with hi | hi <;> cases hi

theorem IsLoading.waitingOf_eq_none (htable : Table k.procSet) {pid : Int} (h : IsLoading k pid) :
    waitingOf k.procSet pid = none := by
  obtain ⟨i, rfl, hi⟩ := h
  rw [htable.named i (by rw [hi]; decide)]
  exact Egos.Grass.waitingOf_eq_none (Or.inr hi)

/-- Nor does it when it is ready. -/
theorem IsLoading.waitingOf_ready (htable : Table k.procSet) {pid : Int} (h : IsLoading k pid) :
    waitingOf (k.procSetReady pid).procSet pid = none := by
  cases hc : waitingOf (k.procSetReady pid).procSet pid with
  | none => rfl
  | some c =>
    have hbefore := (managed_procSetReady htable h).waiting hc
    cases (h.waitingOf_eq_none htable).symm.trans hbefore

/-- Process management changes the memory of processes that are being loaded alone. -/
theorem Evolves.area_eq {ev : Event μ} (he : Evolves k ev k') (hnot : ∀ e, ev ≠ .entry e)
    {pid : Int} (hpid : ¬ IsLoading k pid) : k'.area pid = k.area pid := by
  cases he with
  | entry => exact absurd rfl (hnot _)
  | alloc halloc =>
    obtain ⟨i, _, _, _, rfl⟩ := procAlloc_ok halloc
    rfl
  | load hloading cleared =>
    apply Function.update_of_ne
    rintro rfl
    exact hpid hloading
  | ready => rfl
  | @free pid' _ =>
    obtain ⟨_, _, harea⟩ := procFree_rest k pid'
    rw [harea]

/-- A receive that is unfinished in an entry was made by the process itself. -/
theorem Tracked.own_receive {events : List (Event μ)} (h : Tracked events k) {e : Entry μ}
    (hcaller : e.caller = k.curr.pid) {pid source : Int}
    (hc : issue (waitingOf k.procSet) k.curr.pid e.call pid = some (.recv source)) :
    recvSinceAlloc pid (events ++ [.entry e]) = true := by
  rw [recvSinceAlloc_concat, recvNext]
  rcases issue_eq_some hc with hold | ⟨rfl, hnew⟩
  · rw [h.own pid source hold, Bool.true_or]
  · rw [hcaller, hnew]
    simp [isRecv]

theorem Tracked.step {events : List (Event μ)} (h : Tracked events k) {ev : Event μ}
    (he : EvolvesFresh k ev k') : Tracked (events ++ [ev]) k' := by
  have hinv := h.inv.evolves he
  obtain ⟨_, he⟩ := he
  by_cases hentry : ∃ e, ev = .entry e
  · obtain ⟨e, rfl⟩ := hentry
    cases he with
    | entry henters =>
      obtain ⟨_, delivery, ht, _, hturn⟩ := h.inv.enters henters
      refine ⟨hinv, h.told.turned h.inv ht, fun pid source hc => ?_⟩
      exact h.own_receive (congrArg Turn.caller hturn) (ht.step.issued hc)
  · have hnot : ∀ e, ev ≠ .entry e := fun e heq => hentry ⟨e, heq⟩
    obtain ⟨hm, _⟩ := h.inv.ordered.managed_of_evolves he hnot
    refine ⟨hinv, fun pid hwaits => ?_, fun pid source hc => ?_⟩
    · obtain ⟨c, hc⟩ := Option.ne_none_iff_exists'.mp hwaits
      have hbefore : waitingOf k.procSet pid ≠ none := by
        rw [hm.waiting hc]
        exact Option.some_ne_none c
      have hloading : ¬ IsLoading k pid := fun hl =>
        hbefore (hl.waitingOf_eq_none h.inv.calm.table)
      rw [he.area_eq hnot hloading]
      exact h.told pid hbefore
    · have hbefore := hm.waiting hc
      have hown := h.own pid source hbefore
      rw [recvSinceAlloc_concat, hown]
      cases he with
      | entry => exact absurd rfl (hnot _)
      | @alloc pid' _ halloc =>
        -- a process that waits is in use, so it is not the one allocated
        obtain ⟨i, _, hunused, rfl, _⟩ := procAlloc_ok halloc
        have hne : (i.val : Int) ≠ pid := by
          rintro rfl
          rw [waitingOf_eq_none (Or.inl hunused)] at hbefore
          cases hbefore
        simp [recvNext, hne]
      | load => rfl
      | ready => rfl
      | free => rfl

/-- What an entry marks. -/
theorem Tracked.marked {events : List (Event μ)} (h : Tracked events k) {e : Entry μ}
    (he : Enters k e k') {sender receiver : Int} {status : ProcStatus}
    (hmem : Action.marked sender receiver status ∈ e.actions) :
    status = .pendingSyscall ∧ recvSinceAlloc receiver (events ++ [.entry e]) = true := by
  obtain ⟨_, delivery, ht, hactions, hturn⟩ := h.inv.enters he
  rw [hactions] at hmem
  cases delivery with
  | none => cases hmem
  | some d =>
    simp only [actionsOf, List.mem_cons, Action.marked.injEq, reduceCtorEq, List.not_mem_nil,
      or_false] at hmem
    obtain ⟨_, rfl, rfl⟩ := hmem
    -- the receive that was marked is unfinished in this entry
    obtain ⟨source, hrecv, _⟩ := (ht.step.fits rfl).recv
    exact ⟨rfl, h.own_receive (congrArg Turn.caller hturn) hrecv⟩

/-- The event releases the process. -/
def Releases (ev : Event μ) (pid : Int) : Prop :=
  ev = .free pid ∨ (ev = .free gpidAll ∧ pid ≥ gpidUserStart)

/-- Process management leaves a slot in use alone unless it releases it, but a process that
    is being loaded may become ready. -/
theorem Ordered.slot_kept (h : Ordered k) {ev : Event μ} (he : Evolves k ev k')
    (hnot : ∀ e, ev ≠ .entry e) (hi : (k.procSet i).status ≠ .unused)
    (hrel : ¬ Releases ev i.val) :
    k'.procSet i = k.procSet i ∨ ((k.procSet i).status = .loading ∧
      k'.procSet i = { k.procSet i with status := .ready }) := by
  have hpid := h.table.named i hi
  cases he with
  | entry => exact absurd rfl (hnot _)
  | alloc halloc =>
    obtain ⟨j, _, hunused, _, rfl⟩ := procAlloc_ok halloc
    refine Or.inl (k.setProc_of_ne _ ?_)
    rintro rfl
    exact hi hunused
  | load => exact Or.inl rfl
  | @ready pid hloading =>
    obtain ⟨j, rfl, hj⟩ := hloading
    by_cases hready : i.val < maxNprocess ∧ (k.procSet i).pid = (k.procSet j).pid
    · obtain rfl := h.table.eq_of_pid hi hready.2.symm
      exact Or.inr ⟨hj, if_pos hready⟩
    · exact Or.inl (if_neg hready)
  | @free pid' _ =>
    refine Or.inl (procFree_not_freed ?_)
    rintro ⟨_, hfreed⟩
    split_ifs at hfreed with hall
    · exact hrel (Or.inl (by rw [← hfreed, hpid]))
    · exact hrel (Or.inr ⟨by rw [not_not.mp hall], hpid ▸ hfreed.1⟩)

theorem Ordered.slot_stays (h : Ordered k) {ev : Event μ} (he : Evolves k ev k')
    (hnot : ∀ e, ev ≠ .entry e) (hi : Loaded k.procSet i) (hrel : ¬ Releases ev i.val) :
    k'.procSet i = k.procSet i := by
  rcases h.slot_kept he hnot hi.1 hrel with hsame | ⟨hloading, _⟩
  · exact hsame
  · exact absurd hloading hi.2

/-- A process that waits and is not released goes on waiting through process management. -/
theorem Ordered.still_waiting (h : Ordered k) {ev : Event μ} (he : Evolves k ev k')
    (hnot : ∀ e, ev ≠ .entry e) {pid : Int} (hrel : ¬ Releases ev pid) {c : Request Int Int μ}
    (hc : waitingOf k.procSet pid = some c) : waitingOf k'.procSet pid = some c := by
  obtain ⟨i, hlt, rfl, hpending, _⟩ := waitingOf_eq_some hc
  rw [waitingOf_val hlt] at hc ⊢
  rw [h.slot_stays he hnot (loaded_of_pending hpending) hrel]
  exact hc

/-- Messages go to receives of the process itself. In every run from a quiet start in which
    `proc_alloc` takes no slot with an open receive in it:

    - when `proc_try_send` marks a receive as done, the slot is pending, and the process in
      it has entered the kernel with a receive since it was allocated;
    - a send to a process that has not received since it was allocated, pending or just
      made, stays pending in the kernel and in user space, until the sender is released. -/
theorem message_to_own_receive {events : List (Event μ)} (hstart : Start k₀)
    (hrun : Run EvolvesFresh k₀ events k) :
    (∀ past e, past ++ [.entry e] <+: events → ∀ sender receiver status,
      Action.marked sender receiver status ∈ e.actions →
        status = .pendingSyscall ∧ recvSinceAlloc receiver (past ++ [.entry e]) = true) ∧
    ∀ ev k', EvolvesFresh k ev k' → ∀ sender receiver content,
      (waitingOf k.procSet sender = some (.send receiver content) ∨
        ∃ e, ev = .entry e ∧ e.caller = sender ∧ e.call = some (.send receiver content)) →
      recvSinceAlloc receiver (events ++ [ev]) = false → ¬ Releases ev sender →
      waitingOf k'.procSet sender = some (.send receiver content) ∧
        (k'.area sender).status = .pending := by
  obtain ⟨htracked, hmarked⟩ := hrun.invariant_log (P := fun events k => Tracked events k ∧
    ∀ past e, past ++ [.entry e] <+: events → ∀ sender receiver status,
      Action.marked sender receiver status ∈ e.actions →
        status = .pendingSyscall ∧ recvSinceAlloc receiver (past ++ [.entry e]) = true)
    ⟨hstart.tracked, fun past e hpre => by simp at hpre⟩ (by
      rintro events k ev k' ⟨htracked, hmarked⟩ he
      refine ⟨htracked.step he, fun past e hpre sender receiver status hmem => ?_⟩
      -- the entry is the last event, or it is an earlier one
      rcases List.prefix_concat_iff.mp hpre with heq | hpre
      · obtain ⟨rfl, hev⟩ := List.append_inj' heq rfl
        obtain rfl := List.singleton_inj.mp hev
        cases he.2 with
        | entry henters => exact htracked.marked henters hmem
      · exact hmarked past e hpre sender receiver status hmem)
  refine ⟨hmarked, fun ev k' he sender receiver content hsend hrecv hrel => ?_⟩
  have htracked' := htracked.step he
  suffices hstays : waitingOf k'.procSet sender = some (.send receiver content) by
    refine ⟨hstays, htracked'.told sender ?_⟩
    rw [hstays]
    exact Option.some_ne_none _
  by_cases hentry : ∃ e, ev = .entry e
  · obtain ⟨e, rfl⟩ := hentry
    cases he.2 with
    | entry henters =>
      obtain ⟨_, delivery, ht, _, hturn⟩ := htracked.inv.enters henters
      have hcaller : e.caller = k.curr.pid := congrArg Turn.caller hturn
      apply ht.step.send_stays
      · rcases hsend with hold | ⟨e', heq, hsender, hcall⟩
        · -- the caller does not wait, so it is another process
          have hne : sender ≠ k.curr.pid := by
            rintro rfl
            rw [Kernel.curr, htracked.inv.pid, htracked.inv.waiting_curr] at hold
            cases hold
          cases hcall : e.call with
          | none => exact hold
          | some c => exact (Function.update_of_ne hne _ _).trans hold
        · obtain rfl := Event.entry.inj heq
          dsimp only
          rw [hcall, ← hcaller, hsender]
          exact Function.update_self _ _ _
      · intro source hc
        rw [htracked.own_receive hcaller hc] at hrecv
        cases hrecv
  · have hnot : ∀ e, ev ≠ .entry e := fun e heq => hentry ⟨e, heq⟩
    rcases hsend with hold | ⟨e, heq, _⟩
    · exact htracked.inv.ordered.still_waiting he.2 hnot hrel hold
    · exact absurd heq (hnot e)

/-- Processes 1 and 2, and a third one that is being loaded. -/
def loadingKernel : Kernel Nat :=
  (quietKernel 2).setProc 3 { (quietKernel 2).procSet 3 with pid := 3, status := .loading }

/-- Process 1 has sent 9 to the process that is being loaded. -/
def earlySendKernel : Kernel Nat :=
  ((loadingKernel.request (.send 3 9)).enter 0x80000003).getD loadingKernel

theorem message_to_own_receive_early :
    Start (quietKernel 2) ∧ Run EvolvesFresh (quietKernel 2) [.alloc 3] loadingKernel ∧
      waitingOf earlySendKernel.procSet 1 = some (.send 3 9) ∧
      (earlySendKernel.area 1).status = .pending := by
  have halloc : EvolvesFresh (quietKernel 2) (.alloc 3) loadingKernel := by
    refine ⟨?_, .alloc rfl⟩
    rintro i pid heq rfl ⟨hrecv, _⟩
    cases hrecv
  have hrun : Run EvolvesFresh (quietKernel 2) [.alloc 3] loadingKernel := .snoc .nil halloc
  have hsend : EvolvesFresh loadingKernel
      (.entry ⟨loadingKernel.curr.pid, some (.send 3 9), earlySendKernel.actions⟩)
      earlySendKernel :=
    ⟨fun _ _ heq => (nomatch heq), .entry (enters_of_enter (enter_getD _ (by decide +kernel)))⟩
  refine ⟨start_pair, hrun,
    (message_to_own_receive start_pair hrun).2 _ _ hsend 1 3 9 (Or.inr ⟨_, rfl, rfl, rfl⟩)
      (by decide) ?_⟩
  rintro (heq | ⟨heq, _⟩) <;> cases heq

/-! A process is killed while it waits for the terminal, and its slot is used again. -/

/-- Process 5 receives from the terminal and is killed; `sys_proc` starts another process,
    which gets the same pid. Then the terminal has its turn. -/
def respawn : List (Command Nat) :=
  [.tick, .tick, .tick, .tick, .call (.recv gpidTerminal), .free 5,
    .alloc, .load 5 blankSyscall, .ready 5, .tick]

/-- The events of the respawn, and the state after it. -/
def respawned : List (Event Nat) × Kernel Nat :=
  executed Kernel.perform respawn (quietKernel 5)

/-- The terminal has sent 7 to process 5. -/
def misledKernel : Kernel Nat :=
  ((respawned.2.request (.send 5 7)).enter 0x80000003).getD respawned.2

/-- The reply to the process that was killed is taken by the new one, which has never
    received and is only ready to run; the terminal is told that its send is done. -/
theorem stale_receive_marked :
    ∃ past e, Start (quietKernel 5) ∧
      Run Evolves (quietKernel 5) (past ++ [.entry e]) misledKernel ∧
      Action.marked gpidTerminal 5 .ready ∈ e.actions ∧
      recvSinceAlloc 5 (past ++ [.entry e]) = false ∧
      (misledKernel.area gpidTerminal).status = .done := by
  have hrun : Run Evolves (quietKernel 5) respawned.1 respawned.2 :=
    run_executed (fun _ _ _ _ => evolves_of_perform) (by decide +kernel)
  have hsend : Enters respawned.2
      ⟨respawned.2.curr.pid, some (.send 5 7), misledKernel.actions⟩ misledKernel :=
    enters_of_enter (enter_getD _ (by decide +kernel))
  exact ⟨respawned.1, _, start_fiveProcesses, .snoc hrun (.entry hsend), by decide +kernel,
    by decide +kernel, by decide +kernel⟩

end Egos.Grass
