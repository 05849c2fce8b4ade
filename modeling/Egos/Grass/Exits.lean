import Egos.Grass.Lifecycle

/-!
# The Grass Kernel: The Process Table at Every Return

Runs from the first process on, in which `sys_proc` manages the other processes. Compared to
`Evolves`, `proc_set_ready` may be called for any other pid here, whatever the status of its
slot: `proc_set_status` does not look at the old status.

- `Born`: what a run keeps: the order of the kernel, the first process, and that a slot has a
  pid only if `proc_alloc` gave it one.
- `process_table_invariant`: the table is in order whenever user code runs, and a slot comes
  to life only by a `proc_set_ready` with a pid that `proc_alloc` gave it. If that pid is being
  loaded, nothing ended the process since.
- `freed_slot_set_ready`: without this condition a process that was freed comes back.
-/

namespace Egos.Grass

open Egos.Lib

variable {μ : Type} {k k' k₀ : Kernel μ} {i : Slot}

/-! ## Runs -/

/-- The first process, `sys_proc`, runs, and no other slot was ever used. -/
structure FirstProcess (k : Kernel μ) : Prop where
  curr : k.currProcIdx = 1
  pid : (k.procSet 1).pid = gpidProcess
  running : (k.procSet 1).status = .running
  switched : k.currVmPid = gpidProcess
  others : ∀ i, i ≠ 1 → (k.procSet i).pid = 0 ∧ (k.procSet i).status = .unused

/-- An entry of the kernel by any process, or a call of process management by `sys_proc` about
    another process. Number 0 is the pid of slots that were never used, not of a process. -/
inductive Manages (k : Kernel μ) : Event μ → Kernel μ → Prop where
  | entry {e : Entry μ} {k' : Kernel μ} (h : Enters k e k') : Manages k (.entry e) k'
  | alloc {pid : Int} {k' : Kernel μ} (hcurr : k.curr.pid = gpidProcess)
      (h : k.procAlloc = .ok (pid, k')) : Manages k (.alloc pid) k'
  | load {pid : Int} (hcurr : k.curr.pid = gpidProcess) (cleared : Syscall μ) :
      Manages k (.load pid) (k.elfLoad pid cleared)
  | ready {pid : Int} (hcurr : k.curr.pid = gpidProcess) (hother : pid ≠ k.curr.pid)
      (hpid : pid ≠ 0) : Manages k (.ready pid) (k.procSetReady pid)
  | free {pid : Int} (hcurr : k.curr.pid = gpidProcess) (hother : pid ≠ k.curr.pid) :
      Manages k (.free pid) (k.procFree pid)

/-! ## `proc_set_ready` for any process -/

section Ready

variable {pid : Int}

/-- The slot that `proc_set_ready` sets is the one of its pid. -/
theorem Table.eq_of_ready (h : Table k.procSet) (hpid : pid ≠ 0) (hi : (k.procSet i).pid = pid) :
    pid = i.val := by
  rcases h.pid i with hzero | hval
  · exact absurd (hi.symm.trans hzero) hpid
  · exact hi.symm.trans hval

theorem procSetReady_of_ne (hi : (k.procSet i).pid ≠ pid) :
    (k.procSetReady pid).procSet i = k.procSet i :=
  if_neg fun hc => hi hc.2

/-- A slot that waits or runs afterwards is as it was. -/
theorem procSetReady_eq {status : ProcStatus} (hready : status ≠ .ready)
    (hi : ((k.procSetReady pid).procSet i).status = status) :
    (k.procSetReady pid).procSet i = k.procSet i := by
  refine if_neg fun hc => hready ?_
  have hset : (k.procSetReady pid).procSet i = { k.procSet i with status := .ready } := if_pos hc
  rw [← hi, hset]

theorem procSetReady_unused_iff (htable : Table k.procSet) (h : IsLoading k pid) :
    ((k.procSetReady pid).procSet i).status = .unused ↔ (k.procSet i).status = .unused := by
  refine ⟨fun hunused => ?_, not_imp_not.mp (procSetReady_used htable h)⟩
  rwa [procSetReady_eq (by decide) hunused] at hunused

theorem Table.procSetReady (h : Table k.procSet) (hpid : pid ≠ 0) :
    Table (k.procSetReady pid).procSet := by
  have hsamePid : ∀ i, ((k.procSetReady pid).procSet i).pid = (k.procSet i).pid := by
    intro i
    simp only [Kernel.procSetReady, Kernel.procSetStatus, Kernel.withStatus]
    split_ifs <;> rfl
  refine ⟨fun i => ?_, fun i hi => ?_, ?_, ?_⟩
  · rw [hsamePid]
    exact h.pid i
  · rw [hsamePid]
    by_cases hmatch : (k.procSet i).pid = pid
    · exact hmatch.trans (h.eq_of_ready hpid hmatch)
    · rw [procSetReady_of_ne hmatch] at hi
      exact h.named i hi
  · -- slot 0 has no pid
    have hzero : (k.procSet 0).pid ≠ pid := by
      intro hmatch
      exact hpid (h.eq_of_ready hpid hmatch)
    rw [procSetReady_of_ne hzero]
    exact h.zero
  · -- the loop of `proc_set_status` leaves out the last slot
    have hbound : ¬ ((16 : Slot).val < maxNprocess ∧ (k.procSet 16).pid = pid) :=
      fun hc => absurd hc.1 (by decide)
    have hlast : (k.procSetReady pid).procSet 16 = k.procSet 16 := by
      show Kernel.withStatus k.procSet pid .ready 16 = k.procSet 16
      rw [Kernel.withStatus, if_neg hbound]
    rw [hlast]
    exact h.last

theorem Ordered.procSetReady (h : Ordered k) (hpid : pid ≠ 0) (hother : pid ≠ k.curr.pid) :
    Ordered (k.procSetReady pid) := by
  have hcurr : (k.procSetReady pid).procSet k.currProcIdx = k.procSet k.currProcIdx :=
    procSetReady_of_ne fun hmatch => hother hmatch.symm
  refine ⟨h.table.procSetReady hpid, fun i hi => ?_, h.settled.mono ?_, ?_, fun i hi => ?_, ?_⟩
  · have hsame := procSetReady_eq ProcStatus.noConfusion hi
    rw [hsame] at hi ⊢
    exact h.record i hi
  · -- a process that waits afterwards waited before
    intro pid' c hc
    obtain ⟨i, hslot, hcall⟩ := Option.bind_eq_some_iff.mp hc
    have hpending : ((k.procSetReady pid).procSet i).status = .pendingSyscall := by
      by_contra hne
      rw [pendingCall, if_neg hne] at hcall
      cases hcall
    rw [procSetReady_eq ProcStatus.noConfusion hpending] at hcall
    exact Option.bind_eq_some_iff.mpr ⟨i, hslot, hcall⟩
  · exact (congrArg Process.status hcurr).trans h.running
  · have hsame := procSetReady_eq ProcStatus.noConfusion hi
    rw [hsame] at hi
    exact h.only i hi
  · exact h.switched.trans (congrArg Process.pid hcurr).symm

end Ready

/-! ## What runs keep -/

/-- The event sets the process ready, or frees it: `proc_free` of its pid, or of all user
    processes. -/
def Settles (pid : Int) (ev : Event μ) : Prop :=
  ev = .ready pid ∨ ev = .free pid ∨ ev = .free gpidAll ∧ gpidUserStart ≤ pid

/-- `proc_alloc` returned the pid, and it was neither set ready nor freed since. -/
def AllocatedLast (events : List (Event μ)) (pid : Int) : Prop :=
  ∃ before after, events = before ++ .alloc pid :: after ∧ ∀ ev ∈ after, ¬ Settles pid ev

theorem AllocatedLast.snoc {events : List (Event μ)} {pid : Int} {ev : Event μ}
    (h : AllocatedLast events pid) (hev : ¬ Settles pid ev) :
    AllocatedLast (events ++ [ev]) pid := by
  obtain ⟨before, after, rfl, hafter⟩ := h
  refine ⟨before, after ++ [ev], by rw [List.append_assoc, List.cons_append], ?_⟩
  intro ev' hmem
  rcases List.mem_append.mp hmem with hold | hnew
  · exact hafter ev' hold
  · rw [List.mem_singleton.mp hnew]
    exact hev

theorem allocatedLast_alloc (events : List (Event μ)) (pid : Int) :
    AllocatedLast (events ++ [.alloc pid]) pid :=
  ⟨events, [], rfl, List.forall_mem_nil _⟩

/-- The kernel is in order, the first process is there, and every other slot has a pid only
    if `proc_alloc` gave it one. A slot that is being loaded has been allocated last; the last
    slot of the table is left out, which the other functions do not reach. -/
structure Born (events : List (Event μ)) (k : Kernel μ) : Prop where
  ordered : Ordered k
  pid : (k.procSet 1).pid = gpidProcess
  first : Loaded k.procSet 1
  alloc : ∀ i : Slot, i ≠ 1 → (k.procSet i).pid ≠ 0 → Event.alloc i.val ∈ events
  loading : ∀ i : Slot, i.val < 16 → (k.procSet i).status = .loading → AllocatedLast events i.val

/-- No slot is in a state other than these two. -/
theorem FirstProcess.status (h : FirstProcess k) (i : Slot) :
    (k.procSet i).status = .running ∨ (k.procSet i).status = .unused := by
  by_cases h1 : i = 1
  · rw [h1]
    exact .inl h.running
  · exact .inr (h.others i h1).2

theorem FirstProcess.ordered (h : FirstProcess k) : Ordered k := by
  have hquiet : ∀ i, (k.procSet i).status ≠ .pendingSyscall := by
    intro i hi
    rcases h.status i with hs | hs <;> rw [hs] at hi <;> cases hi
  refine ⟨⟨fun i => ?_, fun i hi => ?_, ?_, ?_⟩, fun i hi => absurd hi (hquiet i), ?_, ?_,
    fun i hi => ?_, ?_⟩
  · by_cases h1 : i = 1
    · rw [h1]
      exact .inr h.pid
    · exact .inl (h.others i h1).1
  · by_cases h1 : i = 1
    · rw [h1]
      exact h.pid
    · exact absurd (h.others i h1).2 hi
  · exact (h.others 0 (by decide)).2
  · exact .inl (h.others 16 (by decide)).2
  · -- nobody waits
    intro d hd
    obtain ⟨i, _, _, hpending, _⟩ := waitingOf_eq_some hd.1
    exact absurd hpending (hquiet i)
  · rw [h.curr]
    exact h.running
  · rw [h.curr]
    by_contra h1
    rw [(h.others i h1).2] at hi
    cases hi
  · rw [h.curr, h.pid]
    exact h.switched

theorem FirstProcess.born (h : FirstProcess k) : Born [] k := by
  have hloading : ∀ i, (k.procSet i).status ≠ .loading := by
    intro i hi
    rcases h.status i with hs | hs <;> rw [hs] at hi <;> cases hi
  refine ⟨h.ordered, h.pid, ?_, fun i h1 hi => absurd (h.others i h1).1 hi,
    fun i _ hi => absurd hi (hloading i)⟩
  constructor <;> rw [h.running] <;> decide

/-- A step that gives no new pid, and keeps the first process. -/
theorem Born.same {events : List (Event μ)} {ev : Event μ} (h : Born events k)
    (hordered : Ordered k') (hpid : ∀ i, (k'.procSet i).pid = (k.procSet i).pid)
    (hfirst : Loaded k'.procSet 1 ↔ Loaded k.procSet 1)
    (hloading : ∀ i : Slot, i.val < 16 → (k'.procSet i).status = .loading →
      (k.procSet i).status = .loading ∧ ¬ Settles (i.val : Int) ev) :
    Born (events ++ [ev]) k' := by
  refine ⟨hordered, ?_, hfirst.mpr h.first, fun i h1 hi => ?_, fun i hlt hi => ?_⟩
  · rw [hpid]
    exact h.pid
  · rw [hpid] at hi
    exact List.mem_append_left _ (h.alloc i h1 hi)
  · obtain ⟨hold, hev⟩ := hloading i hlt hi
    exact (h.loading i hlt hold).snoc hev

/-- A slot that is being loaded has its index as its pid, so no event about it went by. -/
theorem Born.named {events : List (Event μ)} (h : Born events k)
    (hi : (k.procSet i).status = .loading) : (k.procSet i).pid = i.val := by
  apply h.ordered.table.named i
  rw [hi]
  decide

/-- The process with the index of the slot as its pid is in this slot. -/
theorem Born.loading_of_isLoading {events : List (Event μ)} (h : Born events k)
    (hi : IsLoading k i.val) : (k.procSet i).status = .loading := by
  obtain ⟨j, hpid, hloading⟩ := hi
  obtain rfl : j = i := Fin.ext (Int.ofNat_inj.mp ((h.named hloading).symm.trans hpid))
  exact hloading

theorem Born.alloc_step {events : List (Event μ)} {pid : Int} (h : Born events k)
    (halloc : k.procAlloc = .ok (pid, k')) : Born (events ++ [.alloc pid]) k' := by
  have hordered := h.ordered.evolves (.alloc halloc)
  obtain ⟨j, _, hunused, rfl, rfl⟩ := procAlloc_ok halloc
  have hj : j ≠ 1 := by
    rintro rfl
    exact h.first.1 hunused
  have hone := k.setProc_of_ne { k.procSet j with pid := j.val, status := .loading } hj.symm
  refine ⟨hordered, ?_, ?_, fun i h1 hi => ?_, fun i hlt hi => ?_⟩
  · rw [hone]
    exact h.pid
  · unfold Loaded
    rw [hone]
    exact h.first
  · by_cases hij : i = j
    · rw [hij]
      exact List.mem_append_right _ List.mem_cons_self
    · rw [k.setProc_of_ne _ hij] at hi
      exact List.mem_append_left _ (h.alloc i h1 hi)
  · by_cases hij : i = j
    · rw [hij]
      exact allocatedLast_alloc events _
    · rw [k.setProc_of_ne _ hij] at hi
      exact (h.loading i hlt hi).snoc (by simp [Settles])

theorem Born.ready_step {events : List (Event μ)} {pid : Int} (h : Born events k)
    (hcurr : k.curr.pid = gpidProcess) (hother : pid ≠ k.curr.pid) (hpid : pid ≠ 0) :
    Born (events ++ [.ready pid]) (k.procSetReady pid) := by
  have hone : (k.procSetReady pid).procSet 1 = k.procSet 1 := by
    refine procSetReady_of_ne fun hmatch => hother ?_
    rw [hcurr, ← hmatch, h.pid]
  refine h.same (h.ordered.procSetReady hpid hother) (fun i => ?_) ?_ fun i hlt hi => ?_
  · simp only [Kernel.procSetReady, Kernel.procSetStatus, Kernel.withStatus]
    split_ifs <;> rfl
  · unfold Loaded
    rw [hone]
  · have hold : (k.procSet i).status = .loading := by
      rw [← procSetReady_eq ProcStatus.noConfusion hi]
      exact hi
    refine ⟨hold, ?_⟩
    rintro (heq | heq | ⟨heq, _⟩) <;> cases heq
    -- the slot with this pid is ready now, and not being loaded
    have hmatch : (k.procSet i).pid = i.val := h.named hold
    have hset : (k.procSetReady i.val).procSet i = { k.procSet i with status := .ready } :=
      if_pos ⟨hlt, hmatch⟩
    rw [hset] at hi
    cases hi

theorem Born.free_step {events : List (Event μ)} {pid : Int} (h : Born events k)
    (hcurr : k.curr.pid = gpidProcess) (hother : pid ≠ k.curr.pid) :
    Born (events ++ [.free pid]) (k.procFree pid) := by
  have hfrees : FreesOther k pid := ⟨hother, fun _ => by rw [hcurr]; decide⟩
  -- `killall` frees user processes only
  have hone : ¬ Freed k.procSet pid 1 := by
    rintro ⟨_, hmatch⟩
    rw [h.pid] at hmatch
    split_ifs at hmatch with hall
    · exact hother (hmatch.symm.trans hcurr.symm)
    · exact absurd hmatch.1 (by decide)
  refine h.same (h.ordered.evolves (.free hfrees)) (fun i => ?_) ?_ fun i hlt hi => ?_
  · by_cases hfreed : Freed k.procSet pid i
    · rw [procFree_freed hfreed]
    · rw [procFree_not_freed hfreed]
  · unfold Loaded
    rw [procFree_not_freed hone]
  · have hused : ((k.procFree pid).procSet i).status ≠ .unused := by
      rw [hi]
      decide
    obtain ⟨_, hnot⟩ := procFree_used hused
    rw [procFree_not_freed hnot] at hi
    refine ⟨hi, fun hsettles => hnot ⟨hlt, ?_⟩⟩
    rcases hsettles with heq | heq | ⟨heq, huser⟩ <;> cases heq
    · have hall : (i.val : Int) ≠ gpidAll := by
        unfold gpidAll
        omega
      rw [if_pos hall]
      exact h.named hi
    · rw [if_neg (not_not_intro rfl), h.named hi]
      exact ⟨huser, by rw [hi]; decide⟩

theorem Born.step {events : List (Event μ)} {ev : Event μ} (h : Born events k)
    (he : Manages k ev k') : Born (events ++ [ev]) k' := by
  cases he with
  | entry henters =>
    obtain ⟨hordered, _, _, hmoved⟩ := h.ordered.enters henters
    exact h.same hordered hmoved.use.pid (hmoved.use.loaded_iff 1) fun i _ hi =>
      ⟨(hmoved.use.loading i).mp hi, by simp [Settles]⟩
  | alloc hcurr halloc => exact h.alloc_step halloc
  | load hcurr cleared =>
    have hm : Managed k.procSet k.procSet := fun _ => .same
    exact h.same (h.ordered.managed hm rfl rfl rfl) (fun _ => rfl) Iff.rfl fun _ _ hi =>
      ⟨hi, by simp [Settles]⟩
  | ready hcurr hother hpid => exact h.ready_step hcurr hother hpid
  | free hcurr hother => exact h.free_step hcurr hother

theorem FirstProcess.run {events : List (Event μ)} (h : FirstProcess k₀)
    (hrun : Run Manages k₀ events k) : Born events k :=
  hrun.invariant_log h.born fun _ _ _ _ hborn he => hborn.step he

/-! ## Slots that come to life -/

/-- The slot has a process that the scheduler takes, or has taken. -/
def Alive (status : ProcStatus) : Prop :=
  status = .ready ∨ status = .runnable ∨ status = .running

theorem Alive.ne_unused {status : ProcStatus} (h : Alive status) : status ≠ .unused := by
  rintro rfl
  rcases h with h | h | h <;> cases h

theorem Alive.ne_loading {status : ProcStatus} (h : Alive status) : status ≠ .loading := by
  rintro rfl
  rcases h with h | h | h <;> cases h

/-- A slot that comes to life was set ready. -/
theorem Born.ready_of_alive {events : List (Event μ)} {ev : Event μ} (h : Born events k)
    (he : Manages k ev k') (hi : ¬ Loaded k.procSet i) (hi' : Alive (k'.procSet i).status) :
    ev = .ready i.val ∧ (k.procSet i).pid = i.val := by
  have hloaded : Loaded k'.procSet i := ⟨hi'.ne_unused, hi'.ne_loading⟩
  cases he with
  | entry henters =>
    obtain ⟨_, _, _, hmoved⟩ := h.ordered.enters henters
    exact absurd ((hmoved.use.loaded_iff i).mp hloaded) hi
  | alloc hcurr halloc =>
    obtain ⟨j, _, _, _, rfl⟩ := procAlloc_ok halloc
    by_cases hij : i = j
    · subst hij
      rw [Kernel.setProc_self] at hi'
      exact absurd rfl hi'.ne_loading
    · unfold Loaded at hloaded
      rw [k.setProc_of_ne _ hij] at hloaded
      exact absurd hloaded hi
  | load => exact absurd hloaded hi
  | @ready pid hcurr hother hpid =>
    by_cases hmatch : (k.procSet i).pid = pid
    · have hval := h.ordered.table.eq_of_ready hpid hmatch
      exact ⟨congrArg Event.ready hval, hmatch.trans hval⟩
    · unfold Loaded at hloaded
      rw [procSetReady_of_ne hmatch] at hloaded
      exact absurd hloaded hi
  | @free pid =>
    have hused := procFree_used hloaded.1
    unfold Loaded at hloaded
    rw [procFree_not_freed hused.2] at hloaded
    exact absurd hloaded hi

/-- Whenever user code runs: every slot has the pid 0 or its index, exactly one slot is
    running, it is the current one, and its memory is switched in. A slot that is unused or
    being loaded becomes ready, runnable or running only by a `proc_set_ready` for it, and
    `proc_alloc` returned its pid before. If that `proc_set_ready` is for a pid that is being
    loaded, as the calls in `sys_spawn` and `app_spawn` are, the slot was not unused, and it was
    neither set ready nor freed since that `proc_alloc`. -/
theorem process_table_invariant {events : List (Event μ)} (hfirst : FirstProcess k₀)
    (hrun : Run Manages k₀ events k) :
    (∀ i, (k.procSet i).pid = 0 ∨ (k.procSet i).pid = i.val) ∧
    (∃! i, (k.procSet i).status = .running) ∧
    (k.procSet k.currProcIdx).status = .running ∧
    k.currVmPid = (k.procSet k.currProcIdx).pid ∧
    ∀ ev k', Manages k ev k' → ∀ i : Slot,
      (k.procSet i).status = .unused ∨ (k.procSet i).status = .loading →
      Alive (k'.procSet i).status →
        ev = .ready i.val ∧ Event.alloc i.val ∈ events ∧
          (IsLoading k i.val → (k.procSet i).status = .loading ∧ AllocatedLast events i.val) := by
  have h := hfirst.run hrun
  refine ⟨h.ordered.table.pid, ⟨k.currProcIdx, h.ordered.running, h.ordered.only⟩,
    h.ordered.running, h.ordered.switched, fun ev k' he i hidle halive => ?_⟩
  have hnot : ¬ Loaded k.procSet i := fun hloaded => hidle.elim hloaded.1 hloaded.2
  obtain ⟨hev, hpid⟩ := h.ready_of_alive he hnot halive
  have hlt : i.val < 16 :=
    (h.step he).ordered.table.lt_of_loaded ⟨halive.ne_unused, halive.ne_loading⟩
  refine ⟨hev, h.alloc i (fun h1 => hnot (h1 ▸ h.first)) ?_, fun hready => ?_⟩
  · -- slot 0 stays without a pid, so the pid is not 0
    have hzero : i ≠ 0 := by
      rintro rfl
      cases he with
      | ready _ _ hne => exact hne (Event.ready.inj hev)
      | _ => cases hev
    rw [hpid]
    exact fun h0 => hzero (Fin.ext (show i.val = 0 by omega))
  · have hloading := h.loading_of_isLoading hready
    exact ⟨hloading, h.loading i hlt hloading⟩

/-! ## A process that was freed -/

/-- `sys_proc` has allocated the second process. -/
def allocatedKernel : Kernel Nat :=
  (quietKernel 1).setProc 2 { (quietKernel 1).procSet 2 with pid := 2, status := .loading }

/-- The second process was set ready and freed. Its slot keeps the pid. -/
def freedKernel : Kernel Nat := (allocatedKernel.procSetReady 2).procFree 2

theorem firstProcess_quietKernel : FirstProcess (quietKernel 1) where
  curr := rfl
  pid := rfl
  running := rfl
  switched := rfl
  others := by
    intro i hi
    have hval : i.val ≠ 1 := fun h => hi (Fin.ext h)
    have hnone : ¬ (0 < i.val ∧ i.val ≤ 1) := by omega
    simp only [quietKernel, if_neg hval, if_neg hnone, and_self]

theorem run_allocatedKernel : Run Manages (quietKernel 1) [.alloc 2] allocatedKernel :=
  .cons (.alloc rfl rfl) .nil

theorem run_freedKernel :
    Run Manages (quietKernel 1) [.alloc 2, .ready 2, .free 2] freedKernel := by
  have halloc : Manages (quietKernel 1) (.alloc 2) allocatedKernel := .alloc rfl rfl
  have hready : Manages allocatedKernel (.ready 2) (allocatedKernel.procSetReady 2) :=
    .ready rfl (by decide) (by decide)
  have hfree : Manages (allocatedKernel.procSetReady 2) (.free 2) freedKernel :=
    .free rfl (by decide)
  exact .cons halloc (.cons hready (.cons hfree .nil))

/-- After `proc_alloc`, `proc_set_ready` and `proc_free` of a process, one more `proc_set_ready`
    takes its slot from unused to ready: `proc_free` leaves the pid in the slot, and
    `proc_set_status` looks at nothing else. There was no `proc_alloc` in between. -/
theorem freed_slot_set_ready :
    FirstProcess (quietKernel 1) ∧
      Run Manages (quietKernel 1) [.alloc 2, .ready 2, .free 2] freedKernel ∧
      (freedKernel.procSet 2).status = .unused ∧
      Manages freedKernel (.ready 2) (freedKernel.procSetReady 2) ∧
      ((freedKernel.procSetReady 2).procSet 2).status = .ready ∧
      ¬ AllocatedLast ([.alloc 2, .ready 2, .free 2] : List (Event Nat)) 2 := by
  refine ⟨firstProcess_quietKernel, run_freedKernel, by decide, .ready rfl (by decide) (by decide),
    by decide, ?_⟩
  rintro ⟨before, after, hevents, hafter⟩
  -- the only `proc_alloc` is the first event, so the `proc_free` comes behind it
  cases before with
  | nil =>
    obtain rfl := (List.cons.inj hevents).2
    exact hafter (.free 2) (by simp) (.inr (.inl rfl))
  | cons _ before =>
    have hmem : (.alloc 2 : Event Nat) ∈ [.ready 2, .free 2] := by
      rw [(List.cons.inj hevents).2]
      exact List.mem_append_right _ List.mem_cons_self
    simp at hmem

theorem process_table_invariant_ready :
    Manages allocatedKernel (.ready 2) (allocatedKernel.procSetReady 2) ∧
      IsLoading allocatedKernel 2 ∧
      ((allocatedKernel.procSetReady 2).procSet 2).status = .ready ∧
      AllocatedLast ([.alloc 2] : List (Event Nat)) 2 ∧
      ∃! i, (allocatedKernel.procSet i).status = .running := by
  have hready : Manages allocatedKernel (.ready 2) (allocatedKernel.procSetReady 2) :=
    .ready rfl (by decide) (by decide)
  have hstatus : ((allocatedKernel.procSetReady 2).procSet 2).status = .ready := by decide
  have hinvariant := process_table_invariant firstProcess_quietKernel run_allocatedKernel
  obtain ⟨_, hrunning, _, _, hborn⟩ := hinvariant
  have hloading : IsLoading allocatedKernel 2 := by decide
  obtain ⟨_, _, hlast⟩ := hborn _ _ hready 2 (.inr (by decide)) (.inl hstatus)
  exact ⟨hready, hloading, hstatus, (hlast hloading).2, hrunning⟩

end Egos.Grass
