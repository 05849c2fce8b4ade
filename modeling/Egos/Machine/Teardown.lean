import Egos.Machine.Memory

/-!
# The Machine: Processes and Their Pages

`proc_free` first releases the pages of a process and then its slot. A timer interrupt in
between may select the process, which then runs without its pages (`selected_without_page`).

- `turns_procFree`: without interrupts, the pieces of `proc_free` are the function of the
  kernel and that of the software TLB.
- `Sound`: the pages of a process in use are recorded for it, up to those that `mmu_free` has
  passed; every step keeps this.
- `installed_after_entry`: if the kernel is never entered between the first page of a process
  that `mmu_free` releases and the end of its slot, then whoever is selected has all pages
  that `elf_load` mapped for it.
-/

namespace Egos.Machine

open Egos.Grass Egos.Earth Egos.Lib

variable {μ π : Type} {zero : π} {s s' s₀ : State μ π} {k : Kernel μ} {i : Slot}

/-! ## `proc_free` without interrupts -/

/-- Some turns lead from the first state to the second. -/
abbrev Turns (s s' : State μ π) : Prop := Relation.ReflTransGen (fun s s' => s' = State.turn s) s s'

/-- The loop of `mmu_free`. -/
theorem turns_releasing (s : State μ π) (pid : Int) (pages : List PageId) (target : Target) :
    Turns { s with task := .releasing pid pages target }
      { s with
        tlb := pages.foldl (Tlb.freePage pid) s.tlb
        task := .releasing pid [] target } := by
  induction pages generalizing s with
  | nil => exact .refl
  | cons i pages ih => exact .head rfl (ih { s with tlb := s.tlb.freePage pid i })

/-- The processes that `proc_free(GPID_ALL)` releases. -/
def IsUser (p : Process μ) : Prop := p.pid ≥ gpidUserStart ∧ p.status ≠ .unused

instance (p : Process μ) : Decidable (IsUser p) := inferInstanceAs (Decidable (_ ∧ _))

/-- A turn of the loop of `proc_free(GPID_ALL)`, as a whole. -/
def freeSlot (kt : Kernel μ × Tlb π) (i : Slot) : Kernel μ × Tlb π :=
  if IsUser (kt.1.procSet i) then
    (kt.1.setProc i { kt.1.procSet i with status := .unused },
      kt.2.softTlbFree (kt.1.procSet i).pid)
  else kt

theorem turns_scanning (s : State μ π) (slots : List Slot) :
    Turns { s with task := .scanning slots }
      { s with
        kernel := (slots.foldl freeSlot (s.kernel, s.tlb)).1
        tlb := (slots.foldl freeSlot (s.kernel, s.tlb)).2
        task := .idle } := by
  induction slots generalizing s with
  | nil => exact .single rfl
  | cons i slots ih =>
    rw [List.foldl_cons]
    by_cases huser : IsUser (s.kernel.procSet i)
    · let s₁ : State μ π := { s with
        kernel := s.kernel.setProc i { s.kernel.procSet i with status := .unused }
        tlb := s.tlb.softTlbFree (s.kernel.procSet i).pid }
      have hloop := turns_releasing s (s.kernel.procSet i).pid pageIds (.slot i slots)
      rw [freeSlot, if_pos huser]
      exact .head (if_pos huser).symm (hloop.trans (.head rfl (ih s₁)))
    · rw [freeSlot, if_neg huser]
      exact .head (if_neg huser).symm (ih s)

/-- The loop over the slots, on the table. -/
theorem foldl_freeSlot_procSet (slots : List Slot) (kt : Kernel μ × Tlb π) (j : Slot) :
    (slots.foldl freeSlot kt).1.procSet j =
      if j ∈ slots ∧ IsUser (kt.1.procSet j) then { kt.1.procSet j with status := .unused }
      else kt.1.procSet j := by
  induction slots generalizing kt with
  | nil => rfl
  | cons i slots ih =>
    rw [List.foldl_cons, ih]
    by_cases hji : j = i
    · subst hji
      by_cases huser : IsUser (kt.1.procSet j)
      · -- the slot is released in this turn, and not in use after it
        have hturn : (freeSlot kt j).1.procSet j = { kt.1.procSet j with status := .unused } := by
          rw [freeSlot, if_pos huser]
          exact kt.1.setProc_self ..
        rw [hturn, if_neg fun h => h.2.2 rfl, if_pos ⟨List.mem_cons_self, huser⟩]
      · rw [freeSlot, if_neg huser, if_neg fun h => huser h.2, if_neg fun h => huser h.2]
    · have hturn : (freeSlot kt i).1.procSet j = kt.1.procSet j := by
        rw [freeSlot]
        split_ifs
        · exact kt.1.setProc_of_ne _ hji
        · rfl
      rw [hturn]
      simp only [List.mem_cons, hji, false_or]

theorem foldl_freeSlot_rest (slots : List Slot) (kt : Kernel μ × Tlb π) :
    (slots.foldl freeSlot kt).1 = { kt.1 with procSet := (slots.foldl freeSlot kt).1.procSet } := by
  induction slots generalizing kt with
  | nil => rfl
  | cons i slots ih =>
    rw [List.foldl_cons, ih]
    rw [freeSlot]
    split_ifs <;> rfl

/-- Without interrupts, `proc_free` releases the pages and the slots as the functions of the
    two layers say. -/
theorem turns_procFree (s : State μ π) (pid : Int) :
    Turns (s.procFree pid)
      { s with
        kernel := s.kernel.procFree pid
        tlb := if pid ≠ gpidAll then s.tlb.softTlbFree pid
          else (Kernel.scanOrder.foldl freeSlot (s.kernel, s.tlb)).2
        task := .idle } := by
  unfold State.procFree
  by_cases hall : pid ≠ gpidAll
  · rw [if_pos hall, if_pos hall, Kernel.procFree, if_pos hall]
    exact (turns_releasing s pid pageIds .one).tail rfl
  · have hkernel : s.kernel.procFree pid = (Kernel.scanOrder.foldl freeSlot (s.kernel, s.tlb)).1 := by
      rw [Kernel.procFree, if_neg hall, foldl_freeSlot_rest]
      congr 1
      funext j
      rw [foldl_freeSlot_procSet]
      simp only [mem_scanOrder, IsUser]
      rfl
    rw [if_neg hall, if_neg hall, hkernel]
    exact turns_scanning s Kernel.scanOrder

/-! ## Pages of the processes in use -/

/-- `mmu_free(pid)` is under way, and its loop has passed the page. -/
def Task.Passed : Task → Int → PageId → Prop
  | .releasing pid pages _, p, i => pid = p ∧ i ∉ pages
  | _, _, _ => False

/-- What holds at each place of process management. -/
def Task.Ok (tlb : Tlb π) : Task → Prop
  | .idle => True
  | .allocated i => bitAt tlb.bitmap i = true ∧ (tlb.pageInfoTable i).pid = 0
  | .releasing pid pages .one => pages.Nodup ∧ pid ≠ gpidProcess ∧ pid ≠ gpidAll
  | .releasing pid pages (.slot i slots) =>
      pages.Nodup ∧ i.val < 16 ∧ pid = i.val ∧ pid ≥ gpidUserStart ∧ ∀ j ∈ slots, j.val < 16
  | .scanning slots => ∀ j ∈ slots, j.val < 16

/-- The pages of a process in use are recorded for it, up to those that `mmu_free` has
    passed. The last slot is never run. -/
def Recorded (s : State μ π) : Prop :=
  ∀ i : Slot, i.val < 16 → (s.kernel.procSet i).status ≠ .unused →
    ∀ pv ∈ s.image i.val, ¬ s.task.Passed i.val pv.1 →
      s.tlb.pageInfoTable pv.1 = ⟨i.val, pv.2⟩

/-- The invariant of the machine. -/
structure Sound (s : State μ π) : Prop where
  ordered : Ordered s.kernel
  reserved : Reserved s.tlb
  task : s.task.Ok s.tlb
  recorded : Recorded s

/-- A state from which runs start: no process waits, `sys_proc` is not in the middle of
    process management, and every page that is mapped is recorded and reserved. -/
structure Boot (s : State μ π) : Prop where
  start : Start s.kernel
  reserved : Reserved s.tlb
  idle : s.task = .idle
  recorded : ∀ i : Slot, (s.kernel.procSet i).status ≠ .unused →
    ∀ pv ∈ s.image i.val, s.tlb.pageInfoTable pv.1 = ⟨i.val, pv.2⟩

theorem Boot.sound (h : Boot s) : Sound s where
  ordered := h.start.inv.ordered
  reserved := h.reserved
  task := by
    rw [h.idle]
    trivial
  recorded := fun i _ hused pv hpv _ => h.recorded i hused pv hpv

theorem Task.Ok.congr {t t' : Tlb π} {task : Task} (h : task.Ok t)
    (htable : t'.pageInfoTable = t.pageInfoTable) (hbitmap : t'.bitmap = t.bitmap) :
    task.Ok t' := by
  cases task with
  | allocated i =>
    show bitAt t'.bitmap i = true ∧ (t'.pageInfoTable i).pid = 0
    rw [htable, hbitmap]
    exact h
  | releasing pid pages target => cases target <;> exact h
  | idle => exact h
  | scanning slots => exact h

/-- Using the memory keeps the invariant. -/
theorem Sound.access (h : Sound s) {t : Tlb π} (hmem : Relation.ReflTransGen Access s.tlb t) :
    Sound { s with tlb := t } := by
  obtain ⟨htable, hbitmap⟩ := access_table hmem
  refine ⟨h.ordered, h.reserved.congr htable hbitmap, h.task.congr htable hbitmap, ?_⟩
  intro i hlt hused pv hpv hpassed
  show t.pageInfoTable pv.1 = _
  rw [htable]
  exact h.recorded i hlt hused pv hpv hpassed

/-- A change of the kernel that takes no new slot into use keeps the invariant. -/
theorem Sound.kernel (h : Sound s) (hordered : Ordered k)
    (hused : ∀ i, (k.procSet i).status ≠ .unused → (s.kernel.procSet i).status ≠ .unused) :
    Sound { s with kernel := k } :=
  ⟨hordered, h.reserved, h.task, fun i hlt hi => h.recorded i hlt (hused i hi)⟩

theorem Sound.entry (h : Sound s) {e : Entry μ} {k' : Kernel μ} {t : Tlb π}
    (he : Enters s.kernel e k') (hmem : Relation.ReflTransGen Access s.tlb t) :
    Sound { s with kernel := k', tlb := t } := by
  obtain ⟨hordered, _, _, hmoved⟩ := h.ordered.enters he
  exact (h.kernel hordered fun i hi => (not_congr (hmoved.use.unused i)).mp hi).access hmem

/-- The pid of a slot in use is not 0. -/
theorem Sound.pid_ne_zero (h : Sound s) (hused : (s.kernel.procSet i).status ≠ .unused) :
    (i.val : Int) ≠ 0 := by
  have hne := h.ordered.table.ne_zero hused
  intro hzero
  exact hne (Fin.ext (Int.ofNat_eq_zero.mp hzero))

theorem Sound.alloc (h : Sound s) {pid : Int} {k' : Kernel μ}
    (halloc : s.kernel.procAlloc = .ok (pid, k')) :
    Sound { s with kernel := k', image := Function.update s.image pid [] } := by
  have hordered := h.ordered.evolves (.alloc halloc)
  obtain ⟨j, _, _, rfl, rfl⟩ := procAlloc_ok halloc
  refine ⟨hordered, h.reserved, h.task, ?_⟩
  intro i hlt hused pv hpv hpassed
  by_cases hij : i = j
  · -- nothing is mapped for the new process
    subst hij
    dsimp only at hpv
    rw [Function.update_self] at hpv
    cases hpv
  · have hne : (i.val : Int) ≠ j.val := fun heq => hij (Fin.ext (Int.ofNat_inj.mp heq))
    dsimp only at hused hpv
    rw [Function.update_of_ne hne] at hpv
    rw [s.kernel.setProc_of_ne _ hij] at hused
    exact h.recorded i hlt hused pv hpv hpassed

theorem Sound.mmuAlloc (h : Sound s) {page : PageId} {t : Tlb π}
    (halloc : s.tlb.mmuAlloc zero = .ok (page, t)) (htask : s.task = .idle) :
    Sound { s with tlb := t, task := .allocated page } := by
  obtain ⟨_, hbitmap, htable, _⟩ := pmalloc_ok halloc
  refine ⟨h.ordered, h.reserved.pmalloc halloc, ⟨?_, ?_⟩, ?_⟩
  · rw [hbitmap, bitAt_bitmapSet, decide_eq_true rfl, Bool.true_or]
  · rw [htable]
    exact h.reserved.pmalloc_free halloc
  · intro i hlt hused pv hpv _
    show t.pageInfoTable pv.1 = _
    rw [htable]
    apply h.recorded i hlt hused pv hpv
    rw [htask]
    exact id

theorem Sound.mmuMap (h : Sound s) {page : PageId} (htask : s.task = .allocated page) {pid : Int}
    (hloading : IsLoading s.kernel pid) (v : Nat) (cleared : Syscall μ) :
    Sound { kernel := if v = syscallArgPage then s.kernel.elfLoad pid cleared else s.kernel
            tlb := s.tlb.softTlbMap pid v page
            task := .idle
            image := Function.update s.image pid ((page, v) :: s.image pid) } := by
  have hok := h.task
  rw [htask] at hok
  obtain ⟨hbit, hfree⟩ := hok
  have hkernel : Ordered (if v = syscallArgPage then s.kernel.elfLoad pid cleared else s.kernel) ∧
      (if v = syscallArgPage then s.kernel.elfLoad pid cleared else s.kernel).procSet =
        s.kernel.procSet := by
    split_ifs
    · exact ⟨h.ordered.evolves (.load hloading cleared), rfl⟩
    · exact ⟨h.ordered, rfl⟩
  refine ⟨hkernel.1, h.reserved.softTlbMap hbit, trivial, ?_⟩
  intro i hlt hused pv hpv _
  have hused : (s.kernel.procSet i).status ≠ .unused := by
    rw [← hkernel.2]
    exact hused
  show (s.tlb.softTlbMap pid v page).pageInfoTable pv.1 = _
  -- a page that was there before is not the new one, which belonged to nobody
  have hold : pv ∈ s.image i.val →
      (s.tlb.softTlbMap pid v page).pageInfoTable pv.1 = ⟨i.val, pv.2⟩ := by
    intro hmem
    have hrecorded := h.recorded i hlt hused pv hmem (by rw [htask]; exact id)
    rw [softTlbMap_pageInfoTable_of_ne, hrecorded]
    intro heq
    rw [heq] at hrecorded
    rw [hrecorded] at hfree
    exact h.pid_ne_zero hused hfree
  dsimp only at hpv
  by_cases hpid : (i.val : Int) = pid
  · subst hpid
    rw [Function.update_self] at hpv
    rcases List.mem_cons.mp hpv with rfl | hmem
    · exact softTlbMap_pageInfoTable_self ..
    · exact hold hmem
  · rw [Function.update_of_ne hpid] at hpv
    exact hold hpv

/-- While `mmu_free` has not passed a page, it does not matter where `sys_proc` is. -/
theorem Sound.recorded_task (h : Sound s) (hnone : ∀ p page, ¬ s.task.Passed p page)
    (task : Task) : Recorded { s with task := task } :=
  fun i hlt hused pv hpv _ => h.recorded i hlt hused pv hpv (hnone i.val pv.1)

theorem Sound.procFree (h : Sound s) (htask : s.task = .idle) {pid : Int}
    (hother : pid ≠ gpidProcess) : Sound (s.procFree pid) := by
  have hnone : ∀ p page, ¬ s.task.Passed p page := by
    rw [htask]
    exact fun _ _ => id
  unfold State.procFree
  split_ifs with hall
  · exact ⟨h.ordered, h.reserved, ⟨nodup_pageIds, hother, hall⟩, h.recorded_task hnone _⟩
  · exact ⟨h.ordered, h.reserved, fun j hj => mem_scanOrder.mp hj, h.recorded_task hnone _⟩

/-! ### The pieces of `proc_free` -/

theorem Task.Ok.nodup {t : Tlb π} {pid : Int} {pages : List PageId} {target : Target}
    (h : (Task.releasing pid pages target).Ok t) : pages.Nodup := by
  cases target <;> exact h.1

theorem Task.Ok.tail {t t' : Tlb π} {pid : Int} {page : PageId} {pages : List PageId}
    {target : Target} (h : (Task.releasing pid (page :: pages) target).Ok t) :
    (Task.releasing pid pages target).Ok t' := by
  cases target <;> exact ⟨(List.nodup_cons.mp h.1).2, h.2⟩

/-- A turn of the loop of `mmu_free`. -/
theorem Sound.releasePage {pid : Int} {page : PageId} {pages : List PageId} {target : Target}
    (h : Sound s) (htask : s.task = .releasing pid (page :: pages) target) :
    Sound { s with tlb := s.tlb.freePage pid page, task := .releasing pid pages target } := by
  have hok := h.task
  rw [htask] at hok
  refine ⟨h.ordered, h.reserved.freePage pid page, hok.tail, ?_⟩
  intro i hlt hused pv hpv hpassed
  have hbefore : ¬ s.task.Passed i.val pv.1 := by
    rw [htask]
    rintro ⟨hpid, hmem⟩
    exact hpassed ⟨hpid, fun hin => hmem (List.mem_cons_of_mem page hin)⟩
  have hrecorded := h.recorded i hlt hused pv hpv hbefore
  show (s.tlb.freePage pid page).pageInfoTable pv.1 = _
  rw [freePage_pageInfoTable]
  by_cases hpage : pv.1 = page
  · -- the page stays with its process, for it is not the one that is released
    have hpid : (i.val : Int) ≠ pid := by
      rintro rfl
      refine hpassed ⟨rfl, ?_⟩
      rw [hpage]
      exact (List.nodup_cons.mp hok.nodup).1
    rw [hpage, Function.update_self, ← hpage, hrecorded]
    exact if_neg hpid
  · rw [Function.update_of_ne hpage, hrecorded]

/-- Releasing one slot by its index is `proc_free` of its pid. -/
theorem setProc_unused_eq_procFree (htable : Table k.procSet) (hlt : i.val < 16)
    (hne : (i.val : Int) ≠ 0) :
    k.setProc i { k.procSet i with status := .unused } = k.procFree i.val := by
  have hall : (i.val : Int) ≠ gpidAll := by
    unfold gpidAll
    omega
  rw [Kernel.procFree, if_pos hall, Kernel.procSetStatus, Kernel.setProc]
  congr 1
  funext j
  rw [Kernel.withStatus]
  by_cases hji : j = i
  · subst hji
    rw [Function.update_self]
    by_cases hpid : (k.procSet j).pid = j.val
    · rw [if_pos ⟨hlt, hpid⟩]
    · -- a slot with another pid is not in use
      have hunused : (k.procSet j).status = .unused := by
        by_contra hused
        exact hpid (htable.named j hused)
      rw [if_neg fun hc => hpid hc.2, ← hunused]
  · rw [Function.update_of_ne hji, if_neg]
    rintro ⟨_, hpid⟩
    rcases htable.pid j with hzero | hown
    · exact hne (hpid.symm.trans hzero)
    · exact hji (Fin.ext (Int.ofNat_inj.mp (hown.symm.trans hpid)))

/-- The slot of the process whose pages have been released goes last. -/
theorem Sound.releaseSlot {pid : Int} {target : Target} (h : Sound s)
    (htask : s.task = .releasing pid [] target) (hproc : s.kernel.curr.pid = gpidProcess)
    (hother : pid ≠ gpidProcess) (hall : pid ≠ gpidAll) (task : Task) (hok : task.Ok s.tlb) :
    Sound { s with kernel := s.kernel.procFree pid, task := task } := by
  have hfrees : FreesOther s.kernel pid :=
    ⟨by rw [hproc]; exact hother, fun heq => absurd heq hall⟩
  refine ⟨h.ordered.evolves (.free hfrees), h.reserved, hok, ?_⟩
  intro i hlt hused pv hpv _
  obtain ⟨hused, hkept⟩ := procFree_used hused
  apply h.recorded i hlt hused pv hpv
  rw [htask]
  rintro ⟨hpid, _⟩
  -- the process is not in use any more
  refine hkept ⟨hlt, ?_⟩
  rw [if_pos hall, h.ordered.table.named i hused, hpid]

theorem Sound.turn (h : Sound s) (hproc : s.kernel.curr.pid = gpidProcess) : Sound s.turn := by
  have hok := h.task
  unfold State.turn
  split
  case h_1 pid page pages target htask => exact h.releasePage htask
  case h_2 pid htask =>
    rw [htask] at hok
    obtain ⟨_, hother, hall⟩ := hok
    have hfree := h.releaseSlot htask hproc hother hall .idle trivial
    rwa [Kernel.procFree, if_pos hall] at hfree
  case h_3 pid i slots htask =>
    rw [htask] at hok
    obtain ⟨_, hlt, rfl, huser, hslots⟩ := hok
    unfold gpidUserStart at huser
    rw [setProc_unused_eq_procFree h.ordered.table hlt (by omega)]
    exact h.releaseSlot htask hproc (by unfold gpidProcess; omega) (by unfold gpidAll; omega) _
      hslots
  case h_4 i slots htask =>
    have hnone : ∀ p page, ¬ s.task.Passed p page := by
      rw [htask]
      exact fun _ _ => id
    rw [htask] at hok
    dsimp only
    split_ifs with huser
    · have hpid := h.ordered.table.named i huser.2
      refine ⟨h.ordered, h.reserved, ⟨nodup_pageIds, hok i List.mem_cons_self, hpid, huser.1, ?_⟩,
        h.recorded_task hnone _⟩
      exact fun j hj => hok j (List.mem_cons_of_mem i hj)
    · exact ⟨h.ordered, h.reserved, fun j hj => hok j (List.mem_cons_of_mem i hj),
        h.recorded_task hnone _⟩
  case h_5 htask =>
    refine ⟨h.ordered, h.reserved, trivial, h.recorded_task ?_ _⟩
    rw [htask]
    exact fun _ _ => id
  case h_6 => exact h
  case h_7 => exact h

/-- Every step keeps the invariant. -/
theorem Sound.step (h : Sound s) {a : Act μ} (ha : Step zero s a s') : Sound s' := by
  cases ha with
  | entry he _ hmem _ => exact h.entry he hmem
  | user hmem _ => exact h.access hmem
  | alloc _ _ halloc => exact h.alloc halloc
  | mmuAlloc _ htask halloc => exact h.mmuAlloc halloc htask
  | mmuMap _ htask hloading v cleared => exact h.mmuMap htask hloading v cleared
  | ready _ _ hloading =>
    exact h.kernel (h.ordered.evolves (.ready hloading))
      fun i hi => procSetReady_used h.ordered.table hloading hi
  | free _ htask hother => exact h.procFree htask hother
  | turn hproc => exact h.turn hproc

/-! ## Selecting a process -/

/-- Every page that `elf_load` mapped for the running process is recorded for it. -/
def Installed (s : State μ π) : Prop :=
  ∀ pv ∈ s.image s.kernel.curr.pid, s.tlb.pageInfoTable pv.1 = ⟨s.kernel.curr.pid, pv.2⟩

/-- If `mmu_free` is under way, its loop has not yet come to the first page of the process. -/
def Intact (s : State μ π) : Prop :=
  ∀ pid pages target, s.task = .releasing pid pages target → ∀ pv ∈ s.image pid, pv.1 ∈ pages

/-- A step in which the kernel is not entered between the release of the first page of a
    process and the end of its slot. -/
def CarefulStep (zero : π) (s : State μ π) (a : Act μ) (s' : State μ π) : Prop :=
  (∀ e, a = .entry e → Intact s) ∧ Step zero s a s'

/-- The running process has its slot, which is none that `mmu_free` works for in an intact
    state. -/
theorem Sound.installed (h : Sound s) (hintact : Intact s) : Installed s := by
  have hrunning := h.ordered.running
  have hused : (s.kernel.procSet s.kernel.currProcIdx).status ≠ .unused := by
    rw [hrunning]
    decide
  have hpid : s.kernel.curr.pid = s.kernel.currProcIdx.val := h.ordered.table.named _ hused
  have hlt : s.kernel.currProcIdx.val < 16 := h.ordered.table.lt_of_loaded h.ordered.loaded
  unfold Installed
  rw [hpid]
  intro pv hpv
  apply h.recorded _ hlt hused pv hpv
  intro hpassed
  cases htask : s.task with
  | releasing pid pages target =>
    rw [htask] at hpassed
    obtain ⟨rfl, hnot⟩ := hpassed
    exact hnot (hintact _ pages target htask pv hpv)
  | _ =>
    rw [htask] at hpassed
    exact hpassed

/-- In every run in which the kernel is not entered between the release of the first page of a
    process and the end of its slot, whoever is selected has the pages that `elf_load` mapped
    for it. -/
theorem installed_after_entry {acts : List (Act μ)} (hboot : Boot s₀)
    (hrun : Run (CarefulStep zero) s₀ acts s) {e : Entry μ}
    (hentry : CarefulStep zero s (.entry e) s') : Installed s' := by
  have hsound : Sound s := hrun.invariant hboot.sound fun t a u ht ha => ht.step ha.2
  refine (hsound.step hentry.2).installed ?_
  have hintact := hentry.1 e rfl
  cases hentry.2 with
  | entry => exact hintact

/-! ### Timer interrupts, executed -/

instance [Force μ] : Force (State μ π) where
  force s f := Force.force s.kernel fun kernel => f { s with kernel := kernel }
  force_eq s f := by simp

/-- A timer interrupt; the kernel ends with the process it selects switched in. -/
def State.act (s : State μ π) (_ : Unit) : Option (Act μ × State μ π) :=
  (s.kernel.act none).map fun r =>
    (.entry r.1, { s with kernel := r.2, tlb := s.tlb.softTlbSwitch r.2.currVmPid })

/-- A step that leaves everything but the kernel and the contents of the pages alone. -/
structure TickStep (zero : π) (s : State μ π) (a : Act μ) (s' : State μ π) : Prop where
  step : Step zero s a s'
  entry : ∃ e, a = .entry e
  task : s'.task = s.task
  image : s'.image = s.image
  table : s'.tlb.pageInfoTable = s.tlb.pageInfoTable

theorem tickStep_of_act (zero : π) {u : Unit} {a : Act μ} (h : s.act u = some (a, s')) :
    TickStep zero s a s' := by
  obtain ⟨⟨e, k⟩, hact, heq⟩ := Option.map_eq_some_iff.mp h
  obtain ⟨rfl, rfl⟩ := Prod.mk.inj heq
  refine ⟨.entry (enters_of_act hact) (fun _ hcall => ?_) (.single (.switch _))
    (softTlbSwitch_currVmPid s.tlb _), ⟨e, rfl⟩, rfl, rfl, softTlbSwitch_pageInfoTable s.tlb _⟩
  exact call_of_act hact

/-- The state after some timer interrupts in a row. -/
def State.ticked [Force μ] (n : Nat) (s : State μ π) : State μ π :=
  (executed State.act (List.replicate n ()) s).2

/-- Some timer interrupts in a row: the last one, and the state before it. -/
theorem exists_last_tick [Force μ] (zero : π) {n : Nat} (hn : 0 < n)
    (hsome : (execute State.act (List.replicate n ()) s).isSome = true) :
    ∃ acts e t, Run (TickStep zero) s acts t ∧ TickStep zero t (.entry e) (s.ticked n) := by
  have hrun := run_executed (fun _ _ _ _ => tickStep_of_act zero) hsome
  have hne : (executed State.act (List.replicate n ()) s).1 ≠ [] := by
    rw [← List.length_pos_iff, length_executed hsome, List.length_replicate]
    exact hn
  obtain ⟨acts, a, t, _, hacts, hlast⟩ := hrun.exists_last hne
  obtain ⟨e, rfl⟩ := hlast.entry
  exact ⟨acts, e, t, hacts, hlast⟩

/-! Process 5 has one page, and `sys_proc` calls `proc_free(5)`. -/

/-- The page 0 belongs to process 5. -/
def appTlb : Tlb Nat :=
  { emptyTlb.softTlbMap 5 0x80200 0 with
    currVmPid := 1
    bitmap := bitmapSet emptyTlb.bitmap 0 }

/-- The servers and one application, which has one page. -/
def appState : State Nat Nat :=
  { kernel := quietKernel 5
    tlb := appTlb
    task := .idle
    image := fun pid => if pid = 5 then [(0, 0x80200)] else [] }

theorem appTlb_pid {page : PageId} (h : (appTlb.pageInfoTable page).pid ≠ 0) : page = 0 := by
  by_contra hpage
  have htable : appTlb.pageInfoTable page = emptyTlb.pageInfoTable page :=
    softTlbMap_pageInfoTable_of_ne emptyTlb 5 0x80200 hpage
  rw [htable] at h
  exact h rfl

theorem boot_appState : Boot appState where
  start := start_fiveProcesses
  reserved := by
    intro page hpid
    obtain rfl := appTlb_pid hpid
    decide
  idle := rfl
  recorded := by
    intro i hused pv hpv
    by_cases hi : (i.val : Int) = 5
    · have himage : appState.image i.val = [(0, 0x80200)] := if_pos hi
      rw [himage, List.mem_singleton] at hpv
      rw [hpv, hi]
      rfl
    · have himage : appState.image i.val = [] := if_neg hi
      rw [himage] at hpv
      cases hpv

theorem pageIds_eq : pageIds = 0 :: pageIds.tail := by
  have hrange : ∀ n, List.finRange (n + 1) = 0 :: (List.finRange (n + 1)).tail := by
    intro n
    rw [List.finRange_succ]
    rfl
  unfold pageIds
  exact hrange 1023

/-- `proc_free(5)` has been called. -/
def freeingState : State Nat Nat := { appState with task := .releasing 5 pageIds .one }

/-- The page of process 5 has been released. -/
def releasedState : State Nat Nat :=
  { appState with tlb := appTlb.freePage 5 0, task := .releasing 5 pageIds.tail .one }

theorem step_freeing : Step 0 appState (.free 5) freeingState :=
  .free (by decide) rfl (by decide)

theorem step_released : Step 0 freeingState .turn releasedState := by
  have hturn : freeingState.turn = releasedState := by
    unfold freeingState State.turn
    rw [pageIds_eq]
    rfl
  rw [← hturn]
  exact .turn (by decide)

/-- Timer interrupts before the first turn of `mmu_free` do no harm: process 5 gets its turn
    with its page. -/
theorem installed_after_entry_early :
    Boot appState ∧ (freeingState.ticked 4).kernel.curr.pid = 5 ∧
      Installed (freeingState.ticked 4) := by
  obtain ⟨acts, e, t, hticks, hlast⟩ := exists_last_tick (0 : Nat) (s := freeingState) (n := 4)
    (by decide) (by decide +kernel)
  -- all pages are still to be looked at
  have hintact : ∀ s : State Nat Nat, s.task = freeingState.task → Intact s := by
    intro s hs pid pages target htask pv _
    rw [hs] at htask
    injection htask with _ hpages
    rw [← hpages]
    exact mem_pageIds pv.1
  have htask : t.task = freeingState.task ∧ Run (CarefulStep 0) freeingState acts t := by
    refine hticks.invariant_log (P := fun acts t => t.task = freeingState.task ∧
      Run (CarefulStep 0) freeingState acts t) ⟨rfl, .nil⟩ ?_
    rintro acts t a u ⟨htask, hrun⟩ htick
    exact ⟨htick.task.trans htask, .snoc hrun ⟨fun _ _ => hintact t htask, htick.step⟩⟩
  have hrun : Run (CarefulStep 0) appState (.free 5 :: acts) t :=
    .cons ⟨fun _ h => (nomatch h), step_freeing⟩ htask.2
  exact ⟨boot_appState, by decide +kernel,
    installed_after_entry boot_appState hrun ⟨fun _ _ => hintact t htask.1, hlast.step⟩⟩

/-- The timer runs off after `mmu_free` has released the page, and process 5 gets its turn
    before `proc_free` goes on: it runs without its page. -/
theorem selected_without_page :
    ∃ (acts : List (Act Nat)) (e : Entry Nat) (s s' : State Nat Nat),
      Boot appState ∧ Run (Step 0) appState acts s ∧ Step 0 s (.entry e) s' ∧
      s'.kernel.curr.pid = 5 ∧ ¬ Installed s' := by
  obtain ⟨acts, e, t, hticks, hlast⟩ := exists_last_tick (0 : Nat) (s := releasedState) (n := 4)
    (by decide) (by decide +kernel)
  have hrun : Run (Step 0) appState (.free 5 :: .turn :: acts) t :=
    .cons step_freeing (.cons step_released (hticks.mono fun _ _ _ h => h.step))
  have hpid : (releasedState.ticked 4).kernel.curr.pid = 5 := by decide +kernel
  refine ⟨_, e, _, _, boot_appState, hrun, hlast.step, hpid, fun hinstalled => ?_⟩
  -- the interrupts change neither what was mapped nor the table
  have hsame : t.image = releasedState.image ∧
      t.tlb.pageInfoTable = releasedState.tlb.pageInfoTable :=
    hticks.invariant (P := fun t => t.image = releasedState.image ∧
      t.tlb.pageInfoTable = releasedState.tlb.pageInfoTable) ⟨rfl, rfl⟩ fun _ _ _ h htick =>
        ⟨htick.image.trans h.1, htick.table.trans h.2⟩
  have himage := hlast.image.trans hsame.1
  have hpage := hinstalled (0, 0x80200) (by rw [hpid, himage]; exact List.mem_singleton_self _)
  rw [hpid, hlast.table.trans hsame.2] at hpage
  -- the entry of the page is free
  have hfreed : (releasedState.tlb.pageInfoTable 0).pid = 0 := rfl
  rw [hpage] at hfreed
  cases hfreed

end Egos.Machine
