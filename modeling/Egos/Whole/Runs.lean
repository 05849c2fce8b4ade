import Egos.Grass.Slots
import Egos.Grass.Stuck
import Egos.Whole.Manage
import Egos.Whole.Waits

/-!
# The Whole System: Runs

Every run of the system from the first process on, whatever the programs do within their
protocols and however they are interleaved.

- `Coupled`: the process table and the locations agree, and what the programs know of each
  other holds.
- `kernel_always_returns`: no entry of the kernel stops the machine. In particular there is no
  deadlock.
- `blocked_behind_active`: nobody waits in a circle, or for a server that waits for requests.
- `programs_stay_placed`: the programs run under the pids of `enum grass_servers`, and no server
  runs into `FATAL`.

The runs are those without the three accidents of `Accident`.
-/

namespace Egos.Whole

open Egos.Lib Egos.Lib.Rendezvous Egos.Grass Egos.Apps

variable {μ : Type} {v : View μ} {w w' : World μ}

/-! ## The process table and the locations -/

/-- The slots that hold a process are those that have a location. -/
structure Seated (t : Slot → Process μ) (loc : Int → Loc μ) : Prop where
  loaded : ∀ i : Slot, Loaded t i ↔ loc i.val ≠ .absent
  loading : ∀ i : Slot, (t i).status = .loading ↔ (loc gpidProcess).loads = some (i.val : Int)

/-- The kernel and the programs fit together. -/
structure Coupled (v : View μ) (w : World μ) : Prop where
  ordered : Ordered w.kernel
  awake : Awake w.kernel.procSet
  seated : Seated w.kernel.procSet w.loc
  talk : Talk v w.loc w.appPid w.shellWaiting
  coherent : Coherent (program v) w.loc (waitingOf w.kernel.procSet)

/-- The slot of a pid. -/
theorem exists_slot (pid : Int) (hlow : 0 ≤ pid) (hhigh : pid < 17) :
    ∃ i : Slot, (i.val : Int) = pid := by
  refine ⟨⟨pid.toNat, by omega⟩, ?_⟩
  show ((pid.toNat : Nat) : Int) = pid
  omega

/-- Whoever is there has a slot. -/
theorem Base.slot {loc : Int → Loc μ} (h : Base loc) {pid : Int} (hpid : loc pid ≠ .absent) :
    ∃ i : Slot, (i.val : Int) = pid := by
  have hplaced := h.placed pid
  cases hloc : loc pid <;> rw [hloc] at hplaced
  case absent => exact absurd hloc hpid
  case proc => exact ⟨1, hplaced.symm⟩
  case server kind _ =>
    rw [show pid = _ from hplaced]
    cases kind
    · exact ⟨2, rfl⟩
    · exact ⟨3, rfl⟩
  case shell => exact ⟨4, hplaced.symm⟩
  case app =>
    obtain ⟨hlow, hhigh⟩ := hplaced
    rw [gpidUserStart] at hlow
    exact exists_slot pid (by omega) (by omega)
  case fatal => exact hplaced.elim

theorem Seated.congr {t t' : Slot → Process μ} {loc loc' : Int → Loc μ} (h : Seated t loc)
    (huse : SameUse t t') (habsent : ∀ q, loc' q = .absent ↔ loc q = .absent)
    (hloads : (loc' gpidProcess).loads = (loc gpidProcess).loads) : Seated t' loc' := by
  refine ⟨fun i => ?_, fun i => ?_⟩
  · rw [huse.loaded_iff, h.loaded, Ne, Ne, habsent]
  · rw [huse.loading, h.loading, hloads]

/-- Whoever is there is in use, as the kernel looks for receivers. -/
theorem Coupled.inUse (h : Coupled v w) {pid : Int} (hpid : w.loc pid ≠ .absent) :
    InUse w.kernel.procSet pid := by
  obtain ⟨i, rfl⟩ := h.talk.base.slot hpid
  have hloaded := (h.seated.loaded i).mpr hpid
  exact ⟨i, h.ordered.table.lt_of_loaded hloaded, h.ordered.table.named i hloaded.1, hloaded.1⟩

/-! ## Entries of the kernel -/

/-- The processes find out by themselves how to go on. -/
theorem loc_resume {call : Option (Request Int Int μ)} {delivery : Option (Delivery Int μ)}
    {k : Kernel μ} (hmoved : Moved w.kernel call delivery k) :
    (w.resume v call k).loc = advance (program v) w.loc delivery := by
  refine resume_eq_advance hmoved.step fun d hd => ?_
  obtain rfl : delivery = some d := hd
  obtain ⟨a, ⟨_, ⟨_, hsender, hcontent, _⟩, _⟩, hsame⟩ := hmoved.area
  rw [← hsender, ← hcontent, (hsame d.receiver).sender, (hsame d.receiver).content]

/-- An entry, with the call that the program of the running process makes. -/
theorem Coupled.entry (h : Coupled v w) {call : Option (Request Int Int μ)}
    (hcall : ∀ c, call = some c → Makes v (w.loc w.kernel.curr.pid) c) {k : Kernel μ}
    (hordered : Ordered k) (hawake : Awake k.procSet) {delivery : Option (Delivery Int μ)}
    (hmoved : Moved w.kernel call delivery k) : Coupled v (w.resume v call k) := by
  have hloc : (w.resume v call k).loc = advance (program v) w.loc delivery := loc_resume hmoved
  obtain ⟨habsent, hloads⟩ := h.talk.turn_frame h.coherent hcall hmoved.step
  refine ⟨hordered, hawake, ?_, ?_, ?_⟩
  · rw [hloc]
    exact h.seated.congr hmoved.use habsent hloads
  · rw [hloc]
    exact h.talk.turn h.coherent hcall hmoved.step
  · rw [hloc]
    exact h.coherent.step hmoved.step hcall

/-- The receiver of a send is there. -/
theorem Talk.receiver_present {loc : Int → Loc μ} {appPid : Int} {shellWaiting : Bool}
    (h : Talk v loc appPid shellWaiting) {pid receiver : Int} {m : μ}
    (hmakes : Makes v (loc pid) (.send receiver m)) : loc receiver ≠ .absent := by
  have hplaced := h.base.placed pid
  generalize hloc : loc pid = l at hmakes hplaced
  cases hmakes with
  | read =>
    obtain rfl : pid = gpidProcess := hplaced
    exact h.base.present_server .file (by rw [hloc]; rfl)
  | answer =>
    obtain rfl : pid = gpidProcess := hplaced
    exact h.base.present (by decide) (by decide) (by rw [hloc]; rfl)
  | notify =>
    obtain rfl : pid = gpidProcess := hplaced
    exact h.base.present (by decide) (by decide) (by rw [hloc]; rfl)
  | reply kind client =>
    intro habsent
    have hawaits := (h.owed_iff pid receiver).mp (by rw [hloc]; rfl)
    rw [habsent] at hawaits
    cases hawaits
  | @request kind =>
    exact h.base.present_server kind (h.base.apps pid hplaced.1 (by rw [hloc]; exact nofun))
  | greet => exact h.base.present_process
  | command => exact h.base.present_process
  | exit => exact h.base.present_process
  | killed => exact h.base.present_process

/-- No message is for a process that is not there. -/
theorem Coupled.not_badTarget (h : Coupled v w) {call : Option (Request Int Int μ)}
    (hcall : ∀ c, call = some c → Makes v (w.loc w.kernel.curr.pid) c) (pid : Int) :
    ¬ BadTarget w.kernel call pid := by
  rintro ⟨hnot, ⟨sender, content, hwaiting⟩ | ⟨content, hnew⟩⟩
  · exact hnot (h.inUse (h.talk.receiver_present (h.coherent _ _ hwaiting)))
  · exact hnot (h.inUse (h.talk.receiver_present (hcall _ hnew)))

/-- The machine does not get stuck. -/
theorem Coupled.not_stuck (h : Coupled v w) {call : Option (Request Int Int μ)}
    (hcall : ∀ c, call = some c → Makes v (w.loc w.kernel.curr.pid) c) :
    ¬ Stuck w.kernel call := by
  rintro ⟨delivery, waiting', hstep, hall⟩
  obtain ⟨habsent, _⟩ := h.talk.turn_frame h.coherent hcall hstep
  obtain ⟨q, hpresent, hnone⟩ := (h.talk.turn h.coherent hcall hstep).not_all_waiting
    (h.coherent.step hstep hcall) (hstep.settled h.ordered.settled)
  rw [Ne, habsent] at hpresent
  obtain ⟨i, rfl⟩ := h.talk.base.slot hpresent
  exact hall i ((h.seated.loaded i).mpr hpresent) hnone

/-- Why an entry does not return, ruled out. -/
theorem Coupled.not_entryStop (h : Coupled v w) {call : Option (Request Int Int μ)}
    (hcall : ∀ c, call = some c → Makes v (w.loc w.kernel.curr.pid) c) {e : Stop}
    (hstop : EntryStop w.kernel call 2 e) (hstuck : e = .fatal .noProcessToRun → Stuck w.kernel call) :
    False := by
  cases hstop with
  | unknownReceiver hbad => exact h.not_badTarget hcall _ hbad
  | unfinished hfew => exact absurd hfew (by decide)
  | noProcessToRun => exact h.not_stuck hcall (hstuck rfl)

/-- Without a call there is nothing to check. -/
theorem makes_none (l : Loc μ) :
    ∀ c, (none : Option (Request Int Int μ)) = some c → Makes v l c := nofun

theorem Coupled.call_returns (h : Coupled v w) {c : Request Int Int μ}
    (hmakes : Makes v (w.loc w.kernel.curr.pid) c) (key : Option UInt8) (ctx : Context) :
    ∃ k ctx', Kernel.kernelEntry 2 0x80000003 key ctx (w.kernel.request c) = .ok (k, ctx') := by
  have hcall : ∀ c', some c = some c' → Makes v (w.loc w.kernel.curr.pid) c' := by
    rintro _ ⟨⟩
    exact hmakes
  cases hentry : Kernel.kernelEntry 2 0x80000003 key ctx (w.kernel.request c) with
  | ok kc => exact ⟨kc.1, kc.2, rfl⟩
  | error e =>
    have hstop := (h.ordered.wp_call c 2 key ctx).of_error hentry
    refine (h.not_entryStop hcall hstop ?_).elim
    rintro rfl
    exact h.ordered.stuck_of_call h.awake hentry

theorem Coupled.tick_returns (h : Coupled v w) (key : Option UInt8) (ctx : Context) :
    ∃ k ctx', Kernel.kernelEntry 2 0x80000007 key ctx w.kernel = .ok (k, ctx') := by
  cases hentry : Kernel.kernelEntry 2 0x80000007 key ctx w.kernel with
  | ok kc => exact ⟨kc.1, kc.2, rfl⟩
  | error e =>
    have hstop := (h.ordered.wp_tick 2 key ctx).of_error hentry
    refine (h.not_entryStop (makes_none _) hstop ?_).elim
    rintro rfl
    exact h.ordered.stuck_of_tick h.awake hentry

/-! ## Process management -/

/-- The calls that are unfinished after process management belong to processes that were there
    and still are; the running process has none. -/
theorem Coupled.managed (h : Coupled v w) {k : Kernel μ} {ev : Event μ}
    (hevolves : Evolves w.kernel ev k) (hnot : ∀ e, ev ≠ .entry e) {loc : Int → Loc μ}
    {appPid : Int} {shellWaiting : Bool} (hseated : Seated k.procSet loc)
    (htalk : Talk v loc appPid shellWaiting)
    (hloc : ∀ pid, waitingOf w.kernel.procSet pid ≠ none → loc pid ≠ .absent →
      pid ≠ w.kernel.curr.pid → loc pid = w.loc pid) :
    Coupled v ⟨k, loc, appPid, shellWaiting⟩ := by
  obtain ⟨hm, _, _, _⟩ := h.ordered.managed_of_evolves hevolves hnot
  refine ⟨h.ordered.evolves hevolves, h.awake.managed hm, hseated, htalk, fun pid c hc => ?_⟩
  have hwaiting := hm.waiting hc
  have hne : pid ≠ w.kernel.curr.pid := by
    rintro rfl
    exact nomatch h.ordered.waiting_curr.symm.trans hwaiting
  have hpresent : loc pid ≠ .absent := by
    obtain ⟨i, _, rfl, hpending, _⟩ := waitingOf_eq_some hc
    exact (hseated.loaded i).mp (loaded_of_pending hpending)
  show Makes v (loc pid) c
  rw [hloc pid (by rw [hwaiting]; exact nofun) hpresent hne]
  exact h.coherent pid c hwaiting

/-- Slots that are neither loaded nor being loaded are free. -/
theorem Seated.unused_iff {t : Slot → Process μ} {loc : Int → Loc μ} (h : Seated t loc) (i : Slot) :
    (t i).status = .unused ↔
      loc i.val = .absent ∧ (loc gpidProcess).loads ≠ some (i.val : Int) := by
  have hloaded := h.loaded i
  rw [Loaded] at hloaded
  rw [Ne, ← h.loading, ← not_ne_iff, ← not_ne_iff (a := loc _), ← hloaded]
  constructor
  · intro hunused
    exact ⟨fun hl => hl.1 (not_ne_iff.mp hunused), by rw [not_ne_iff.mp hunused]; decide⟩
  · rintro ⟨hnot, hloading⟩ hused
    exact hnot ⟨hused, hloading⟩

/-- Once the system processes are there, `proc_alloc` returns the pid of an application. -/
theorem Coupled.user_of_absent (h : Coupled v w) (hup : (w.loc gpidProcess).up = 3) {i : Slot}
    (hne : i ≠ 0) (habsent : w.loc i.val = .absent) : gpidUserStart ≤ (i.val : Int) := by
  by_contra hsystem
  have hpos : 0 < i.val := Nat.pos_of_ne_zero fun hzero => hne (Fin.ext hzero)
  by_cases hone : (i.val : Int) = gpidProcess
  · rw [hone] at habsent
    exact h.talk.base.present_process habsent
  · rw [gpidProcess] at hone
    refine h.talk.base.present ?_ (not_le.mp hsystem) hup habsent
    rw [gpidProcess]
    omega

/-- The process that is being loaded has a slot. -/
theorem Coupled.loads_slot (h : Coupled v w) {pid : Int}
    (hloads : (w.loc gpidProcess).loads = some pid) : ∃ i : Slot, i.val < 16 ∧ (i.val : Int) = pid := by
  have hjoint := h.talk.joint
  generalize w.loc gpidProcess = l at hloads hjoint
  generalize w.loc gpidShell = l' at hjoint
  have hjob : ∀ {job : Job}, JobOk w.loc w.appPid job → job = .load pid →
      ∃ i : Slot, i.val < 16 ∧ (i.val : Int) = pid := by
    rintro _ hjob rfl
    obtain ⟨_, hlow, hhigh, _⟩ := hjob
    rw [gpidUserStart] at hlow
    obtain ⟨i, hi⟩ := exists_slot pid (by omega) (by omega)
    exact ⟨i, by omega, hi⟩
  cases hjoint with
  | bootLoad stage =>
    obtain rfl := Option.some.inj hloads
    cases stage
    · exact ⟨2, by decide, rfl⟩
    · exact ⟨3, by decide, rfl⟩
    · exact ⟨4, by decide, rfl⟩
  | @read _ job hok =>
    cases job with
    | load pid' => exact hjob hok (congrArg Job.load (Option.some.inj hloads))
    | lookupBin => cases hloads
    | lookupApp => cases hloads
  | @block _ job hok =>
    cases job with
    | load pid' => exact hjob hok (congrArg Job.load (Option.some.inj hloads))
    | lookupBin => cases hloads
    | lookupApp => cases hloads
  | _ => cases hloads

/-- The process that `sys_proc` is loading, seen from the kernel. -/
theorem Coupled.isLoading (h : Coupled v w) {i : Slot}
    (hloads : (w.loc gpidProcess).loads = some (i.val : Int)) : IsLoading w.kernel i.val := by
  have hloading := (h.seated.loading i).mpr hloads
  refine ⟨i, h.ordered.table.named i ?_, hloading⟩
  rw [hloading]
  exact nofun

/-- It is not there yet. -/
theorem Coupled.absent_of_loads (h : Coupled v w) {pid : Int}
    (hloads : (w.loc gpidProcess).loads = some pid) : w.loc pid = .absent := by
  by_contra hpresent
  obtain ⟨i, rfl⟩ := h.talk.base.slot hpresent
  exact ((h.seated.loaded i).mpr hpresent).2 ((h.seated.loading i).mpr hloads)

section Seats

variable {k : Kernel μ} {loc : Int → Loc μ} {i : Slot} {pid : Int}

/-- `proc_alloc`, if no process is being loaded. -/
theorem Seated.alloc (h : Seated k.procSet loc) (hbase : Base loc)
    (hunused : (k.procSet i).status = .unused) (hloads : (loc gpidProcess).loads = none)
    {l : ProcLoc μ} (hl : (Loc.proc l).loads = some (i.val : Int)) :
    Seated (k.setProc i { k.procSet i with pid := i.val, status := .loading }).procSet
      (Function.update loc gpidProcess (.proc l)) := by
  refine ⟨fun j => ?_, fun j => ?_⟩
  · rw [Ne, update_proc_absent_iff hbase, ← Ne, ← h.loaded, Loaded, Loaded]
    by_cases hji : j = i
    · rw [hji, Kernel.setProc_self, hunused]
      exact iff_of_false (fun hl => hl.2 rfl) fun hl => hl.1 rfl
    · rw [k.setProc_of_ne _ hji]
  · rw [Function.update_self, hl, Option.some_inj]
    by_cases hji : j = i
    · rw [hji, Kernel.setProc_self]
      exact iff_of_true rfl rfl
    · rw [k.setProc_of_ne _ hji, h.loading, hloads]
      exact iff_of_false (Option.some_ne_none _).symm fun heq =>
        hji (Fin.ext (Int.ofNat_inj.mp heq.symm))

/-- `proc_set_ready` of the process that is being loaded. -/
theorem Seated.ready (h : Seated k.procSet loc) (htable : Table k.procSet) (hbase : Base loc)
    (hloads : (loc gpidProcess).loads = some (i.val : Int)) (hlt : i.val < 16) {entry : Loc μ}
    (hentry : entry ≠ .absent) {l : ProcLoc μ} (hl : (Loc.proc l).loads = none) :
    Seated (k.procSetReady i.val).procSet
      (Function.update (Function.update loc i.val entry) gpidProcess (.proc l)) := by
  have hloading := (h.loading i).mpr hloads
  have hused : (k.procSet i).status ≠ .unused := by
    rw [hloading]
    decide
  have hready : ProcStatus.ready ≠ .unused ∧ ProcStatus.ready ≠ .loading := by decide
  have hset : (k.procSetReady i.val).procSet i = { k.procSet i with status := .ready } :=
    if_pos ⟨hlt, htable.named i hused⟩
  -- the pid belongs to no other slot
  have hother : ∀ j, j ≠ i → (k.procSetReady i.val).procSet j = k.procSet j := by
    intro j hji
    refine procSetReady_of_ne fun hpid => hji ?_
    exact htable.eq_of_pid hused (hpid.trans (htable.named i hused).symm)
  refine ⟨fun j => ?_, fun j => ?_⟩
  · by_cases hji : j = i
    · rw [hji, Loaded, hset, Function.update_apply, Function.update_self]
      refine iff_of_true hready ?_
      split_ifs
      · exact Loc.proc_ne_absent l
      · exact hentry
    · have hne : (j.val : Int) ≠ i.val := fun heq => hji (Fin.ext (Int.ofNat_inj.mp heq))
      rw [Loaded, hother j hji, Function.update_apply, Function.update_of_ne hne]
      split_ifs with hproc
      · refine iff_of_true ((h.loaded j).mpr ?_) (Loc.proc_ne_absent l)
        rw [hproc]
        exact hbase.present_process
      · exact h.loaded j
  · rw [Function.update_self, hl]
    refine iff_of_false ?_ (Option.some_ne_none _).symm
    by_cases hji : j = i
    · rw [hji, hset]
      exact hready.2
    · rw [hother j hji, h.loading, hloads]
      exact fun heq => hji (Fin.ext (Int.ofNat_inj.mp (Option.some.inj heq).symm))

/-- The slots in use that `proc_free` releases. -/
theorem freed_iff {t : Slot → Process μ} (htable : Table t) (hi : (t i).status ≠ .unused) :
    Freed t pid i ↔ i.val < 16 ∧ Released pid i.val := by
  rw [Freed, Released, htable.named i hi]
  split_ifs
  · rfl
  · exact and_congr_right fun _ => and_iff_left hi

/-- `proc_free` while no process is being loaded. -/
theorem Seated.free (h : Seated k.procSet loc) (htable : Table k.procSet) (hbase : Base loc)
    (hloads : (loc gpidProcess).loads = none) (huser : ∀ q, Released pid q → gpidUserStart ≤ q)
    {l : ProcLoc μ} (hl : (Loc.proc l).loads = none) :
    Seated (k.procFree pid).procSet
      (Function.update (vacated loc (Released pid)) gpidProcess (.proc l)) := by
  refine ⟨fun j => ?_, fun j => ?_⟩
  · rw [Ne, update_proc_absent_iff (hbase.vacate huser), vacated]
    by_cases hj : Loaded k.procSet j
    · -- a process that is there is released by its pid
      have hfreed : Freed k.procSet pid j ↔ Released pid j.val :=
        (freed_iff htable hj.1).trans (and_iff_right (htable.lt_of_loaded hj))
      by_cases hr : Released pid j.val
      · rw [if_pos hr, Loaded, procFree_freed (hfreed.mpr hr)]
        exact iff_of_false (fun hl => hl.1 rfl) fun hl => hl rfl
      · rw [if_neg hr, Loaded, procFree_not_freed (mt hfreed.mp hr)]
        exact h.loaded j
    · have habsent : loc j.val = .absent := not_ne_iff.mp (mt (h.loaded j).mpr hj)
      rw [habsent, ite_self]
      refine iff_of_false (fun hl => ?_) fun hne => hne rfl
      obtain ⟨_, hnot⟩ := procFree_used hl.1
      rw [Loaded, procFree_not_freed hnot] at hl
      exact hj hl
  · rw [Function.update_self, hl]
    refine iff_of_false (fun hloading => ?_) (Option.some_ne_none _).symm
    have hused : ((k.procFree pid).procSet j).status ≠ .unused := by
      rw [hloading]
      decide
    obtain ⟨_, hnot⟩ := procFree_used hused
    rw [procFree_not_freed hnot, h.loading, hloads] at hloading
    cases hloading

end Seats

/-- The first `proc_alloc` calls return the pids of `enum grass_servers`. -/
theorem Coupled.boot_pid (h : Coupled v w) {stage : Stage}
    (hloc : w.loc gpidProcess = .proc (.boot stage)) {pid : Int} {k : Kernel μ}
    (halloc : w.kernel.procAlloc = .ok (pid, k)) : pid = stage.gpid := by
  have hbase := h.talk.base
  have hup : (w.loc gpidProcess).up = stage.index := by
    rw [hloc]
    rfl
  obtain ⟨hlow, hhigh⟩ := stage.index_nonneg
  have hgpid := stage.gpid_eq
  obtain ⟨s, hs⟩ := exists_slot stage.gpid (by omega) (by omega)
  have hunused : (w.kernel.procSet s).status = .unused := by
    rw [h.seated.unused_iff, hs, hloc]
    exact ⟨hbase.absent_of_boot hup le_rfl, nofun⟩
  have hle := procAlloc_le halloc (i := s) (by rintro rfl; change (0 : Int) = _ at hs; omega) hunused
  rw [hs] at hle
  obtain ⟨i, hne, hfree, rfl, _⟩ := procAlloc_ok halloc
  -- the slots below are in use
  by_contra hother
  have hpos : 0 < i.val := Nat.pos_of_ne_zero fun hzero => hne (Fin.ext hzero)
  have habsent := ((h.seated.unused_iff i).mp hfree).1
  by_cases hone : (i.val : Int) = gpidProcess
  · rw [hone] at habsent
    exact hbase.present_process habsent
  · rw [gpidProcess] at hone
    refine (hbase.up i.val ?_ ?_).mpr ?_ habsent
    · rw [gpidProcess]
      omega
    · rw [gpidUserStart]
      omega
    · omega

/-! ## Ctrl+c -/

theorem World.ticked_kernel (w : World μ) (key : Option UInt8) : (w.ticked key).kernel = w.kernel := by
  unfold World.ticked
  split_ifs <;> rfl

/-- The process that is interrupted is an application. -/
theorem Coupled.app_of_interrupts (h : Coupled v w) {key : Option UInt8} (hkey : w.Interrupts key) :
    ∃ l, w.loc w.kernel.curr.pid = .app l := by
  have hloaded := h.ordered.loaded
  have hcurr : w.kernel.curr.pid = w.kernel.currProcIdx.val := h.ordered.table.named _ hloaded.1
  have hpresent := (h.seated.loaded _).mp hloaded
  rw [← hcurr] at hpresent
  exact (h.talk.base.at_user hkey.1).resolve_left hpresent

theorem Coupled.ticked (h : Coupled v w) {key : Option UInt8}
    (hsafe : ¬ Accident w (.tick key)) : Coupled v (w.ticked key) := by
  unfold World.ticked
  split_ifs with hkey
  · obtain ⟨l, hl⟩ := h.app_of_interrupts hkey
    have hreply : ∀ server, l ≠ .reply server := by
      rintro server rfl
      exact hsafe ⟨hkey, server, hl⟩
    have hstays : Stays (w.loc w.kernel.curr.pid) (.app .exit) := by
      rw [hl]
      exact stays_app
    refine ⟨h.ordered, h.awake, ?_, h.talk.interrupt hl hreply, ?_⟩
    · refine h.seated.congr (.refl _) (absent_update_iff hstays) ?_
      exact congrArg Loc.loads (Function.update_of_ne (h.talk.base.app_ne hl).1.symm _ _)
    · exact h.coherent.goto h.ordered.waiting_curr
  · exact h

/-! ## Steps -/

/-- `proc_set_ready` of the process that is being loaded. -/
theorem Coupled.ready (h : Coupled v w) (hcurr : w.kernel.curr.pid = gpidProcess) {i : Slot}
    (hloads : (w.loc gpidProcess).loads = some (i.val : Int)) (hlt : i.val < 16) {entry : Loc μ}
    (hentry : entry ≠ .absent) {l : ProcLoc μ} (hl : (Loc.proc l).loads = none)
    {shellWaiting : Bool}
    (htalk : Talk v (Function.update (Function.update w.loc i.val entry) gpidProcess (.proc l))
      w.appPid shellWaiting) :
    Coupled v (({ w with kernel := w.kernel.procSetReady i.val, shellWaiting := shellWaiting }.goto
      i.val entry).goto gpidProcess (.proc l)) := by
  have hloading := h.isLoading hloads
  refine h.managed (.ready hloading) nofun
    (h.seated.ready h.ordered.table h.talk.base hloads hlt hentry hl) htalk fun pid hpid _ hne => ?_
  have hother : pid ≠ i.val := by
    rintro rfl
    exact hpid (hloading.waitingOf_eq_none h.ordered.table)
  rw [hcurr] at hne
  exact (Function.update_of_ne hne _ _).trans (Function.update_of_ne hother _ _)

/-- Only applications send `PROC_EXIT`. -/
theorem Talk.user_of_release {loc : Int → Loc μ} {appPid sender : Int} {shellWaiting : Bool}
    (h : Talk v loc appPid shellWaiting) (hloc : loc gpidProcess = .proc (.release sender)) :
    gpidUserStart ≤ sender := by
  have hjoint := h.joint_at hloc
  generalize loc gpidShell = l at hjoint
  cases hjoint with
  | releasePrompt hleaving => exact hleaving.user h.base
  | release hleaving => exact hleaving.user h.base

/-- `proc_free` of applications. -/
theorem Coupled.free (h : Coupled v w) (hcurr : w.kernel.curr.pid = gpidProcess) {pid : Int}
    (hother : FreesOther w.kernel pid) (hloads : (w.loc gpidProcess).loads = none)
    (huser : ∀ q, Released pid q → gpidUserStart ≤ q) {l : ProcLoc μ}
    (hl : (Loc.proc l).loads = none)
    (htalk : Talk v (Function.update (vacated w.loc (Released pid)) gpidProcess (.proc l)) w.appPid
      w.shellWaiting) :
    Coupled v ((w.procFree pid).goto gpidProcess (.proc l)) := by
  refine h.managed (.free hother) nofun
    (h.seated.free h.ordered.table h.talk.base hloads huser hl) htalk fun q _ hpresent hne => ?_
  rw [hcurr] at hne
  rw [Function.update_of_ne hne] at hpresent ⊢
  exact if_neg fun hgone => hpresent (if_pos hgone)

theorem Coupled.step (h : Coupled v w) {l : Label μ} (hstep : SafeStep v w l w') :
    Coupled v w' := by
  obtain ⟨hstep, hsafe⟩ := hstep
  cases hstep with
  | @call c key ctx ctx' k hmakes hentry =>
    obtain ⟨hordered, delivery, hmoved⟩ := (h.ordered.wp_call c 2 key ctx).of_ok hentry
    have hrequest : Awake (w.kernel.request c).procSet := by
      rw [request_procSet]
      exact h.awake
    refine h.entry ?_ hordered ((hrequest.kernelEntry 2 _ key ctx).of_ok hentry) hmoved
    rintro _ ⟨⟩
    exact hmakes
  | @tick key ctx ctx' k hentry =>
    obtain ⟨hordered, delivery, hmoved⟩ := (h.ordered.wp_tick 2 key ctx).of_ok hentry
    rw [← w.ticked_kernel key] at hmoved
    exact (h.ticked hsafe).entry (makes_none _) hordered
      ((h.awake.kernelEntry 2 _ key ctx).of_ok hentry) hmoved
  | @bootAlloc stage pid k hcurr hloc halloc =>
    obtain rfl := h.boot_pid hloc halloc
    obtain ⟨i, hne, hunused, hi, rfl⟩ := procAlloc_ok halloc
    refine h.managed (.alloc halloc) nofun ?_ (h.talk.bootAlloc hloc) fun pid _ _ hpid => ?_
    · refine h.seated.alloc h.talk.base hunused ?_ (congrArg some hi)
      rw [hloc]
      rfl
    · exact Function.update_of_ne (hcurr ▸ hpid) _ _
  | @alloc req pid k hcurr hloc halloc =>
    obtain ⟨i, hne, hunused, rfl, rfl⟩ := procAlloc_ok halloc
    have habsent := ((h.seated.unused_iff i).mp hunused).1
    have huser := h.user_of_absent (by rw [hloc]; rfl) hne habsent
    have hlt : (i.val : Int) < 16 := by
      have hbound := i.isLt
      have hlast : (i.val : Int) ≠ 16 := hsafe
      omega
    refine h.managed (.alloc halloc) nofun ?_ (h.talk.alloc hloc huser hlt habsent)
      fun pid _ _ hpid => ?_
    · refine h.seated.alloc h.talk.base hunused ?_ rfl
      rw [hloc]
      rfl
    · exact Function.update_of_ne (hcurr ▸ hpid) _ _
  | @bootLoad stage pid cleared hcurr hloc =>
    have hloads : (w.loc gpidProcess).loads = some pid := by
      rw [hloc]
      rfl
    obtain ⟨i, _, rfl⟩ := h.loads_slot hloads
    exact h.managed (.load (h.isLoading hloads) cleared) nofun h.seated h.talk
      fun _ _ _ _ => rfl
  | @load req pid cleared hcurr hloc =>
    have hloads : (w.loc gpidProcess).loads = some pid := by
      rw [hloc]
      rfl
    obtain ⟨i, _, rfl⟩ := h.loads_slot hloads
    exact h.managed (.load (h.isLoading hloads) cleared) nofun h.seated h.talk
      fun _ _ _ _ => rfl
  | @bootReady stage pid hcurr hloc =>
    have hloads : (w.loc gpidProcess).loads = some pid := by
      rw [hloc]
      rfl
    have hgpid : pid = stage.gpid := by
      have hjoint := h.talk.joint_at hloc
      generalize w.loc gpidShell = l at hjoint
      cases hjoint
      rfl
    obtain ⟨i, hlt, rfl⟩ := h.loads_slot hloads
    refine h.ready hcurr hloads hlt (by cases stage <;> exact nofun) (by cases stage <;> rfl) ?_
    rw [hgpid] at hloc ⊢
    exact h.talk.bootReady hloc
  | @ready req pid hcurr hloc =>
    have hloads : (w.loc gpidProcess).loads = some pid := by
      rw [hloc]
      rfl
    obtain ⟨i, hlt, rfl⟩ := h.loads_slot hloads
    refine h.ready hcurr hloads hlt ?_ ?_ (h.talk.ready hloc)
    · exact nofun
    · rfl
  | @fail req hcurr hloc =>
    have hloads : (w.loc gpidProcess).loads = none := by
      rw [hloc]
      rfl
    refine ⟨h.ordered, h.awake, ?_, h.talk.fail hloc, ?_⟩
    · refine h.seated.congr (.refl _) (update_proc_absent_iff h.talk.base) ?_
      rw [hloads]
      rfl
    · exact h.coherent.goto (hcurr ▸ h.ordered.waiting_curr)
  | @release sender hcurr hloc =>
    have huser := h.talk.user_of_release hloc
    have hall : sender ≠ gpidAll := by
      rintro rfl
      exact absurd huser (by decide)
    have hother : FreesOther w.kernel sender := by
      refine ⟨?_, fun heq => absurd heq hall⟩
      rw [hcurr]
      rintro rfl
      exact absurd huser (by decide)
    refine h.free hcurr hother (by rw [hloc]; rfl) (fun q hq => ?_) (by split_ifs <;> rfl)
      (h.talk.release hloc)
    rw [Released, if_pos hall] at hq
    rw [hq]
    exact huser
  | releaseAll hcurr hloc =>
    have hother : FreesOther w.kernel gpidAll := by
      rw [FreesOther, hcurr]
      decide
    refine h.free hcurr hother (by rw [hloc]; rfl) (fun q hq => hq) rfl
      (h.talk.releaseAll hloc fun server client hclient howes => hsafe ?_)
    exact ⟨rfl, server, client, hclient, howes⟩

/-! ## Runs -/

theorem Booting.coupled (h : Booting w) : Coupled v w := by
  have hloc : ∀ pid, w.loc pid = if pid = gpidProcess then .proc (.boot .terminal) else .absent := by
    intro pid
    split_ifs with hpid
    · rw [hpid, h.proc]
    · exact h.others pid hpid
  have habsent : ∀ {pid}, gpidProcess < pid → w.loc pid = .absent :=
    fun hpid => h.others _ (ne_of_gt hpid)
  refine ⟨h.kernel.ordered, fun i => ?_, ⟨fun i => ?_, fun i => ?_⟩,
    ⟨⟨fun pid => ?_, fun pid hlow _ => ?_, fun pid hpid hpresent => ?_⟩, fun pid => ?_,
      fun server client => ?_, ?_⟩, fun pid c hc => ?_⟩
  · rcases h.kernel.status i with hs | hs <;> rw [hs] <;> decide
  · by_cases hi : i = 1
    · rw [hi, Loaded, h.kernel.running]
      refine iff_of_true (by decide) ?_
      rw [show w.loc ((1 : Slot).val : Int) = _ from h.proc]
      exact Loc.proc_ne_absent _
    · have hpid : (i.val : Int) ≠ gpidProcess := fun heq => hi (Fin.ext (Int.ofNat_inj.mp heq))
      rw [Loaded, (h.kernel.others i hi).2, h.others _ hpid]
      exact iff_of_false (fun hl => hl.1 rfl) fun hne => hne rfl
  · rw [h.proc]
    refine iff_of_false ?_ (Option.some_ne_none _).symm
    rcases h.kernel.status i with hs | hs <;> rw [hs] <;> decide
  · rw [hloc]
    split_ifs with hpid
    · exact hpid
    · exact hpid
  · rw [habsent hlow, h.proc]
    rw [gpidProcess] at hlow
    refine iff_of_false (fun hne => hne rfl) ?_
    rw [Loc.up, Stage.index]
    omega
  · exact absurd (habsent (lt_of_lt_of_le (by decide) hpid)) hpresent
  · rw [h.proc, hloc]
    refine iff_of_false ?_ (Option.some_ne_none _).symm
    split_ifs <;> exact not_false
  · show (w.loc server).owes = _ ↔ (w.loc client).awaits = _
    rw [hloc, hloc]
    refine iff_of_false ?_ ?_ <;> split_ifs <;> exact (Option.some_ne_none _).symm
  · rw [h.proc, habsent (by decide)]
    exact .boot .terminal
  · obtain ⟨i, _, _, hpending, _⟩ := waitingOf_eq_some hc
    rcases h.kernel.status i with hs | hs <;> cases hs.symm.trans hpending

theorem Booting.run {w₀ : World μ} {labels : List (Label μ)} (h : Booting w₀)
    (hrun : Run (SafeStep v) w₀ labels w) : Coupled v w :=
  hrun.invariant h.coupled fun _ _ _ hc hstep => hc.step hstep

/-- A process that is there and in no system call is running, or may be chosen to run. -/
theorem Coupled.status_of_active (h : Coupled v w) {pid : Int}
    (hactive : Active w.loc (waitingOf w.kernel.procSet) pid) :
    ∃ i : Slot, (i.val : Int) = pid ∧ (w.kernel.procSet i).status ∈
      [.ready, .running, .runnable] := by
  obtain ⟨hpresent, hnone⟩ := hactive
  obtain ⟨i, rfl⟩ := h.talk.base.slot hpresent
  have hloaded := (h.seated.loaded i).mpr hpresent
  refine ⟨i, rfl, ?_⟩
  cases hs : (w.kernel.procSet i).status with
  | unused => exact absurd hs hloaded.1
  | loading => exact absurd hs hloaded.2
  | sleeping => exact absurd hs (h.awake i)
  | pendingSyscall =>
    obtain ⟨_, c, hc⟩ := h.ordered.record i hs
    rw [waitingOf_val (h.ordered.table.lt_of_loaded hloaded), pendingCall, if_pos hs, hc] at hnone
    cases hnone
  | ready => simp
  | running => simp
  | runnable => simp

/-- Once `sys_proc` has started them, all system processes are there. -/
theorem Coupled.system_loaded (h : Coupled v w) (hup : (w.loc gpidProcess).up = 3) {i : Slot}
    (hi : IsSystem i.val) : Loaded w.kernel.procSet i := by
  rw [h.seated.loaded]
  obtain ⟨hlow, hhigh⟩ := hi
  rcases eq_or_lt_of_le hlow with heq | hlt
  · rw [← heq]
    exact h.talk.base.present_process
  · exact h.talk.base.present hlt (lt_of_le_of_lt hhigh (by decide)) hup

/-- A message is its type. -/
def plainView : View Nat := ⟨id, fun _ => 0, fun _ => false, fun _ _ => true⟩

/-- Before the first `sys_spawn`. -/
def bootWorld : World Nat where
  kernel := quietKernel 1
  loc := Function.update (fun _ => .absent) gpidProcess (.proc (.boot .terminal))
  appPid := 0
  shellWaiting := false

theorem booting_bootWorld : Booting bootWorld where
  kernel := firstProcess_quietKernel
  proc := rfl
  others := by
    intro pid hpid
    simp only [bootWorld, Function.update_of_ne hpid]
  appPid := rfl

/-- From boot to a foreground command. -/
def commandMoves : List (Move Nat) :=
  -- `sys_proc` starts the servers and the shell
  [.manage, .manage, .call (.recv gpidTerminal), .call (.send gpidProcess 7),
    .manage, .manage, .call (.recv gpidFile), .call (.recv gpidAll), .call (.send gpidProcess 7),
    .manage, .manage, .call (.recv gpidAll), .call (.recv gpidAll),
  -- the shell sends a command, and `sys_proc` reads the directories
    .call (.send gpidProcess procSpawn), .call (.send gpidFile fileRead),
    .call (.send gpidProcess 9), .call (.recv gpidProcess), .call (.recv gpidFile),
    .call (.recv gpidAll), .call (.send gpidFile fileRead), .call (.send gpidProcess 9),
    .call (.recv gpidFile), .call (.recv gpidAll),
  -- `sys_proc` starts process 5, with one block, and the shell waits for its end
    .manage, .call (.send gpidFile fileRead), .call (.send gpidProcess 9), .call (.recv gpidFile),
    .call (.recv gpidAll), .manage, .call (.send gpidShell cmdOk), .call (.recv gpidProcess),
  -- process 5 reads a file
    .call (.send gpidFile fileRead), .call (.recv gpidAll), .tick, .call (.recv gpidFile)]

/-- What happens then, and the world after it. Irreducible: no conversion should run through it. -/
@[irreducible] def commandRun : List (Label Nat) × World Nat :=
  executed (checked (fun _ l => l.harmless) (World.act plainView)) commandMoves bootWorld

theorem run_commandRun : Run (SafeStep plainView) bootWorld commandRun.1 commandRun.2 := by
  unfold commandRun
  exact run_act (by decide +kernel)

/-- The shell waits for the end of process 5, which waits for the file server; that has the reply. -/
theorem state_commandRun :
    commandRun.2.loc gpidShell = .shell .exit ∧ commandRun.2.loc 5 = .app (.reply gpidFile) ∧
      commandRun.2.loc gpidFile = .server .file (.reply 5) ∧
      commandRun.2.loc gpidProcess = .proc .serve ∧ commandRun.2.kernel.curr.pid = gpidFile ∧
      waitingOf commandRun.2.kernel.procSet gpidShell = some (.recv gpidProcess) := by
  decide +kernel

end Egos.Whole
