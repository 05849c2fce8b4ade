import Egos.Grass.Table
import Egos.Lib.CyclicScan

/-!
# The Grass Kernel: Delivery

What `proc_try_send`, `proc_try_recv` and the loop of `clear_pending_syscalls` do.

The delivery of a message takes two turns of the loop: `proc_try_send` marks the receive as
done inside the table (`Kernel.handOver`), and `proc_try_recv` later copies the message out
and wakes both sides (`Kernel.release`). Three kinds of tables occur on the way:

- `Calm`: no two calls fit, and no receive is marked as done. No slot can make progress.
- `Issued`: the current process has just made a call, so it may fit another one.
- `Half`: one receive is marked as done and not yet released.

A new call can only fit together with the current process, and the current slot is the last
one of the cyclic order. So the loop meets at most one fitting pair, and a receive that is
marked as done is still ahead of it: `Issued.wp_clear`.
-/

namespace Egos.Grass

open Egos.Lib Egos.Lib.Rendezvous

variable {μ : Type}

/-! ## The cyclic order -/

theorem lt_of_mem_cyclicOrder {c i : Slot} (h : i ∈ Kernel.cyclicOrder c) : i.val < 16 := by
  simp only [Kernel.cyclicOrder, maxNprocess, List.mem_map, List.mem_range] at h
  obtain ⟨a, _, rfl⟩ := h
  show (c.val + (a + 1)) % 16 % 17 < 16
  omega

/-- The order is a cyclic scan. -/
theorem cyclicOrder_eq_map (c : Slot) :
    Kernel.cyclicOrder c = (cyclicScan 16 c.val).map (Fin.ofNat 17) := by
  rw [Kernel.cyclicOrder, cyclicScan, List.map_map]
  rfl

/-- Every slot below the last one is in the order, wherever it starts. -/
theorem mem_cyclicOrder (c : Slot) {i : Slot} (hi : i.val < 16) : i ∈ Kernel.cyclicOrder c := by
  rw [cyclicOrder_eq_map, List.mem_map]
  exact ⟨i.val, mem_cyclicScan hi, Fin.ofNat_val_eq_self i⟩

/-- The current slot comes last. -/
theorem cyclicOrder_eq {c : Slot} (hc : c.val < 16) :
    ∃ others, Kernel.cyclicOrder c = others ++ [c] := by
  refine ⟨(List.range 15).map fun i => Fin.ofNat 17 ((c.val + (i + 1)) % 16), ?_⟩
  have hlast : Fin.ofNat 17 ((c.val + (15 + 1)) % 16) = c :=
    Fin.ext (show (c.val + (15 + 1)) % 16 % 17 = c.val by omega)
  rw [Kernel.cyclicOrder, maxNprocess, List.range_succ, List.map_append, List.map_singleton,
    hlast]

/-! ## The two halves of a delivery -/

/-- The receive in slot `j` takes a message from slot `i`. -/
def Takes (t : Slot → Process μ) (i j : Slot) : Prop :=
  (t j).syscall.type = .recv ∧ (t j).syscall.status = .pending ∧
    accepts (t j).syscall.sender (t i).pid

instance (t : Slot → Process μ) (i j : Slot) : Decidable (Takes t i j) := by
  unfold Takes accepts
  infer_instance

namespace Kernel

/-- The record of a receive that a message has been handed to. -/
def filled (src dst : Process μ) : Process μ :=
  { dst with syscall :=
      { dst.syscall with status := .done, sender := src.pid, content := src.syscall.content } }

/-- `proc_try_send` once it has found a receive that takes the message. -/
def handOver (k : Kernel μ) (i j : Slot) : Kernel μ where
  procSet := Function.update k.procSet j (filled (k.procSet i) (k.procSet j))
  currProcIdx := k.currProcIdx
  currVmPid := (k.procSet i).pid
  area := Function.update k.area (k.procSet i).pid
    { k.area (k.procSet i).pid with status := .done }
  actions := k.actions ++
    [.marked (k.procSet i).pid (k.procSet j).pid (k.procSet j).status]

/-- `proc_try_recv` in slot `r` on a receive that is done, with the sender in slot `s`. -/
def release (k : Kernel μ) (s r : Slot) : Kernel μ where
  procSet := Function.update (Function.update k.procSet r
    { k.procSet r with status := .runnable }) s { k.procSet s with status := .runnable }
  currProcIdx := k.currProcIdx
  currVmPid := (k.procSet r).pid
  area := Function.update k.area (k.procSet r).pid (k.procSet r).syscall
  actions := k.actions ++
    [.copied (k.procSet s).pid (k.procSet r).pid (k.procSet r).syscall.content,
      .woken (k.procSet r).pid, .woken (k.procSet s).pid]

theorem handOver_procSet (k : Kernel μ) (i j : Slot) : (k.handOver i j).procSet =
    Function.update k.procSet j (filled (k.procSet i) (k.procSet j)) := rfl

theorem release_procSet (k : Kernel μ) (s r : Slot) : (k.release s r).procSet =
    Function.update (Function.update k.procSet r { k.procSet r with status := .runnable })
      s { k.procSet s with status := .runnable } := rfl

theorem procTrySend_eq (k : Kernel μ) (i : Slot) :
    k.procTrySend i = match k.findReceiver (k.procSet i).syscall.receiver with
      | none => .error (.fatal (.unknownReceiver (k.procSet i).syscall.receiver))
      | some j => if Takes k.procSet i j then .ok (k.handOver i j) else .ok k := by
  rw [procTrySend]
  cases k.findReceiver (k.procSet i).syscall.receiver with
  | none => rfl
  | some j =>
    dsimp only
    by_cases hopen : (k.procSet j).syscall.type = .recv ∧ (k.procSet j).syscall.status = .pending
    · by_cases haccepts : (k.procSet j).syscall.sender = gpidAll ∨
          (k.procSet j).syscall.sender = (k.procSet i).pid
      · rw [if_neg (not_not.mpr hopen), if_neg (not_not.mpr haccepts),
          if_pos (show Takes k.procSet i j from ⟨hopen.1, hopen.2, haccepts⟩)]
        rfl
      · rw [if_neg (not_not.mpr hopen), if_pos haccepts,
          if_neg fun h : Takes k.procSet i j => haccepts h.2.2]
    · rw [if_pos hopen, if_neg fun h : Takes k.procSet i j => hopen ⟨h.1, h.2.1⟩]

end Kernel

/-! ## Three kinds of tables -/

/-- Pending slots hold a call that is not done. -/
def RecordOk (p : Process μ) : Prop :=
  p.status = .pendingSyscall → p.syscall.status = .pending ∧ ∃ c, requestOf p.syscall = some c

/-- Slots in use that are not pending hold no open receive. -/
def IdleOk (p : Process μ) : Prop :=
  p.status ≠ .unused → p.status ≠ .pendingSyscall →
    ¬ (p.syscall.type = .recv ∧ p.syscall.status = .pending)

/-- Nothing can be delivered. -/
structure Calm (t : Slot → Process μ) : Prop where
  table : Table t
  record : ∀ i, RecordOk (t i)
  idle : ∀ i, IdleOk (t i)
  settled : Settled accepts (waitingOf t)

/-- Slot `c` has just made a call. -/
structure Issued (t : Slot → Process μ) (c : Slot) : Prop where
  table : Table t
  record : ∀ i, RecordOk (t i)
  idle : ∀ i, IdleOk (t i)
  pending : (t c).status = .pendingSyscall
  settled : Settled accepts (Function.update (waitingOf t) c.val none)

/-- The receive in slot `r` is done with the message of slot `s`, and neither knows. -/
structure Half (t : Slot → Process μ) (s r : Slot) : Prop where
  table : Table t
  ne : s ≠ r
  record : ∀ i, i ≠ r → RecordOk (t i)
  idle : ∀ i, IdleOk (t i)
  sender : (t s).status = .pendingSyscall
  send : (t s).syscall.type = .send
  receiver : (t r).status = .pendingSyscall
  recv : (t r).syscall.type = .recv
  done : (t r).syscall.status = .done
  source : (t r).syscall.sender = (t s).pid
  settled : Settled accepts (Function.update (waitingOf t) r.val none)

section Slots

variable {t : Slot → Process μ} {k : Kernel μ} {i j c s r : Slot}

theorem loaded_of_pending (h : (t i).status = .pendingSyscall) : Loaded t i := by
  constructor <;> rw [h] <;> decide

theorem Table.lt_of_pending (h : Table t) (hi : (t i).status = .pendingSyscall) : i.val < 16 :=
  h.lt_of_loaded (loaded_of_pending hi)

theorem Table.pid_of_pending (h : Table t) (hi : (t i).status = .pendingSyscall) :
    (t i).pid = i.val := h.named i (loaded_of_pending hi).1

theorem pendingCall_of_pending (h : (t i).status = .pendingSyscall) :
    pendingCall (t i) = requestOf (t i).syscall := by
  rw [pendingCall, if_pos h]

theorem requestOf_send {sc : Syscall μ} (h : sc.type = .send) :
    requestOf sc = some (.send sc.receiver sc.content) := by
  rw [requestOf, h]

theorem requestOf_recv {sc : Syscall μ} (h : sc.type = .recv) :
    requestOf sc = some (.recv sc.sender) := by
  rw [requestOf, h]

/-- A pending send and an open receive that takes it fit. -/
theorem Table.fits_of_takes (h : Table t) (hi : (t i).status = .pendingSyscall)
    (hsend : (t i).syscall.type = .send) (hj : (t j).status = .pendingSyscall)
    (hpid : (t j).pid = (t i).syscall.receiver) (htakes : Takes t i j) :
    Fits accepts (waitingOf t) ⟨i.val, j.val, (t i).syscall.content⟩ := by
  have hjpid := h.pid_of_pending hj
  refine ⟨?_, (t j).syscall.sender, ?_, ?_⟩
  · rw [waitingOf_val (h.lt_of_pending hi), pendingCall_of_pending hi, requestOf_send hsend,
      ← hpid, hjpid]
  · rw [waitingOf_val (h.lt_of_pending hj), pendingCall_of_pending hj, requestOf_recv htakes.1]
  · have haccepts := htakes.2.2
    rwa [h.pid_of_pending hi] at haccepts

/-- An open receive in use belongs to a pending slot. -/
theorem pending_of_takes (hidle : IdleOk (t j)) (huse : (t j).status ≠ .unused)
    (htakes : Takes t i j) : (t j).status = .pendingSyscall := by
  by_contra hne
  exact hidle huse hne ⟨htakes.1, htakes.2.1⟩

/-! ## Slots that cannot make progress -/

/-- A process is in use under this pid. -/
def InUse (t : Slot → Process μ) (pid : Int) : Prop :=
  ∃ i : Slot, i.val < 16 ∧ (t i).pid = pid ∧ (t i).status ≠ .unused

/-- A pending send names a pid that is not in use. -/
def Orphan (t : Slot → Process μ) (pid : Int) : Prop :=
  ¬ InUse t pid ∧ ∃ i content, pendingCall (t i) = some (.send pid content)

/-- The machine is stopped for an unknown receiver. -/
def OrphanStop (t : Slot → Process μ) (e : Stop) : Prop :=
  ∃ pid, Orphan t pid ∧ e = .fatal (.unknownReceiver pid)

theorem not_inUse_of_findReceiver {pid : Int} (h : k.findReceiver pid = none) :
    ¬ InUse k.procSet pid := by
  rintro ⟨i, hlt, hpid, huse⟩
  have hnone := List.find?_eq_none.mp h i (mem_scanOrder.mpr hlt)
  simp [hpid, huse] at hnone

/-- Trying a slot changes nothing if no receive takes its message. -/
theorem wp_trySlot_idle (n : Nat) (hrecord : RecordOk (k.procSet i))
    (hnone : (k.procSet i).status = .pendingSyscall → (k.procSet i).syscall.type = .send →
      ∀ j, (k.procSet j).pid = (k.procSet i).syscall.receiver →
        (k.procSet j).status ≠ .unused → ¬ Takes k.procSet i j) :
    Ends (Kernel.trySlot (k, n) i) (· = (k, n)) (OrphanStop k.procSet) := by
  simp only [Kernel.trySlot]
  by_cases hi : (k.procSet i).status = .pendingSyscall
  · obtain ⟨hpending, c, hcall⟩ := hrecord hi
    have hnotDone : (k.procSet i).syscall.status ≠ .done := by
      rw [hpending]
      decide
    rw [if_pos hi, ends_bind]
    cases htype : (k.procSet i).syscall.type with
    | recv =>
      have htry : k.procTrySyscall i = .ok k := by
        simp only [Kernel.procTrySyscall, htype, Kernel.procTryRecv, hpending, if_true]
      rw [htry, ends_ok, if_neg hnotDone]
      rfl
    | send =>
      have htry : k.procTrySyscall i = k.procTrySend i := by
        simp only [Kernel.procTrySyscall, htype]
      rw [htry, Kernel.procTrySend_eq]
      cases hfind : k.findReceiver (k.procSet i).syscall.receiver with
      | none =>
        refine ⟨_, ⟨not_inUse_of_findReceiver hfind, i, (k.procSet i).syscall.content, ?_⟩, rfl⟩
        rw [pendingCall_of_pending hi, requestOf_send htype]
      | some j =>
        obtain ⟨_, hpid, huse⟩ := findReceiver_some hfind
        simp only [if_neg (hnone hi htype j hpid huse)]
        rw [ends_ok, if_neg hnotDone]
        rfl
    | other value =>
      rw [requestOf, htype] at hcall
      cases hcall
  · rw [if_neg hi]
    rfl

/-- No receive of a calm table takes a message. -/
theorem Calm.not_takes (h : Calm t) (hi : (t i).status = .pendingSyscall)
    (hsend : (t i).syscall.type = .send) (j : Slot) (hpid : (t j).pid = (t i).syscall.receiver)
    (huse : (t j).status ≠ .unused) : ¬ Takes t i j := by
  intro htakes
  have hj := pending_of_takes (h.idle j) huse htakes
  exact h.settled _ (h.table.fits_of_takes hi hsend hj hpid htakes)

theorem Calm.wp_trySlot (h : Calm k.procSet) (n : Nat) (i : Slot) :
    Ends (Kernel.trySlot (k, n) i) (· = (k, n)) (OrphanStop k.procSet) :=
  wp_trySlot_idle n (h.record i) fun hi hsend => h.not_takes hi hsend

/-- A fit that does not involve slot `c` is one without its call. -/
theorem Table.fits_without (h : Table t) (hi : (t i).status = .pendingSyscall)
    (hsend : (t i).syscall.type = .send) (hj : (t j).status = .pendingSyscall)
    (hpid : (t j).pid = (t i).syscall.receiver) (htakes : Takes t i j) (hic : i ≠ c)
    (hjc : j ≠ c) : ∃ d, Fits accepts (Function.update (waitingOf t) c.val none) d := by
  have hval : ∀ {a b : Slot}, a ≠ b → (a.val : Int) ≠ b.val := fun hab heq =>
    hab (Fin.ext (Int.ofNat_inj.mp heq))
  obtain ⟨hs, f, hr, haccepts⟩ := h.fits_of_takes hi hsend hj hpid htakes
  refine ⟨⟨i.val, j.val, (t i).syscall.content⟩, ?_, f, ?_, haccepts⟩
  · rw [Function.update_of_ne (hval hic)]
    exact hs
  · rw [Function.update_of_ne (hval hjc)]
    exact hr

theorem Half.wp_trySlot (h : Half k.procSet s r) (n : Nat) (hir : i ≠ r) :
    Ends (Kernel.trySlot (k, n) i) (· = (k, n)) (OrphanStop k.procSet) := by
  apply wp_trySlot_idle n (h.record i hir)
  intro hi hsend j hpid huse htakes
  by_cases hjr : j = r
  · -- the receive in slot `r` is not open any more
    subst hjr
    rw [Takes, h.done] at htakes
    cases htakes.2.1
  · have hj := pending_of_takes (h.idle j) huse htakes
    obtain ⟨d, hfits⟩ := h.table.fits_without hi hsend hj hpid htakes hir hjr
    exact h.settled d hfits

/-! ## From a half delivery to a whole one -/

theorem Half.procTryRecv_eq (h : Half k.procSet s r) : k.procTryRecv r = k.release s r := by
  have hlt := h.table.lt_of_pending h.receiver
  have hlts := h.table.lt_of_pending h.sender
  have huse := (loaded_of_pending h.receiver).1
  have huses := (loaded_of_pending h.sender).1
  have hnotPending : (k.procSet r).syscall.status ≠ .pending := by
    rw [h.done]
    decide
  -- both searches by pid are assignments
  have hwake : Kernel.withStatus (Kernel.withStatus k.procSet (k.procSet r).pid .runnable)
      (k.procSet s).pid .runnable = (k.release s r).procSet := by
    have htable := h.table.update (loaded_of_pending h.receiver)
      (p := { k.procSet r with status := .runnable }) rfl
    have hs : Function.update k.procSet r { k.procSet r with status := .runnable } s =
        k.procSet s := Function.update_of_ne h.ne _ _
    have heq := htable.withStatus_eq (i := s) (by rw [hs]; exact huses) hlts .runnable
    rw [hs] at heq
    rw [h.table.withStatus_eq huse hlt, heq]
    rfl
  have hrecord : { (k.procSet r).syscall with sender := (k.procSet s).pid, status := .done } =
      (k.procSet r).syscall := by
    rw [← h.done, ← h.source]
  rw [Kernel.procTryRecv, if_neg hnotPending]
  simp only [Kernel.setSyscallArg, Kernel.syscallArg, Kernel.mmuSwitch, Kernel.note,
    Kernel.procSetRunnable, Kernel.procSetStatus, Function.update_self, Function.update_idem,
    h.source, hwake, List.append_assoc, List.cons_append, List.nil_append]
  simp only at hrecord
  rw [hrecord]
  rfl

theorem InUse.congr {t' : Slot → Process μ} {pid : Int} (h : InUse t pid)
    (hpid : ∀ i, (t' i).pid = (t i).pid)
    (huse : ∀ i, (t i).status ≠ .unused → (t' i).status ≠ .unused) : InUse t' pid := by
  obtain ⟨i, hlt, hi, hstatus⟩ := h
  exact ⟨i, hlt, (hpid i).trans hi, huse i hstatus⟩

/-- Releasing keeps every pid in use and finishes two calls. -/
theorem orphan_of_release {pid : Int}
    (ho : Orphan (k.release s r).procSet pid) : Orphan k.procSet pid := by
  obtain ⟨hnot, i, content, hcall⟩ := ho
  have hcases : ∀ j, (k.release s r).procSet j = k.procSet j ∨
      (k.release s r).procSet j = { k.procSet j with status := .runnable } := by
    intro j
    simp only [Kernel.release_procSet, Function.update_apply]
    split_ifs with hjs hjr
    · exact Or.inr (by rw [hjs])
    · exact Or.inr (by rw [hjr])
    · exact Or.inl rfl
  refine ⟨fun huse => hnot (huse.congr (fun j => ?_) fun j hj => ?_), i, content, ?_⟩
  · rcases hcases j with heq | heq <;> rw [heq]
  · rcases hcases j with heq | heq <;> rw [heq]
    · exact hj
    · exact ProcStatus.noConfusion
  · rcases hcases i with heq | heq <;> rw [heq] at hcall
    · exact hcall
    · simp [pendingCall] at hcall

theorem pendingCall_runnable (p : Process μ) :
    pendingCall { p with status := .runnable } = none := by
  simp [pendingCall]

/-- Releasing finishes the two calls. -/
theorem Half.waitingOf_release (h : Half k.procSet s r) :
    waitingOf (k.release s r).procSet =
      Function.update (Function.update (waitingOf k.procSet) r.val none) s.val none := by
  have hlt := h.table.lt_of_pending h.receiver
  have hlts := h.table.lt_of_pending h.sender
  rw [Kernel.release_procSet, waitingOf_update hlts, waitingOf_update hlt, pendingCall_runnable,
    pendingCall_runnable]

/-- After the release the table is calm again. -/
theorem Half.calm_release (h : Half k.procSet s r) : Calm (k.release s r).procSet := by
  have htable := h.table.update (loaded_of_pending h.receiver)
    (p := { k.procSet r with status := .runnable }) rfl
  have hs : Function.update k.procSet r { k.procSet r with status := .runnable } s =
      k.procSet s := Function.update_of_ne h.ne _ _
  have hloaded : Loaded (Function.update k.procSet r { k.procSet r with status := .runnable }) s := by
    rw [Loaded, hs]
    exact loaded_of_pending h.sender
  refine ⟨htable.update hloaded (by rw [hs]), fun i => ?_, fun i => ?_, ?_⟩
  · simp only [Kernel.release_procSet, Function.update_apply]
    split_ifs with his hir
    · rintro ⟨⟩
    · rintro ⟨⟩
    · exact h.record i hir
  · simp only [Kernel.release_procSet, Function.update_apply]
    split_ifs with his hir
    · intro _ _ hopen
      rw [h.send] at hopen
      cases hopen.1
    · intro _ _ hopen
      rw [h.done] at hopen
      cases hopen.2
    · exact h.idle i
  · rw [h.waitingOf_release]
    apply h.settled.mono
    intro p c hp
    rw [Function.update_apply] at hp
    split_ifs at hp
    exact hp

/-! ## One pass of the loop -/

theorem OrphanStop.mono {t' : Slot → Process μ} {e : Stop} (h : OrphanStop t e)
    (hsub : ∀ pid, Orphan t pid → Orphan t' pid) : OrphanStop t' e := by
  obtain ⟨pid, ho, rfl⟩ := h
  exact ⟨pid, hsub pid ho, rfl⟩

theorem Calm.wp_pass (h : Calm k.procSet) (l : List Slot) (n : Nat) :
    Ends (l.foldlM Kernel.trySlot (k, n)) (· = (k, n)) (OrphanStop k.procSet) := by
  induction l with
  | nil => rfl
  | cons i l ih =>
    rw [List.foldlM_cons, ends_bind]
    apply (h.wp_trySlot n i).mono _ fun _ he => he
    rintro _ rfl
    exact ih

/-- A pass that still has the receiver ahead of it releases both sides. -/
theorem Half.wp_pass (h : Half k.procSet s r) {l : List Slot} (hr : r ∈ l) (n : Nat) :
    Ends (l.foldlM Kernel.trySlot (k, n)) (· = (k.release s r, n + 1))
      (OrphanStop k.procSet) := by
  induction l with
  | nil => cases hr
  | cons i l ih =>
    rw [List.foldlM_cons, ends_bind]
    by_cases hir : i = r
    · subst hir
      have htry : Kernel.trySlot (k, n) i = .ok (k.release s i, n + 1) := by
        have hproc : k.procTrySyscall i = .ok (k.release s i) := by
          rw [Kernel.procTrySyscall, h.recv, ← h.procTryRecv_eq]
        have hdone : ((k.release s i).procSet i).syscall.status = .done := by
          rw [Kernel.release_procSet, Function.update_of_ne h.ne.symm, Function.update_self]
          exact h.done
        simp only [Kernel.trySlot, h.receiver, if_true, hproc]
        show (if _ then _ else _) = _
        rw [if_pos hdone]
      rw [htry, ends_ok]
      apply (h.calm_release.wp_pass l (n + 1)).mono fun _ hk => hk
      intro e he
      exact he.mono fun _ => orphan_of_release
    · apply (h.wp_trySlot n hir).mono _ fun _ he => he
      rintro _ rfl
      exact ih (List.mem_of_ne_of_mem (Ne.symm hir) hr)

/-- The send in slot `i` can be delivered to slot `j`. -/
structure Deliverable (t : Slot → Process μ) (i j : Slot) : Prop where
  sender : (t i).status = .pendingSyscall
  send : (t i).syscall.type = .send
  target : (t j).pid = (t i).syscall.receiver
  receiver : (t j).status = .pendingSyscall
  takes : Takes t i j

theorem Deliverable.ne (h : Deliverable t i j) : i ≠ j := by
  rintro rfl
  have hsend := h.send
  rw [h.takes.1] at hsend
  cases hsend

/-- The call that was issued last takes part in every fit. -/
theorem Issued.deliverable_of_takes (h : Issued t c) (hi : (t i).status = .pendingSyscall)
    (hsend : (t i).syscall.type = .send) (hpid : (t j).pid = (t i).syscall.receiver)
    (huse : (t j).status ≠ .unused) (htakes : Takes t i j) :
    Deliverable t i j ∧ (i = c ∨ j = c) := by
  have hj := pending_of_takes (h.idle j) huse htakes
  refine ⟨⟨hi, hsend, hpid, hj, htakes⟩, ?_⟩
  by_contra hne
  rw [not_or] at hne
  obtain ⟨d, hfits⟩ := h.table.fits_without hi hsend hj hpid htakes hne.1 hne.2
  exact h.settled d hfits

theorem pendingCall_filled {src dst : Process μ} (hrecv : dst.syscall.type = .recv) {pid : Int}
    {content : μ} : pendingCall (Kernel.filled src dst) ≠ some (.send pid content) := by
  intro h
  simp only [pendingCall, Kernel.filled, requestOf, hrecv] at h
  split_ifs at h
  cases h

theorem Deliverable.orphan_handOver (h : Deliverable k.procSet i j) {pid : Int}
    (ho : Orphan (k.handOver i j).procSet pid) : Orphan k.procSet pid := by
  obtain ⟨hnot, a, content, hcall⟩ := ho
  refine ⟨fun huse => hnot (huse.congr (fun b => ?_) fun b hb => ?_), a, content, ?_⟩
  · simp only [Kernel.handOver_procSet, Function.update_apply]
    split_ifs with hbj
    · rw [hbj]
      rfl
    · rfl
  · simp only [Kernel.handOver_procSet, Function.update_apply]
    split_ifs with hbj
    · rw [hbj] at hb
      exact hb
    · exact hb
  · simp only [Kernel.handOver_procSet, Function.update_apply] at hcall
    split_ifs at hcall
    · exact absurd hcall (pendingCall_filled h.takes.1)
    · exact hcall

/-- Handing over leaves a half delivery. -/
theorem Issued.half_handOver (h : Issued k.procSet c) (hd : Deliverable k.procSet i j)
    (hc : i = c ∨ j = c) : Half (k.handOver i j).procSet i j := by
  have hne := hd.ne
  have hltj := h.table.lt_of_pending hd.receiver
  have hj : (k.handOver i j).procSet j = Kernel.filled (k.procSet i) (k.procSet j) :=
    Function.update_self _ _ _
  have hi : (k.handOver i j).procSet i = k.procSet i := Function.update_of_ne hne _ _
  have hwaiting : Function.update (waitingOf (k.handOver i j).procSet) j.val none =
      Function.update (waitingOf k.procSet) j.val none := by
    rw [Kernel.handOver_procSet, waitingOf_update hltj, Function.update_idem]
  refine ⟨h.table.update (loaded_of_pending hd.receiver) rfl, hne, fun a ha => ?_, fun a => ?_,
    ?_, ?_, ?_, ?_, ?_, ?_, ?_⟩
  · rw [Kernel.handOver_procSet, Function.update_of_ne ha]
    exact h.record a
  · simp only [Kernel.handOver_procSet, Function.update_apply]
    split_ifs
    · intro _ hnot
      exact absurd hd.receiver hnot
    · exact h.idle a
  · rw [hi]
    exact hd.sender
  · rw [hi]
    exact hd.send
  · rw [hj]
    exact hd.receiver
  · rw [hj]
    exact hd.takes.1
  · rw [hj]
    rfl
  · rw [hj, hi]
    rfl
  · rw [hwaiting]
    rcases hc with rfl | rfl
    · -- the only call that may fit is the one to slot `j`, which is set aside
      have hlti := h.table.lt_of_pending hd.sender
      have hcall : waitingOf k.procSet i.val =
          some (.send (k.procSet j).pid (k.procSet i).syscall.content) := by
        rw [waitingOf_val hlti, pendingCall_of_pending hd.sender, requestOf_send hd.send,
          hd.target]
      have hij : (i.val : Int) ≠ j.val := fun heq => hne (Fin.ext (Int.ofNat_inj.mp heq))
      intro d hfits
      obtain ⟨hs, f, hr, haccepts⟩ := hfits
      have hsender : d.sender ≠ i.val := by
        intro heq
        rw [heq, Function.update_of_ne hij, hcall, h.table.pid_of_pending hd.receiver] at hs
        rw [← (Request.send.inj (Option.some.inj hs)).1, Function.update_self] at hr
        cases hr
      have hreceiver : d.receiver ≠ i.val := by
        intro heq
        rw [heq, Function.update_of_ne hij, hcall] at hr
        cases hr
      refine h.settled d ⟨?_, f, ?_, haccepts⟩
      · rw [Function.update_of_ne hsender]
        rw [Function.update_apply] at hs
        split_ifs at hs
        exact hs
      · rw [Function.update_of_ne hreceiver]
        rw [Function.update_apply] at hr
        split_ifs at hr
        exact hr
    · exact h.settled

/-- Calls that fit can be delivered. -/
theorem deliverable_of_fits (h : Table t) (hrecord : ∀ i, RecordOk (t i)) {d : Delivery Int μ}
    (hfits : Fits accepts (waitingOf t) d) :
    ∃ i j : Slot, d.sender = i.val ∧ d.receiver = j.val ∧ Deliverable t i j := by
  obtain ⟨hs, f, hr, haccepts⟩ := hfits
  obtain ⟨i, hlti, hi, hipending, hicall⟩ := waitingOf_eq_some hs
  obtain ⟨j, hltj, hj, hjpending, hjcall⟩ := waitingOf_eq_some hr
  have hsend : (t i).syscall.type = .send ∧ (t i).syscall.receiver = d.receiver := by
    cases htype : (t i).syscall.type <;> simp_all [requestOf]
  have hrecv : (t j).syscall.type = .recv ∧ (t j).syscall.sender = f := by
    cases htype : (t j).syscall.type <;> simp_all [requestOf]
  refine ⟨i, j, hi, hj, hipending, hsend.1, ?_, hjpending, hrecv.1, (hrecord j hjpending).1, ?_⟩
  · rw [hsend.2, hj, h.pid_of_pending hjpending]
  · rw [hrecv.2, h.pid_of_pending hipending, ← hi]
    exact haccepts

/-- With nothing deliverable, an issued call leaves the table calm. -/
theorem Issued.calm (h : Issued t c) (hnone : ∀ i j, i = c ∨ j = c → ¬ Deliverable t i j) :
    Calm t := by
  refine ⟨h.table, h.record, h.idle, ?_⟩
  intro d hfits
  obtain ⟨i, j, _, _, hd⟩ := deliverable_of_fits h.table h.record hfits
  obtain ⟨_, hc⟩ := h.deliverable_of_takes hd.sender hd.send hd.target
    (loaded_of_pending hd.receiver).1 hd.takes
  exact hnone i j hc hd

theorem Issued.wp_trySlot (h : Issued k.procSet c) (n : Nat)
    (hnone : ∀ j, i = c ∨ j = c → ¬ Deliverable k.procSet i j) :
    Ends (Kernel.trySlot (k, n) i) (· = (k, n)) (OrphanStop k.procSet) := by
  apply wp_trySlot_idle n (h.record i)
  intro hi hsend j hpid huse htakes
  obtain ⟨hd, hc⟩ := h.deliverable_of_takes hi hsend hpid huse htakes
  exact hnone j hc hd

/-- Trying a slot whose message can be delivered hands it over, without counting as
    progress. -/
theorem Issued.trySlot_deliverable (h : Issued k.procSet c) (hd : Deliverable k.procSet i j)
    (n : Nat) : Kernel.trySlot (k, n) i = .ok (k.handOver i j, n) := by
  have hltj := h.table.lt_of_pending hd.receiver
  have hfind : k.findReceiver (k.procSet i).syscall.receiver = some j := by
    rw [← hd.target, h.table.pid_of_pending hd.receiver]
    exact h.table.findReceiver_eq (loaded_of_pending hd.receiver).1 hltj
  have hproc : k.procTrySyscall i = .ok (k.handOver i j) := by
    rw [Kernel.procTrySyscall, hd.send]
    simp only [Kernel.procTrySend_eq, hfind, hd.takes, if_true]
  have hnotDone : ((k.handOver i j).procSet i).syscall.status ≠ .done := by
    rw [Kernel.handOver_procSet, Function.update_of_ne hd.ne, (h.record i hd.sender).1]
    decide
  simp only [Kernel.trySlot, hd.sender, if_true, hproc]
  show (if _ then _ else _) = _
  rw [if_neg hnotDone]

/-- What a stretch of the loop does to a state: nothing, or one whole delivery. -/
inductive Delivers (k : Kernel μ) : Kernel μ → Prop where
  | nothing (hcalm : Calm k.procSet) : Delivers k k
  | one {s r : Slot} (hd : Deliverable k.procSet s r) (hhalf : Half (k.handOver s r).procSet s r) :
      Delivers k ((k.handOver s r).release s r)

/-- A pass after the current process has called `sys_recv`: the first sender that fits hands
    over its message, and the current slot, the last one, releases both. -/
theorem Issued.wp_pass_recv (h : Issued k.procSet c) (hrecv : (k.procSet c).syscall.type = .recv)
    (l : List Slot) (n : Nat) :
    Ends ((l ++ [c]).foldlM Kernel.trySlot (k, n))
      (fun kp => (kp = (k, n) ∧ ∀ i ∈ l, ¬ Deliverable k.procSet i c) ∨
        ∃ before s after, l = before ++ s :: after ∧ (∀ i ∈ before, ¬ Deliverable k.procSet i c) ∧
          Deliverable k.procSet s c ∧ kp = ((k.handOver s c).release s c, n + 1))
      (OrphanStop k.procSet) := by
  have hnotSend : ∀ j, ¬ Deliverable k.procSet c j := by
    intro j hd
    have hsend := hd.send
    rw [hrecv] at hsend
    cases hsend
  induction l with
  | nil =>
    rw [List.nil_append, List.foldlM_cons, ends_bind]
    apply (h.wp_trySlot (i := c) n fun j _ => hnotSend j).mono _ fun _ he => he
    rintro _ rfl
    exact Or.inl ⟨rfl, fun i hi => absurd hi List.not_mem_nil⟩
  | cons i l ih =>
    rw [List.cons_append, List.foldlM_cons, ends_bind]
    by_cases hd : Deliverable k.procSet i c
    · rw [h.trySlot_deliverable hd, ends_ok]
      have hhalf := h.half_handOver hd (Or.inr rfl)
      apply (hhalf.wp_pass (List.mem_append_right l (List.mem_singleton_self c)) n).mono
      · rintro _ rfl
        exact Or.inr ⟨[], i, l, rfl, fun a ha => absurd ha List.not_mem_nil, hd, rfl⟩
      · intro e he
        exact he.mono fun _ => hd.orphan_handOver
    · have hnone : ∀ j, i = c ∨ j = c → ¬ Deliverable k.procSet i j := by
        rintro j (rfl | rfl)
        · exact hnotSend j
        · exact hd
      apply (h.wp_trySlot n hnone).mono _ fun _ he => he
      rintro _ rfl
      apply ih.mono _ fun _ he => he
      have hcons : ∀ {rest : List Slot}, (∀ a ∈ rest, ¬ Deliverable k.procSet a c) →
          ∀ a ∈ i :: rest, ¬ Deliverable k.procSet a c :=
        fun hrest => List.forall_mem_cons.mpr ⟨hd, hrest⟩
      rintro kp (⟨rfl, hrest⟩ | ⟨before, s, after, rfl, hbefore, hone⟩)
      · exact Or.inl ⟨rfl, hcons hrest⟩
      · exact Or.inr ⟨i :: before, s, after, rfl, hcons hbefore, hone⟩

/-! ## The loop -/

/-- The machine is stopped for an unknown receiver, or the loop has not ended yet. -/
def ClearStop (t : Slot → Process μ) (passes bound : Nat) (e : Stop) : Prop :=
  OrphanStop t e ∨ (e = .unfinished ∧ passes < bound)

theorem Calm.wp_clear (h : Calm k.procSet) (passes : Nat) :
    Ends (k.clearPendingSyscalls passes) (· = k) (ClearStop k.procSet passes 1) := by
  cases passes with
  | zero => exact Or.inr ⟨rfl, Nat.zero_lt_one⟩
  | succ passes =>
    rw [Kernel.clearPendingSyscalls, ends_bind]
    apply (h.wp_pass _ 0).mono
    · rintro _ rfl
      rfl
    · exact fun _ he => Or.inl he

/-- A pass that makes progress is followed by one that does not. -/
theorem wp_clear_of_pass {k' : Kernel μ} {passes : Nat}
    (hpass : Ends ((Kernel.cyclicOrder k.currProcIdx).foldlM Kernel.trySlot (k, 0))
      (fun kp => kp = (k', 1)) (OrphanStop k.procSet))
    (hcalm : Calm k'.procSet) (hsub : ∀ pid, Orphan k'.procSet pid → Orphan k.procSet pid) :
    Ends (k.clearPendingSyscalls passes) (· = k') (ClearStop k.procSet passes 2) := by
  cases passes with
  | zero => exact Or.inr ⟨rfl, Nat.zero_lt_two⟩
  | succ passes =>
    rw [Kernel.clearPendingSyscalls, ends_bind]
    apply hpass.mono
    · rintro _ rfl
      apply (hcalm.wp_clear passes).mono fun _ hk => hk
      rintro e (he | ⟨he, hlt⟩)
      · exact Or.inl (he.mono hsub)
      · exact Or.inr ⟨he, by omega⟩
    · exact fun _ he => Or.inl he

/-- `proc_yield` does not touch the status of a process that waits. -/
theorem yieldOut_of_pending (h : (k.procSet k.currProcIdx).status = .pendingSyscall) :
    k.yieldOut = k := by
  rw [Kernel.yieldOut, Kernel.curr, h, if_neg (by decide)]

/-- A send of the current process meets a receiver that waits for it, or stays pending. -/
theorem Issued.wp_clear_send (h : Issued k.procSet k.currProcIdx)
    (htype : (k.procSet k.currProcIdx).syscall.type = .send) (passes : Nat) :
    Ends (k.procTrySyscall k.currProcIdx >>= fun k => k.yieldOut.clearPendingSyscalls passes)
      (Delivers k) (ClearStop k.procSet passes 2) := by
  have hlt := h.table.lt_of_pending h.pending
  have hnotRecv : ∀ i, ¬ Deliverable k.procSet i k.currProcIdx := by
    intro i hd
    have hrecv := hd.takes.1
    rw [htype] at hrecv
    cases hrecv
  have htry : k.procTrySyscall k.currProcIdx = k.procTrySend k.currProcIdx := by
    simp only [Kernel.procTrySyscall, htype]
  rw [ends_bind, htry, Kernel.procTrySend_eq]
  cases hfind : k.findReceiver (k.procSet k.currProcIdx).syscall.receiver with
  | none =>
    refine Or.inl ⟨_, ⟨not_inUse_of_findReceiver hfind, k.currProcIdx,
      (k.procSet k.currProcIdx).syscall.content, ?_⟩, rfl⟩
    rw [pendingCall_of_pending h.pending, requestOf_send htype]
  | some j =>
    obtain ⟨hltj, hpid, huse⟩ := findReceiver_some hfind
    dsimp only
    split_ifs with htakes
    · obtain ⟨hd, _⟩ := h.deliverable_of_takes h.pending htype hpid huse htakes
      have hhalf := h.half_handOver hd (Or.inl rfl)
      have hyield : (k.handOver k.currProcIdx j).yieldOut = k.handOver k.currProcIdx j :=
        yieldOut_of_pending hhalf.sender
      rw [ends_ok, hyield]
      have hmem : j ∈ Kernel.cyclicOrder k.currProcIdx := mem_cyclicOrder _ hltj
      apply (wp_clear_of_pass (hhalf.wp_pass hmem 0) hhalf.calm_release
        fun _ => orphan_of_release).mono
      · rintro _ rfl
        exact .one hd hhalf
      · rintro e (he | he)
        · exact Or.inl (he.mono fun _ => hd.orphan_handOver)
        · exact Or.inr he
    · -- the receiver it names is not ready, and nobody else concerns the new call
      have hcalm : Calm k.procSet := by
        apply h.calm
        rintro a b (rfl | rfl) hd
        · have hb : b = j := h.table.eq_of_pid huse (hd.target.trans hpid.symm)
          exact htakes (hb ▸ hd.takes)
        · exact hnotRecv a hd
      rw [ends_ok, yieldOut_of_pending h.pending]
      apply (hcalm.wp_clear passes).mono
      · rintro _ rfl
        exact .nothing hcalm
      · rintro e (he | ⟨he, hlt⟩)
        · exact Or.inl he
        · exact Or.inr ⟨he, by omega⟩

/-- A receive of the current process is tried last in the pass, after every send that was
    pending before it. -/
theorem Issued.wp_clear_recv (h : Issued k.procSet k.currProcIdx)
    (hpending : (k.procSet k.currProcIdx).syscall.status = .pending)
    (htype : (k.procSet k.currProcIdx).syscall.type = .recv) (passes : Nat) :
    Ends (k.procTrySyscall k.currProcIdx >>= fun k => k.yieldOut.clearPendingSyscalls passes)
      (Delivers k) (ClearStop k.procSet passes 2) := by
  have hlt := h.table.lt_of_pending h.pending
  have htry : k.procTrySyscall k.currProcIdx = .ok k := by
    simp only [Kernel.procTrySyscall, htype, Kernel.procTryRecv, hpending, if_true]
  rw [ends_bind, htry, ends_ok, yieldOut_of_pending h.pending]
  obtain ⟨others, horder⟩ := cyclicOrder_eq hlt
  have hpass := h.wp_pass_recv htype others 0
  rw [← horder] at hpass
  cases passes with
  | zero => exact Or.inr ⟨rfl, Nat.zero_lt_two⟩
  | succ passes =>
    rw [Kernel.clearPendingSyscalls, ends_bind]
    apply hpass.mono _ fun _ he => Or.inl he
    rintro _ (⟨rfl, hnone⟩ | ⟨_, s, _, _, _, hd, rfl⟩)
    · have hcalm : Calm k.procSet := by
        apply h.calm
        rintro a b (rfl | rfl) hd
        · have hsend := hd.send
          rw [htype] at hsend
          cases hsend
        · have hmem : a ∈ Kernel.cyclicOrder k.currProcIdx :=
            mem_cyclicOrder _ (h.table.lt_of_pending hd.sender)
          rw [horder, List.mem_append, List.mem_singleton] at hmem
          rcases hmem with hmem | rfl
          · exact hnone a hmem hd
          · exact hd.ne rfl
      exact .nothing hcalm
    · have hhalf := h.half_handOver hd (Or.inr rfl)
      apply (hhalf.calm_release.wp_clear passes).mono
      · rintro _ rfl
        exact .one hd hhalf
      · rintro e (he | ⟨he, hlt⟩)
        · exact Or.inl ((he.mono fun _ => orphan_of_release).mono fun _ => hd.orphan_handOver)
        · exact Or.inr ⟨he, by omega⟩

/-- From a call of the current process to the end of `clear_pending_syscalls`. -/
theorem Issued.wp_clear (h : Issued k.procSet k.currProcIdx) (passes : Nat) :
    Ends (k.procTrySyscall k.currProcIdx >>= fun k => k.yieldOut.clearPendingSyscalls passes)
      (Delivers k) (ClearStop k.procSet passes 2) := by
  obtain ⟨hpending, call, hcall⟩ := h.record _ h.pending
  cases htype : (k.procSet k.currProcIdx).syscall.type with
  | other value =>
    rw [requestOf, htype] at hcall
    cases hcall
  | send => exact h.wp_clear_send htype passes
  | recv => exact h.wp_clear_recv hpending htype passes

end Slots

end Egos.Grass
