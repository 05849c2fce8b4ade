import Egos.Grass.Rendezvous

/-!
# The Grass Kernel: Which Sender Comes First

A process that receives from anybody gets the message of the first sender in the cyclic order
that starts behind its own slot: `clear_pending_syscalls` tries the slots in this order each
time. So the order in which senders started to wait does not matter.

- `first_in_order`: while a sender waits, only senders in front of it in this order are
  served.
- `overtaken_twice`: a sender in front of it may be served again and again.
-/

namespace Egos.Grass

open Egos.Lib Egos.Lib.Rendezvous

variable {μ : Type} {k k' k₀ : Kernel μ} {i j : Slot}

/-! ## The first sender in the order -/

/-- The first sender, in the order of the slots behind `r`, whose message can be delivered
    to `r`. -/
def FirstSender (t : Slot → Process μ) (r s : Slot) : Prop :=
  ∃ before after, Kernel.cyclicOrder r = before ++ s :: after ∧
    ∀ i ∈ before, ¬ Deliverable t i r

/-- From a receive of the current process to the end of `clear_pending_syscalls`: nothing, or
    the delivery of the first message. -/
theorem Issued.wp_clear_first (h : Issued k.procSet k.currProcIdx)
    (hrecv : (k.procSet k.currProcIdx).syscall.type = .recv) (passes : Nat) :
    Ends (k.procTrySyscall k.currProcIdx >>= fun k => k.yieldOut.clearPendingSyscalls passes)
      (fun k₂ => k₂ = k ∨ ∃ s, FirstSender k.procSet k.currProcIdx s ∧
        Deliverable k.procSet s k.currProcIdx ∧
        k₂ = (k.handOver s k.currProcIdx).release s k.currProcIdx)
      fun _ => True := by
  have hlt := h.table.lt_of_pending h.pending
  obtain ⟨hpending, _⟩ := h.record _ h.pending
  have htry : k.procTrySyscall k.currProcIdx = .ok k := by
    simp only [Kernel.procTrySyscall, hrecv, Kernel.procTryRecv, hpending, if_true]
  rw [htry, ends_bind, ends_ok, yieldOut_of_pending h.pending]
  cases passes with
  | zero => trivial
  | succ passes =>
    obtain ⟨others, horder⟩ := cyclicOrder_eq hlt
    have hpass := h.wp_pass_recv hrecv others 0
    rw [← horder] at hpass
    rw [Kernel.clearPendingSyscalls, ends_bind]
    apply hpass.mono _ fun _ _ => trivial
    rintro _ (⟨rfl, _⟩ | ⟨before, s, after, hsplit, hbefore, hd, rfl⟩)
    · exact .inl rfl
    · -- the next pass finds nothing
      have hhalf := h.half_handOver hd (Or.inr rfl)
      apply (hhalf.calm_release.wp_clear passes).mono _ fun _ _ => trivial
      rintro _ rfl
      refine .inr ⟨s, ⟨before, after ++ [k.currProcIdx], ?_, hbefore⟩, hd, rfl⟩
      rw [horder, hsplit, List.append_assoc, List.cons_append]

theorem yieldIn_actions (k : Kernel μ) :
    Ends k.yieldIn (fun k' => k'.actions = k.actions) fun _ => True := by
  unfold Kernel.yieldIn
  dsimp only
  split
  · trivial
  · rfl

/-- The delivery that is noted in the actions. -/
theorem deliveryIn_release {s r : Slot} (hd : Deliverable k.procSet s r) (hactions : k.actions = []) :
    deliveryIn ((k.handOver s r).release s r).actions =
      some ⟨(k.procSet s).pid, (k.procSet r).pid, (k.procSet s).syscall.content⟩ := by
  have hs : (k.handOver s r).procSet s = k.procSet s := Function.update_of_ne hd.ne _ _
  have hr : (k.handOver s r).procSet r = Kernel.filled (k.procSet s) (k.procSet r) :=
    Function.update_self _ _ _
  simp only [Kernel.release, hs, hr, Kernel.filled]
  simp only [Kernel.handOver, hactions]
  rfl

/-- The call that a process has just made is in its record. -/
theorem Inv.called_recv (h : Inv k) (source : Int) (ctx : Context) :
    ((k.called (.recv source) ctx).procSet k.currProcIdx).syscall.type = .recv := by
  obtain ⟨hissued, hwaiting⟩ := h.issued_called (.recv source) ctx
  have hcall : waitingOf (k.called (.recv source) ctx).procSet k.currProcIdx.val =
      some (.recv source) := by
    rw [hwaiting, Kernel.curr, h.pid]
    exact Function.update_self ..
  rw [waitingOf_val h.lt, pendingCall_of_pending hissued.pending, requestOf] at hcall
  split at hcall
  case h_1 => cases hcall
  case h_2 htype => exact htype
  case h_3 => cases hcall

/-- A delivery in the entry in which a process calls `sys_recv` takes the message of the first
    sender. -/
theorem Inv.wp_recv_first (h : Inv k) (source : Int) (passes : Nat) (key : Option UInt8)
    (ctx : Context) :
    Ends (Kernel.kernelEntry passes 0x80000003 key ctx (k.request (.recv source)))
      (fun kc => ∀ d, deliveryIn kc.1.actions = some d →
        ∃ s : Slot, d.sender = s.val ∧
          FirstSender (k.called (.recv source) ctx).procSet k.currProcIdx s)
      fun _ => True := by
  have hinv := (h.request (.recv source)).trapped ctx
  obtain ⟨hissued, _⟩ := h.issued_called (.recv source) ctx
  have hidx := called_currProcIdx (k := k) (.recv source) ctx
  have hactions := called_actions (k := k) (.recv source) ctx
  have hclear := Issued.wp_clear_first (k := k.called (.recv source) ctx) (hidx ▸ hissued)
    (hidx ▸ h.called_recv source ctx) passes
  have hentry : Kernel.kernelEntry passes 0x80000003 key ctx (k.request (.recv source)) =
      (((k.request (.recv source)).trapped ctx).takeSyscall >>= fun k =>
        k.yieldOut.clearPendingSyscalls passes >>= Kernel.yieldIn) >>=
          fun k => .ok (k, ⟨k.curr.mepc, k.curr.savedRegisters⟩) := rfl
  rw [hentry, takeSyscall_eq hinv.calm.table hinv.loaded, ← bind_assoc, ends_bind, ends_bind]
  -- what is delivered is decided in the passes; the scheduler adds no delivery
  refine hclear.mono (fun k₂ hk₂ => ?_) fun _ _ => trivial
  refine (yieldIn_actions k₂).mono (fun k' hk' => ?_) fun _ _ => trivial
  intro d hd
  have hd₂ : deliveryIn k₂.actions = some d := hk' ▸ hd
  rcases hk₂ with rfl | ⟨s, hfirst, hdeliverable, rfl⟩
  · rw [hactions] at hd₂
    cases hd₂
  · rw [deliveryIn_release hdeliverable hactions] at hd₂
    obtain rfl := Option.some.inj hd₂
    refine ⟨s, hissued.table.pid_of_pending hdeliverable.sender, ?_⟩
    rw [← hidx]
    exact hfirst

/-! ## Whole runs -/

/-- The process waits with a send. -/
def SendsTo (k : Kernel μ) (sender receiver : Slot) : Prop :=
  ∃ content, waitingOf k.procSet sender.val = some (.send receiver.val content)

/-- How many slots lie between `r` and `s` in the cyclic order. -/
def distance (r s : Slot) : Nat := turnsTo 16 r.val s.val

/-- The order of the slots behind `r` is the order of their distances. -/
theorem distance_le {r s i : Slot} {before after : List Slot} (hi : i.val < 16)
    (horder : Kernel.cyclicOrder r = before ++ s :: after) (hmem : i ∉ before) :
    distance r s ≤ distance r i := by
  rw [cyclicOrder_eq_map, List.map_eq_append_iff] at horder
  obtain ⟨before', rest, hscan, rfl, hrest⟩ := horder
  obtain ⟨x, after', rfl, rfl, rfl⟩ := List.map_eq_cons_iff.mp hrest
  have hbefore : i.val ∉ before' := fun hin =>
    hmem (List.mem_map.mpr ⟨i.val, hin, Fin.ofNat_val_eq_self i⟩)
  obtain ⟨hx, hle⟩ := turnsTo_le hscan hi hbefore
  have hval : (Fin.ofNat 17 x).val = x := Nat.mod_eq_of_lt (by omega)
  rw [distance, hval]
  exact hle

/-- The process receives from anybody in all of these entries. -/
def ReceivesFromAll (receiver : Slot) (entries : List (Entry μ)) : Prop :=
  ∀ e ∈ entries, e.caller = receiver.val → ∀ source, e.call = some (.recv source) →
    source = gpidAll

/-- A call that waits has been made. -/
theorem waiting_was_called {entries : List (Entry μ)} (hstart : Start k₀)
    (hrun : Run EntersLive k₀ entries k) {pid : Int} {c : Request Int Int μ}
    (hc : waitingOf k.procSet pid = some c) : ∃ e ∈ entries, e.caller = pid ∧ e.call = some c := by
  refine (hrun.invariant_log (P := fun entries k => Sound k ∧
    ∀ pid c, waitingOf k.procSet pid = some c → ∃ e ∈ entries, e.caller = pid ∧ e.call = some c)
    ⟨hstart.sound, fun pid c hc => ?_⟩ ?_).2 pid c hc
  · rw [hstart.waitingOf_eq] at hc
    cases hc
  · rintro entries k e k' ⟨hsound, hcalled⟩ he
    obtain ⟨hsound', hstep⟩ := hsound.entersLive he
    refine ⟨hsound', fun pid c hc => ?_⟩
    rcases hstep.waiting hc with hold | ⟨hpid, hcall⟩
    · obtain ⟨e', hmem, he'⟩ := hcalled pid c hold
      exact ⟨e', List.mem_append_left _ hmem, he'⟩
    · exact ⟨e, List.mem_append_right _ List.mem_cons_self, hpid.symm, hcall⟩

/-- While `s₂` waits with a send to `r`, and `r` receives from anybody, a message to `r` is
    only delivered in the entry in which `r` calls `sys_recv`. -/
theorem delivery_in_recv {entries : List (Entry μ)} {e : Entry μ} {r s₂ : Slot}
    {d : Delivery Int μ} (hstart : Start k₀) (hrun : Run EntersLive k₀ entries k)
    (he : EntersLive k e k') (hall : ReceivesFromAll r (entries ++ [e]))
    (hs₂ : SendsTo k s₂ r) (hd : e.turn.delivery = some d) (hr : d.receiver = r.val) :
    e.caller = r.val ∧ e.call = some (.recv gpidAll) := by
  obtain ⟨hsound, _⟩ := run_refines hstart hrun
  obtain ⟨_, hstep⟩ := hsound.entersLive he
  obtain ⟨source, hrecv, _⟩ := (hstep.fits hd).recv
  rw [hr] at hrecv
  rcases issue_eq_some hrecv with hwaiting | ⟨hcaller, hcall⟩
  · -- both waited before, which the kernel does not leave behind
    obtain ⟨e', hmem, hpid, hcall⟩ := waiting_was_called hstart hrun hwaiting
    obtain rfl := hall e' (List.mem_append_left _ hmem) hpid source hcall
    obtain ⟨content, hsend⟩ := hs₂
    have hfits : Fits accepts (waitingOf k.procSet) ⟨s₂.val, r.val, content⟩ :=
      ⟨hsend, gpidAll, hwaiting, Or.inl rfl⟩
    exact absurd hfits (hsound.inv.calm.settled _)
  · have hmem : e ∈ entries ++ [e] := List.mem_append_right _ List.mem_cons_self
    obtain rfl := hall e hmem hcaller.symm source hcall
    exact ⟨hcaller.symm, hcall⟩

/-- A slot is its number. -/
theorem slot_eq_of_val (h : (i.val : Int) = j.val) : i = j := Fin.ext (Int.ofNat_inj.mp h)

/-- While a process waits with a send to `r`, and `r` receives from anybody, only senders that
    come in front of it, in the cyclic order of the slots behind `r`, are served. A sender
    behind it never overtakes it. -/
theorem first_in_order {entries : List (Entry μ)} {e : Entry μ} {r s₁ s₂ : Slot} {content : μ}
    (hstart : Start k₀) (hrun : Run EntersLive k₀ entries k) (he : EntersLive k e k')
    (hall : ReceivesFromAll r (entries ++ [e])) (hs₂ : SendsTo k s₂ r)
    (hd : e.turn.delivery = some ⟨s₁.val, r.val, content⟩) :
    distance r s₁ ≤ distance r s₂ := by
  obtain ⟨hcaller, hcall⟩ := delivery_in_recv hstart hrun he hall hs₂ hd rfl
  have hinv := (run_refines hstart hrun).1.inv
  obtain ⟨_, henters⟩ := he
  cases henters with
  | tick => cases hcall
  | @call c passes key ctx ctx' _ hentry =>
    obtain rfl := Option.some.inj hcall
    have hr : k.currProcIdx = r := slot_eq_of_val (hinv.pid.symm.trans hcaller)
    obtain ⟨s, hs, before, after, horder, hbefore⟩ :=
      (hinv.wp_recv_first gpidAll passes key ctx).of_ok hentry _ hd
    obtain rfl : s₁ = s := slot_eq_of_val hs
    rw [hr] at horder hbefore
    obtain ⟨content₂, hsend⟩ := hs₂
    have hlt : s₂.val < 16 := by
      obtain ⟨a, hlt, ha, _⟩ := waitingOf_eq_some hsend
      rw [slot_eq_of_val ha]
      exact hlt
    refine distance_le hlt horder fun hmem => hbefore s₂ hmem ?_
    -- the message of `s₂` could be delivered as well
    obtain ⟨hissued, hwaiting⟩ := hinv.issued_called (.recv gpidAll) ctx
    have hne : (s₂.val : Int) ≠ k.curr.pid := by
      intro heq
      rw [heq, Kernel.curr, hinv.pid, hinv.waiting_curr] at hsend
      cases hsend
    have hfits : Fits accepts (waitingOf (k.called (.recv gpidAll) ctx).procSet)
        ⟨s₂.val, r.val, content₂⟩ := by
      refine ⟨?_, gpidAll, ?_, Or.inl rfl⟩
      · rw [hwaiting]
        exact (Function.update_of_ne hne ..).trans hsend
      · rw [hwaiting, ← hcaller]
        exact Function.update_self ..
    obtain ⟨a, b, ha, hb, hdeliverable⟩ := deliverable_of_fits hissued.table hissued.record hfits
    rw [slot_eq_of_val ha, slot_eq_of_val hb]
    exact hdeliverable

/-! ## A sender that is overtaken twice

Process 1 receives, processes 2 and 3 send to it. Slot 2 is the first one behind slot 1, so
process 2 is served each time, although process 3 has been waiting all along. -/

/-- An entry, and the kernel after it. -/
def Kernel.entered (k : Kernel Nat) (call : Option (Request Int Int Nat)) : Entry Nat × Kernel Nat :=
  (k.act call).getD (⟨k.curr.pid, call, []⟩, k)

theorem Kernel.entered_call (k : Kernel Nat) (call : Option (Request Int Int Nat)) :
    (k.entered call).1.call = call := by
  rw [Kernel.entered]
  cases hact : k.act call with
  | none => rfl
  | some r => exact call_of_act hact

theorem entersLive_entered {k : Kernel Nat} {call : Option (Request Int Int Nat)}
    (h : (k.act call).isSome = true ∧ LiveCall k call) :
    EntersLive k (k.entered call).1 (k.entered call).2 := by
  obtain ⟨hsome, hlive⟩ := h
  obtain ⟨⟨e, k'⟩, hact⟩ := Option.isSome_iff_exists.mp hsome
  rw [Kernel.entered, hact, Option.getD_some]
  refine ⟨?_, enters_of_act hact⟩
  rw [call_of_act hact]
  exact hlive

/-- Process 1 was interrupted, and process 2 has sent. -/
def oneSent : Kernel Nat := ((quietKernel 3).entered none).2.entered (some (.send 1 7)) |>.2

/-- Process 3 has sent as well. -/
def bothSent : Kernel Nat := (oneSent.entered (some (.send 1 9))).2

/-- Process 1 has received once. -/
def receivedOnce : Kernel Nat := (bothSent.entered (some (.recv gpidAll))).2

/-- Process 2 has sent again. -/
def sentAgain : Kernel Nat := (receivedOnce.entered (some (.send 1 8))).2

theorem run_bothSent : Run EntersLive (quietKernel 3)
    [((quietKernel 3).entered none).1,
      (((quietKernel 3).entered none).2.entered (some (.send 1 7))).1,
      (oneSent.entered (some (.send 1 9))).1] bothSent := by
  refine .snoc (.snoc (.snoc .nil (entersLive_entered ?_)) (entersLive_entered ?_))
    (entersLive_entered ?_)
  all_goals decide +kernel

/-- Process 2 overtakes process 3 twice: it is served in two entries, process 3 waits all the
    time and is not served in between. -/
theorem overtaken_twice :
    Start (quietKernel 3) ∧
    ∃ (before : List (Entry Nat)) (e₁ e₂ e₃ : Entry Nat) (k₁ k₂ k₃ k₄ : Kernel Nat),
      Run EntersLive (quietKernel 3) before k₁ ∧
      EntersLive k₁ e₁ k₂ ∧ EntersLive k₂ e₂ k₃ ∧ EntersLive k₃ e₃ k₄ ∧
      ReceivesFromAll 1 (before ++ [e₁, e₂, e₃]) ∧
      SendsTo k₁ 3 1 ∧ SendsTo k₂ 3 1 ∧ SendsTo k₃ 3 1 ∧ SendsTo k₄ 3 1 ∧
      e₁.turn.delivery = some ⟨2, 1, 7⟩ ∧ e₂.turn.delivery = none ∧
      e₃.turn.delivery = some ⟨2, 1, 8⟩ := by
  refine ⟨start_quietKernel (by decide) (by decide), _,
    (bothSent.entered (some (.recv gpidAll))).1, (receivedOnce.entered (some (.send 1 8))).1,
    (sentAgain.entered (some (.recv gpidAll))).1, bothSent, receivedOnce, sentAgain,
    (sentAgain.entered (some (.recv gpidAll))).2, run_bothSent,
    entersLive_entered (by decide +kernel), entersLive_entered (by decide +kernel),
    entersLive_entered (by decide +kernel), ?_, ⟨9, by decide +kernel⟩, ⟨9, by decide +kernel⟩,
    ⟨9, by decide +kernel⟩, ⟨9, by decide +kernel⟩, by decide +kernel, by decide +kernel,
    by decide +kernel⟩
  intro e he _ source hsource
  simp only [List.cons_append, List.nil_append, List.mem_cons, List.not_mem_nil, or_false] at he
  rcases he with rfl | rfl | rfl | rfl | rfl | rfl <;> rw [Kernel.entered_call] at hsource <;>
    first
    | exact (Request.recv.inj (Option.some.inj hsource)).symm
    | cases hsource

/-- The slot of process 2 is in front of that of process 3. -/
theorem first_in_order_pair : distance 1 2 ≤ distance 1 3 := by
  have hrecv : EntersLive bothSent (bothSent.entered (some (.recv gpidAll))).1 receivedOnce :=
    entersLive_entered (by decide +kernel)
  have hd : (bothSent.entered (some (.recv gpidAll))).1.turn.delivery =
      some ⟨(2 : Slot).val, (1 : Slot).val, 7⟩ := by
    decide +kernel
  refine first_in_order (start_quietKernel (by decide) (by decide)) run_bothSent hrecv ?_
    ⟨9, by decide +kernel⟩ hd
  intro e he _ source hsource
  simp only [List.cons_append, List.nil_append, List.mem_cons, List.not_mem_nil, or_false] at he
  rcases he with rfl | rfl | rfl | rfl <;> rw [Kernel.entered_call] at hsource <;>
    first
    | exact (Request.recv.inj (Option.some.inj hsource)).symm
    | cases hsource

end Egos.Grass
