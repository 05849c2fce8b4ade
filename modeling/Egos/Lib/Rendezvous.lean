import Mathlib.Data.List.Forall2
import Mathlib.Data.List.Lemmas
import Mathlib.Logic.Function.Basic
import Egos.Lib.Transition

/-!
# Rendezvous

Synchronous message passing among processes that each have at most one unfinished call: a
send to one process, or a receive with a filter on the sender. A send and a receive that
fit each other are completed together, as one delivery.

- `Waiting` is the state: the unfinished call of each process.
- `Settled` states have no two calls that fit.
- `Step` is one turn: a process may issue a call; if two calls then fit, one delivery is
  made. A turn never leaves a fitting pair behind (`Step.settled`).
- `exactly_once`: in every run, the calls of each process are completed in the order in
  which it issued them, each by one delivery that satisfies it.
-/

namespace Egos.Lib.Rendezvous

variable {P F M : Type*}

/-- A call: send a message to a process, or receive one from a sender the filter accepts. -/
inductive Request (P F M : Type*) where
  | send (receiver : P) (content : M)
  | recv (filter : F)
  deriving DecidableEq

/-- A message handed over from one process to another. -/
structure Delivery (P M : Type*) where
  sender : P
  receiver : P
  content : M
  deriving DecidableEq

/-- The unfinished call of each process. -/
abbrev Waiting (P F M : Type*) := P → Option (Request P F M)

/-- One turn: who had it, the call issued in it and the delivery made in it. -/
structure Turn (P F M : Type*) where
  caller : P
  call : Option (Request P F M)
  delivery : Option (Delivery P M)

section Machine

variable (accepts : F → P → Prop)

/-- The delivery completes a send and a receive that are both unfinished. -/
structure Fits (w : Waiting P F M) (d : Delivery P M) : Prop where
  send : w d.sender = some (.send d.receiver d.content)
  recv : ∃ f, w d.receiver = some (.recv f) ∧ accepts f d.sender

/-- No two unfinished calls fit. -/
def Settled (w : Waiting P F M) : Prop := ∀ d, ¬ Fits accepts w d

variable [DecidableEq P]

/-- The caller's call, if any, becomes unfinished. -/
def issue (w : Waiting P F M) (caller : P) : Option (Request P F M) → Waiting P F M
  | none => w
  | some c => Function.update w caller (some c)

/-- Both calls of a delivery are finished. -/
def finish (w : Waiting P F M) (d : Delivery P M) : Waiting P F M :=
  Function.update (Function.update w d.sender none) d.receiver none

/-- A turn of the machine. -/
inductive Step (w : Waiting P F M) : Turn P F M → Waiting P F M → Prop where
  | wait {p : P} {c : Option (Request P F M)} (hfree : c ≠ none → w p = none)
      (hsettled : Settled accepts (issue w p c)) : Step w ⟨p, c, none⟩ (issue w p c)
  | deliver {p : P} {c : Option (Request P F M)} {d : Delivery P M}
      (hfree : c ≠ none → w p = none) (hfits : Fits accepts (issue w p c) d) :
      Step w ⟨p, c, some d⟩ (finish (issue w p c) d)

end Machine

section Facts

variable {accepts : F → P → Prop} {w w' : Waiting P F M} {d : Delivery P M}

/-- Nobody rendezvouses with itself. -/
theorem Fits.ne (h : Fits accepts w d) : d.sender ≠ d.receiver := by
  intro heq
  obtain ⟨f, hrecv, _⟩ := h.recv
  have hsend := h.send
  rw [heq, hrecv] at hsend
  cases hsend

/-- Fewer unfinished calls, fewer fits. -/
theorem Fits.mono (h : Fits accepts w d) (hsub : ∀ p c, w p = some c → w' p = some c) :
    Fits accepts w' d := by
  obtain ⟨f, hrecv, haccepts⟩ := h.recv
  exact ⟨hsub _ _ h.send, f, hsub _ _ hrecv, haccepts⟩

theorem Settled.mono (h : Settled accepts w) (hsub : ∀ p c, w' p = some c → w p = some c) :
    Settled accepts w' := fun d hfits => h d (hfits.mono hsub)

/-- The delivery is what process `p` called for. -/
def Satisfies (accepts : F → P → Prop) (p : P) (d : Delivery P M) : Request P F M → Prop
  | .send receiver content => d = ⟨p, receiver, content⟩
  | .recv f => d.receiver = p ∧ accepts f d.sender

theorem Fits.satisfies (h : Fits accepts w d) {p : P}
    (hp : d.sender = p ∨ d.receiver = p) :
    ∃ c, w p = some c ∧ Satisfies accepts p d c := by
  rcases hp with rfl | rfl
  · exact ⟨_, h.send, rfl⟩
  · obtain ⟨f, hrecv, haccepts⟩ := h.recv
    exact ⟨_, hrecv, rfl, haccepts⟩

variable [DecidableEq P]

theorem finish_of_ne {p : P} (hs : p ≠ d.sender) (hr : p ≠ d.receiver) : finish w d p = w p := by
  rw [finish, Function.update_of_ne hr, Function.update_of_ne hs]

theorem finish_sender : finish w d d.sender = none := by
  rw [finish, Function.update_apply]
  split_ifs
  · rfl
  · exact Function.update_self _ _ _

theorem finish_receiver : finish w d d.receiver = none := Function.update_self _ _ _

theorem finish_eq_some {p : P} {c : Request P F M} (h : finish w d p = some c) :
    w p = some c ∧ p ≠ d.sender ∧ p ≠ d.receiver := by
  have hs : p ≠ d.sender := by
    rintro rfl
    rw [finish_sender] at h
    cases h
  have hr : p ≠ d.receiver := by
    rintro rfl
    rw [finish_receiver] at h
    cases h
  rw [finish_of_ne hs hr] at h
  exact ⟨h, hs, hr⟩

theorem issue_eq_some {p q : P} {call : Option (Request P F M)} {c : Request P F M}
    (h : issue w p call q = some c) : w q = some c ∨ (q = p ∧ call = some c) := by
  cases call with
  | none => exact Or.inl h
  | some call =>
    rw [issue, Function.update_apply] at h
    split_ifs at h with hq
    · exact Or.inr ⟨hq, h⟩
    · exact Or.inl h

/-- A call that is unfinished after a turn was unfinished in it. -/
theorem Step.issued {t : Turn P F M} (h : Step accepts w t w') {p : P} {c : Request P F M}
    (hc : w' p = some c) : issue w t.caller t.call p = some c := by
  cases h with
  | wait => exact hc
  | deliver => exact (finish_eq_some hc).1

/-- It was so before the turn, or was made in it. -/
theorem Step.waiting {t : Turn P F M} (h : Step accepts w t w') {p : P} {c : Request P F M}
    (hc : w' p = some c) : w p = some c ∨ (p = t.caller ∧ t.call = some c) :=
  issue_eq_some (h.issued hc)

/-- The delivery of a turn completes two calls that are unfinished in it. -/
theorem Step.fits {t : Turn P F M} (h : Step accepts w t w') (hd : t.delivery = some d) :
    Fits accepts (issue w t.caller t.call) d := by
  cases h with
  | wait => cases hd
  | deliver _ hfits =>
    obtain rfl := Option.some.inj hd
    exact hfits

/-- The process takes part in the delivery. -/
def Party (delivery : Option (Delivery P M)) (p : P) : Prop :=
  ∃ d, delivery = some d ∧ (p = d.sender ∨ p = d.receiver)

theorem Step.of_party {t : Turn P F M} (h : Step accepts w t w') {p : P}
    (hp : Party t.delivery p) : w' p = none := by
  obtain ⟨d, hd, hp⟩ := hp
  cases h with
  | wait => cases hd
  | deliver =>
    obtain rfl := Option.some.inj hd
    rcases hp with rfl | rfl
    · exact finish_sender
    · exact finish_receiver

theorem Step.of_not_party {t : Turn P F M} (h : Step accepts w t w') {p : P}
    (hp : ¬ Party t.delivery p) : w' p = issue w t.caller t.call p := by
  cases h with
  | wait => rfl
  | @deliver _ _ d =>
    exact finish_of_ne (fun hs => hp ⟨d, rfl, Or.inl hs⟩) fun hr => hp ⟨d, rfl, Or.inr hr⟩

/-- A send stays unfinished while its receiver has no unfinished receive. -/
theorem Step.send_stays {t : Turn P F M} (h : Step accepts w t w') {p q : P} {m : M}
    (hp : issue w t.caller t.call p = some (.send q m))
    (hq : ∀ f, issue w t.caller t.call q ≠ some (.recv f)) : w' p = some (.send q m) := by
  cases h with
  | wait => exact hp
  | @deliver _ _ d _ hfits =>
    obtain ⟨f, hrecv, _⟩ := hfits.recv
    have hs : p ≠ d.sender := by
      rintro rfl
      -- the delivery would complete this send, with a receive of `q`
      obtain ⟨rfl, _⟩ := Request.send.inj (Option.some.inj (hfits.send.symm.trans hp))
      exact hq f hrecv
    have hr : p ≠ d.receiver := by
      rintro rfl
      cases hrecv.symm.trans hp
    rw [finish_of_ne hs hr]
    exact hp

/-- A new call can only fit together with the caller. -/
theorem Fits.caller (hw : Settled accepts w) {p : P} {c : Request P F M}
    (h : Fits accepts (Function.update w p (some c)) d) : d.sender = p ∨ d.receiver = p := by
  by_contra hne
  rw [not_or] at hne
  obtain ⟨f, hrecv, haccepts⟩ := h.recv
  have hsend := h.send
  rw [Function.update_of_ne hne.1] at hsend
  rw [Function.update_of_ne hne.2] at hrecv
  exact hw d ⟨hsend, f, hrecv, haccepts⟩

/-- One delivery that involves the caller settles everything again. -/
theorem Settled.finish (hw : Settled accepts w) {p : P} {c : Request P F M}
    (h : Fits accepts (Function.update w p (some c)) d) :
    Settled accepts (finish (Function.update w p (some c)) d) := by
  apply hw.mono
  intro q c' hq
  obtain ⟨hq, hs, hr⟩ := finish_eq_some hq
  have hqp : q ≠ p := by
    rintro rfl
    rcases h.caller hw with heq | heq
    · exact hs heq.symm
    · exact hr heq.symm
  rwa [Function.update_of_ne hqp] at hq

/-- Every turn leaves a settled state. -/
theorem Step.settled {t : Turn P F M} (h : Step accepts w t w') (hw : Settled accepts w) :
    Settled accepts w' := by
  cases h with
  | wait _ hsettled => exact hsettled
  | @deliver p c d _ hfits =>
    cases c with
    | none => exact absurd hfits (hw d)
    | some c => exact hw.finish hfits

end Facts

/-! ## Exactly once -/

section Runs

variable [DecidableEq P]

/-- The calls a process issued, in order. -/
def callsOf (p : P) (turns : List (Turn P F M)) : List (Request P F M) :=
  turns.filterMap fun t => if t.caller = p then t.call else none

/-- The deliveries a process took part in, in order. -/
def deliveriesOf (p : P) (turns : List (Turn P F M)) : List (Delivery P M) :=
  turns.filterMap fun t =>
    t.delivery.bind fun d => if d.sender = p ∨ d.receiver = p then some d else none

theorem deliveriesOf_deliver (p q : P) (c : Option (Request P F M)) (d : Delivery P M) :
    deliveriesOf p [⟨q, c, some d⟩] = if d.sender = p ∨ d.receiver = p then [d] else [] := by
  unfold deliveriesOf
  split_ifs with hp
  · simp [hp]
  · simp [not_or.mp hp]

variable {accepts : F → P → Prop} {w w' : Waiting P F M}

/-- What one turn adds for process `p`: a call that was issued, and a call that was
    completed. -/
theorem Step.balance {t : Turn P F M} (h : Step accepts w t w') (p : P) :
    ∃ done, (w p).toList ++ callsOf p [t] = done ++ (w' p).toList ∧
      List.Forall₂ (fun d c => Satisfies accepts p d c) (deliveriesOf p [t]) done := by
  -- the call issued in the turn joins the unfinished one
  have hissue : ∀ (q : P) (c : Option (Request P F M)) (d : Option (Delivery P M)),
      (c ≠ none → w q = none) →
      (w p).toList ++ callsOf p [⟨q, c, d⟩] = (issue w q c p).toList := by
    intro q c d hfree
    cases c with
    | none => simp [callsOf, issue]
    | some c =>
      by_cases hqp : q = p
      · subst hqp
        simp [callsOf, issue, hfree (by simp)]
      · simp [callsOf, issue, hqp, Function.update_of_ne (Ne.symm hqp)]
  cases h with
  | @wait q c hfree hsettled =>
    exact ⟨[], by rw [hissue q c none hfree, List.nil_append], by simp [deliveriesOf]⟩
  | @deliver q c d hfree hfits =>
    rw [hissue q c (some d) hfree]
    by_cases hp : d.sender = p ∨ d.receiver = p
    · obtain ⟨call, hcall, hsat⟩ := hfits.satisfies hp
      refine ⟨[call], ?_, ?_⟩
      · have hnone : finish (issue w q c) d p = none := by
          rcases hp with rfl | rfl
          · exact finish_sender
          · exact finish_receiver
        rw [hcall, hnone]
        rfl
      · rw [deliveriesOf_deliver, if_pos hp]
        exact .cons hsat .nil
    · refine ⟨[], ?_, by rw [deliveriesOf_deliver, if_neg hp]; exact .nil⟩
      rw [not_or] at hp
      rw [finish_of_ne (Ne.symm hp.1) (Ne.symm hp.2), List.nil_append]

/-- In every run, the calls of a process, from the one that was unfinished at the start on,
    are those completed, in order and each by one delivery that satisfies it, and then the
    one still unfinished. -/
theorem exactly_once {turns : List (Turn P F M)} (h : Run (Step accepts) w turns w') (p : P) :
    ∃ done, (w p).toList ++ callsOf p turns = done ++ (w' p).toList ∧
      List.Forall₂ (fun d c => Satisfies accepts p d c) (deliveriesOf p turns) done := by
  refine h.invariant_log (P := fun turns v => ∃ done, (w p).toList ++ callsOf p turns =
    done ++ (v p).toList ∧
      List.Forall₂ (fun d c => Satisfies accepts p d c) (deliveriesOf p turns) done) ?_ ?_
  · exact ⟨[], by simp [callsOf], by simp [deliveriesOf]⟩
  · rintro turns v t v' ⟨done, hcalls, hsat⟩ hstep
    obtain ⟨done', hcalls', hsat'⟩ := hstep.balance p
    refine ⟨done ++ done', ?_, ?_⟩
    · have happ : callsOf p (turns ++ [t]) = callsOf p turns ++ callsOf p [t] :=
        List.filterMap_append
      rw [happ, ← List.append_assoc, hcalls, List.append_assoc, hcalls', List.append_assoc]
    · have happ : deliveriesOf p (turns ++ [t]) = deliveriesOf p turns ++ deliveriesOf p [t] :=
        List.filterMap_append
      rw [happ]
      exact List.rel_append hsat hsat'

end Runs

end Egos.Lib.Rendezvous
