import Mathlib.Logic.Relation
import Mathlib.Order.WellFounded
import Egos.Lib.Rendezvous

/-!
# Programs over a Rendezvous Machine

Processes that run programs and talk only through the machine of `Egos.Lib.Rendezvous`. A
program is given by its locations: which calls it may make at a location, and where it goes on
once a call of it has been completed.

- `Coherent`: every unfinished call is one that the program of its process makes there.
- `advance`: the locations after a delivery. `resume` finds them without knowing the delivery:
  a process goes on if its call is no longer unfinished, and reads what it received.
- `Matched`: who owes whom a reply, and how requests and replies change it.
- `exists_active`: who waits for whom, with a rank that decreases along the way, leads to a
  process that does not wait.
-/

namespace Egos.Lib.Rendezvous

variable {L P F M : Type*}

/-- A program, as far as its calls are concerned. -/
structure Program (L P F M : Type*) where
  /-- At this location the program may make this call. -/
  Makes : L → Request P F M → Prop
  /-- The location after a send to this process. -/
  sent : L → P → M → L
  /-- The location after a receive of this message from this process. -/
  received : L → P → M → L

/-- Every unfinished call is one of the program of its process. -/
def Coherent (prog : Program L P F M) (loc : P → L) (w : Waiting P F M) : Prop :=
  ∀ p c, w p = some c → prog.Makes (loc p) c

/-- Who takes part in a delivery is at a location with such a call. -/
theorem Coherent.fits {prog : Program L P F M} {loc : P → L} {w : Waiting P F M}
    {accepts : F → P → Prop} {d : Delivery P M} (h : Coherent prog loc w)
    (hfits : Fits accepts w d) :
    prog.Makes (loc d.sender) (.send d.receiver d.content) ∧
      ∃ f, prog.Makes (loc d.receiver) (.recv f) ∧ accepts f d.sender := by
  obtain ⟨f, hrecv, haccepts⟩ := hfits.recv
  exact ⟨h _ _ hfits.send, f, h _ _ hrecv, haccepts⟩

section Advance

variable [DecidableEq P]

/-- The locations after a turn with this delivery. -/
def advance (prog : Program L P F M) (loc : P → L) : Option (Delivery P M) → P → L
  | none => loc
  | some d =>
      Function.update
        (Function.update loc d.sender (prog.sent (loc d.sender) d.receiver d.content))
        d.receiver (prog.received (loc d.receiver) d.sender d.content)

/-- The locations after a turn, found from the unfinished calls in the turn and after it, and
    from what each process finds as the last message it received. -/
def resume (prog : Program L P F M) (loc : P → L) (issued after : Waiting P F M)
    (inbox : P → P × M) : P → L := fun p =>
  match issued p, after p with
  | some (.send receiver content), none => prog.sent (loc p) receiver content
  | some (.recv _), none => prog.received (loc p) (inbox p).1 (inbox p).2
  | _, _ => loc p

variable {prog : Program L P F M} {accepts : F → P → Prop} {loc : P → L} {w w' : Waiting P F M}
  {p : P}

theorem advance_of_not_party {delivery : Option (Delivery P M)} (h : ¬ Party delivery p) :
    advance prog loc delivery p = loc p := by
  cases delivery with
  | none => rfl
  | some d =>
    have hs : p ≠ d.sender := fun heq => h ⟨d, rfl, Or.inl heq⟩
    have hr : p ≠ d.receiver := fun heq => h ⟨d, rfl, Or.inr heq⟩
    rw [advance, Function.update_of_ne hr, Function.update_of_ne hs]

/-- Calls made at the right locations stay so. -/
theorem Coherent.issue (h : Coherent prog loc w) {call : Option (Request P F M)}
    (hcall : ∀ c, call = some c → prog.Makes (loc p) c) :
    Coherent prog loc (issue w p call) := by
  intro q c hc
  rcases issue_eq_some hc with hold | ⟨rfl, hnew⟩
  · exact h q c hold
  · exact hcall c hnew

/-- A process without an unfinished call may go anywhere. -/
theorem Coherent.goto (h : Coherent prog loc w) (hp : w p = none) {l : L} :
    Coherent prog (Function.update loc p l) w := by
  intro q c hc
  have hne : q ≠ p := by
    rintro rfl
    exact nomatch hp.symm.trans hc
  rw [Function.update_of_ne hne]
  exact h q c hc

/-- A turn keeps the programs coherent with the machine. -/
theorem Coherent.step (h : Coherent prog loc w) {t : Turn P F M} (hstep : Step accepts w t w')
    (hcall : ∀ c, t.call = some c → prog.Makes (loc t.caller) c) :
    Coherent prog (advance prog loc t.delivery) w' := by
  intro p c hc
  have hparty : ¬ Party t.delivery p := by
    intro hparty
    rw [hstep.of_party hparty] at hc
    cases hc
  rw [advance_of_not_party hparty]
  exact h.issue hcall p c (hstep.issued hc)

/-- The processes find out by themselves how to go on. -/
theorem resume_eq_advance {t : Turn P F M} (hstep : Step accepts w t w') {inbox : P → P × M}
    (hinbox : ∀ d, t.delivery = some d → inbox d.receiver = (d.sender, d.content)) :
    resume prog loc (Rendezvous.issue w t.caller t.call) w' inbox =
      advance prog loc t.delivery := by
  funext p
  by_cases hparty : Party t.delivery p
  · have hdone := hstep.of_party hparty
    obtain ⟨d, hd, hp⟩ := hparty
    have hfits := hstep.fits hd
    rw [hd]
    rcases hp with rfl | rfl
    · rw [resume, hfits.send, hdone, advance, Function.update_of_ne hfits.ne,
        Function.update_self]
    · obtain ⟨f, hrecv, _⟩ := hfits.recv
      rw [resume, hrecv, hdone, advance, Function.update_self, hinbox d hd]
  · -- the call of a process that takes no part stays as it is
    have hsame := hstep.of_not_party hparty
    rw [advance_of_not_party hparty, resume, hsame]
    cases Rendezvous.issue w t.caller t.call p with
    | none => rfl
    | some c => cases c <;> rfl

end Advance

/-! ## Debts -/

section Debts

variable {owes awaits : P → Option P}

/-- Each process owes a reply to the one that awaits it, and to no other. -/
def Matched (owes awaits : P → Option P) : Prop :=
  ∀ server client, owes server = some client ↔ awaits client = some server

variable [DecidableEq P] {server client : P}

/-- A request is taken. -/
theorem Matched.borrow (h : Matched owes awaits) (hserver : owes server = none)
    (hclient : awaits client = none) :
    Matched (Function.update owes server (some client))
      (Function.update awaits client (some server)) := by
  intro s c
  have hsc := h s c
  rw [Function.update_apply, Function.update_apply]
  split_ifs with hseq hceq hceq
  · rw [hseq, hceq]
    exact iff_of_true rfl rfl
  · rw [hseq] at hsc ⊢
    rw [hserver] at hsc
    refine iff_of_false (fun heq => hceq (Option.some.inj heq).symm) fun heq => ?_
    exact absurd (hsc.mpr heq) (Option.some_ne_none c).symm
  · rw [hceq] at hsc ⊢
    rw [hclient] at hsc
    refine iff_of_false (fun heq => ?_) fun heq => hseq (Option.some.inj heq).symm
    exact absurd (hsc.mp heq) (Option.some_ne_none s).symm
  · exact hsc

/-- The reply is given. -/
theorem Matched.repay (h : Matched owes awaits) (hserver : owes server = some client) :
    Matched (Function.update owes server none) (Function.update awaits client none) := by
  have hclient := (h server client).mp hserver
  intro s c
  have hsc := h s c
  rw [Function.update_apply, Function.update_apply]
  split_ifs with hseq hceq hceq
  · exact Iff.rfl
  · rw [hseq] at hsc ⊢
    rw [hserver] at hsc
    refine iff_of_false not_false fun heq => ?_
    exact hceq (Option.some.inj (hsc.mpr heq)).symm
  · rw [hceq] at hsc ⊢
    rw [hclient] at hsc
    refine iff_of_false (fun heq => ?_) not_false
    exact hseq (Option.some.inj (hsc.mp heq)).symm
  · exact hsc

end Debts

/-! ## Who waits for whom -/

/-- If whoever is blocked waits for a process that is not blocked, or for one of a lower rank,
    then the chain of waiting ends at one that is not blocked. -/
theorem exists_active {Blocked : P → Prop} {On : P → P → Prop} {Active : P → Prop} (rank : P → ℕ)
    (h : ∀ p, Blocked p → ∃ q, On p q ∧ (Active q ∨ (Blocked q ∧ rank q < rank p))) {p : P}
    (hp : Blocked p) : ∃ q, Relation.TransGen On p q ∧ Active q := by
  induction hn : rank p using Nat.strong_induction_on generalizing p with
  | _ n ih =>
    obtain ⟨q, hon, hactive | ⟨hblocked, hlt⟩⟩ := h p hp
    · exact ⟨q, .single hon, hactive⟩
    · obtain ⟨r, hpath, hactive⟩ := ih (rank q) (hn ▸ hlt) hblocked rfl
      exact ⟨r, .head hon hpath, hactive⟩

end Egos.Lib.Rendezvous
