import Mathlib.Logic.Function.Basic
import Mathlib.Data.List.Basic
import Egos.Lib.Writes

/-!
# Programs over a Block Store

A small language for code that talks to a block store through two calls, `read` and
`write`, each of which may fail, and that may also stop the machine for good.
Programs are finite trees, so every program terminates on every store.

- `BlockProg A B α` is the syntax: addresses `A`, blocks `B`, result `α`.
- `run` is the meaning on a faithful array of blocks: an access in range succeeds,
  any other access fails and changes nothing.
- `accesses` lists the addresses a run passes to the store.
- `storeAfter` is the store when the run is cut off after some of its writes, and
  `runFailing` the run in which the store refuses one of them.
- `wp` is a weakest precondition with three parts: what holds on return, what holds
  when the machine is stopped, and what holds after every single write.

Proofs about programs use `wp_bind`, `wp_read`, `wp_write` and `wp_mono`; the results
come back to `run`, `accesses` and `storeAfter` through `run_of_wp`, `accesses_of_wp` and
`storeAfter_of_wp`.
-/

namespace Egos.Lib

/-! ## Syntax -/

/-- A program over a block store. `read` hands `none` to its continuation when the
    call fails, `write` hands it `false`. -/
inductive BlockProg (A B : Type) (α : Type) where
  | ret (x : α)
  /-- The machine is stopped with a message: control never comes back. -/
  | halt (msg : String)
  | read (a : A) (k : Option B → BlockProg A B α)
  | write (a : A) (b : B) (k : Bool → BlockProg A B α)

namespace BlockProg

variable {A B α β : Type}

/-- Sequencing: run `p`, then `f` on its result. -/
def bind : BlockProg A B α → (α → BlockProg A B β) → BlockProg A B β
  | ret x, f => f x
  | halt msg, _ => halt msg
  | read a k, f => read a fun r => (k r).bind f
  | write a b k, f => write a b fun ok => (k ok).bind f

instance : Monad (BlockProg A B) where
  pure := ret
  bind := bind

/-! ## Meaning -/

/-- How a run ends: it returns, or the machine is stopped. -/
inductive Outcome (α : Type) where
  | returned (x : α)
  | halted (msg : String)
  deriving DecidableEq, Repr

section Meaning

variable [DecidableEq A] (valid : A → Bool)

/-- The run of a program on the array `d`, whose addresses are those with `valid`. -/
def run : BlockProg A B α → (A → B) → Outcome α × (A → B)
  | ret x, d => (.returned x, d)
  | halt msg, d => (.halted msg, d)
  | read a k, d => if valid a then (k (some (d a))).run d else (k none).run d
  | write a b k, d =>
      if valid a then (k true).run (Function.update d a b) else (k false).run d

/-- The addresses a run passes to `read` and `write`, in order. -/
def accesses : BlockProg A B α → (A → B) → List A
  | ret _, _ => []
  | halt _, _ => []
  | read a k, d =>
      a :: if valid a then (k (some (d a))).accesses d else (k none).accesses d
  | write a b k, d =>
      a :: if valid a then (k true).accesses (Function.update d a b)
        else (k false).accesses d

/-- The writes of a run that the store carries out, in order. -/
def writeLog : BlockProg A B α → (A → B) → List (A × B)
  | ret _, _ => []
  | halt _, _ => []
  | read a k, d => if valid a then (k (some (d a))).writeLog d else (k none).writeLog d
  | write a b k, d =>
      if valid a then (a, b) :: (k true).writeLog (Function.update d a b)
      else (k false).writeLog d

/-- The store when the run of `p` is cut off after its first `n` writes. -/
def storeAfter (p : BlockProg A B α) (n : ℕ) (d : A → B) : A → B :=
  writes ((p.writeLog valid d).take n) d

/-- The run of a program on a store that carries out `n` writes and refuses the next. -/
def runFailing : BlockProg A B α → ℕ → (A → B) → Outcome α × (A → B)
  | ret x, _, d => (.returned x, d)
  | halt msg, _, d => (.halted msg, d)
  | read a k, n, d =>
      if valid a then (k (some (d a))).runFailing n d else (k none).runFailing n d
  | write _ _ k, 0, d => (k false).run valid d
  | write a b k, n + 1, d =>
      if valid a then (k true).runFailing n (Function.update d a b)
      else (k false).runFailing (n + 1) d

/-- A run is its outcome with the store it leaves. -/
theorem run_eq_of_outcome {p : BlockProg A B α} {d : A → B} {o : Outcome α}
    (h : (p.run valid d).1 = o) : p.run valid d = (o, (p.run valid d).2) := by
  rw [← h]

/-! ## Weakest preconditions -/

/-- `p.wp valid Q E I d`: started on `d`, every access of `p` is in range, the store
    after each write satisfies `I`, a return satisfies `Q` and a stop satisfies `E`. -/
def wp (Q : α → (A → B) → Prop) (E : String → (A → B) → Prop) (I : (A → B) → Prop) :
    BlockProg A B α → (A → B) → Prop
  | ret x, d => Q x d
  | halt msg, d => E msg d
  | read a k, d => valid a = true ∧ (k (some (d a))).wp Q E I d
  | write a b k, d =>
      valid a = true ∧ I (Function.update d a b) ∧
        (k true).wp Q E I (Function.update d a b)

end Meaning

section Rules

variable [DecidableEq A] {valid : A → Bool}
variable {Q : α → (A → B) → Prop} {E : String → (A → B) → Prop} {I : (A → B) → Prop}
variable {d : A → B}

@[simp] theorem wp_ret (x : α) : (ret x : BlockProg A B α).wp valid Q E I d ↔ Q x d :=
  Iff.rfl

@[simp] theorem wp_pure (x : α) :
    (pure x : BlockProg A B α).wp valid Q E I d ↔ Q x d :=
  Iff.rfl

@[simp] theorem wp_halt (msg : String) :
    (halt msg : BlockProg A B α).wp valid Q E I d ↔ E msg d :=
  Iff.rfl

theorem wp_read (a : A) (k : Option B → BlockProg A B α) :
    (read a k).wp valid Q E I d ↔ valid a = true ∧ (k (some (d a))).wp valid Q E I d :=
  Iff.rfl

theorem wp_write (a : A) (b : B) (k : Bool → BlockProg A B α) :
    (write a b k).wp valid Q E I d ↔
      valid a = true ∧ I (Function.update d a b) ∧
        (k true).wp valid Q E I (Function.update d a b) :=
  Iff.rfl

theorem wp_bind (p : BlockProg A B β) (f : β → BlockProg A B α) :
    (p >>= f).wp valid Q E I d ↔
      p.wp valid (fun x d' => (f x).wp valid Q E I d') E I d := by
  show (p.bind f).wp valid Q E I d ↔ _
  induction p generalizing d with
  | ret x => rfl
  | halt msg => rfl
  | read a k ih => simp only [bind, wp_read, ih]
  | write a b k ih => simp only [bind, wp_write, ih]

/-- A weakest precondition is monotone in all it has to establish. -/
theorem wp_weaken {Q' : α → (A → B) → Prop} {E' : String → (A → B) → Prop}
    {I' : (A → B) → Prop} (p : BlockProg A B α) (h : p.wp valid Q E I d)
    (hQ : ∀ x d', Q x d' → Q' x d') (hE : ∀ m d', E m d' → E' m d')
    (hI : ∀ d', I d' → I' d') : p.wp valid Q' E' I' d := by
  induction p generalizing d with
  | ret x => exact hQ x d h
  | halt msg => exact hE msg d h
  | read a k ih => exact ⟨h.1, ih _ h.2⟩
  | write a b k ih => exact ⟨h.1, hI _ h.2.1, ih _ h.2.2⟩

/-- The case in which nothing changes about the stores on the way. -/
theorem wp_mono {Q' : α → (A → B) → Prop} {E' : String → (A → B) → Prop}
    (p : BlockProg A B α) (h : p.wp valid Q E I d)
    (hQ : ∀ x d', Q x d' → Q' x d') (hE : ∀ m d', E m d' → E' m d') :
    p.wp valid Q' E' I d :=
  wp_weaken p h hQ hE fun _ hI => hI

/-- What is known from two preconditions is known together. -/
theorem wp_and {Q' : α → (A → B) → Prop} {E' : String → (A → B) → Prop} {I' : (A → B) → Prop}
    (p : BlockProg A B α) (h : p.wp valid Q E I d) (h' : p.wp valid Q' E' I' d) :
    p.wp valid (fun x d' => Q x d' ∧ Q' x d') (fun m d' => E m d' ∧ E' m d')
      (fun d' => I d' ∧ I' d') d := by
  induction p generalizing d with
  | ret x => exact ⟨h, h'⟩
  | halt msg => exact ⟨h, h'⟩
  | read a k ih => exact ⟨h.1, ih _ h.2 h'.2⟩
  | write a b k ih => exact ⟨h.1, ⟨h.2.1, h'.2.1⟩, ih _ h.2.2 h'.2.2⟩

/-- What holds after every write, and at the start, holds at the end. -/
theorem wp_last (p : BlockProg A B α) (h : p.wp valid Q E I d) (h₀ : I d) :
    p.wp valid (fun x d' => Q x d' ∧ I d') (fun m d' => E m d' ∧ I d') I d := by
  induction p generalizing d with
  | ret x => exact ⟨h, h₀⟩
  | halt msg => exact ⟨h, h₀⟩
  | read a k ih => exact ⟨h.1, ih _ h.2 h₀⟩
  | write a b k ih => exact ⟨h.1, h.2.1, ih _ h.2.2 h.2.1⟩

/-! ## From preconditions back to runs -/

/-- What a weakest precondition promises about the end of the run. -/
theorem run_of_wp {p : BlockProg A B α} (h : p.wp valid Q E I d) :
    match p.run valid d with
    | (.returned x, d') => Q x d'
    | (.halted msg, d') => E msg d' := by
  induction p generalizing d with
  | ret x => exact h
  | halt msg => exact h
  | read a k ih =>
    simp only [run, h.1, if_true]
    exact ih _ h.2
  | write a b k ih =>
    simp only [run, h.1, if_true]
    exact ih _ h.2.2

/-- A run that returns satisfies the return part of its weakest precondition. -/
theorem post_of_wp {p : BlockProg A B α} {x : α} {d' : A → B}
    (h : p.wp valid Q E I d) (hrun : p.run valid d = (.returned x, d')) : Q x d' := by
  have hend := run_of_wp h
  rwa [hrun] at hend

/-- A run that cannot stop the machine returns. -/
theorem returns_of_wp {p : BlockProg A B α} (h : p.wp valid Q (fun _ _ => False) I d) :
    ∃ x d', p.run valid d = (.returned x, d') ∧ Q x d' := by
  have hend := run_of_wp h
  match hrun : p.run valid d with
  | (.returned x, d') =>
    rw [hrun] at hend
    exact ⟨x, d', rfl, hend⟩
  | (.halted _, _) =>
    rw [hrun] at hend
    exact hend.elim

/-- A precondition may speak about the run itself. -/
theorem wp_run (p : BlockProg A B α) (h : p.wp valid Q E I d) :
    p.wp valid (fun x d' => Q x d' ∧ p.run valid d = (.returned x, d'))
      (fun m d' => E m d' ∧ p.run valid d = (.halted m, d')) I d := by
  induction p generalizing d with
  | ret x => exact ⟨h, rfl⟩
  | halt msg => exact ⟨h, rfl⟩
  | read a k ih =>
    have hrun : (read a k).run valid d = (k (some (d a))).run valid d := if_pos h.1
    rw [hrun]
    exact ⟨h.1, ih _ h.2⟩
  | write a b k ih =>
    have hrun : (write a b k).run valid d = (k true).run valid (Function.update d a b) :=
      if_pos h.1
    rw [hrun]
    exact ⟨h.1, h.2.1, ih _ h.2.2⟩

/-- Every address a run passes to the store is in range. -/
theorem accesses_of_wp {p : BlockProg A B α} (h : p.wp valid Q E I d) :
    ∀ a ∈ p.accesses valid d, valid a = true := by
  induction p generalizing d with
  | ret x => simp [accesses]
  | halt msg => simp [accesses]
  | read a k ih =>
    simp only [accesses, h.1, if_true, List.mem_cons, forall_eq_or_imp]
    exact ⟨trivial, ih _ h.2⟩
  | write a b k ih =>
    simp only [accesses, h.1, if_true, List.mem_cons, forall_eq_or_imp]
    exact ⟨trivial, ih _ h.2.2⟩

/-- A run that stays in range does not see whether further addresses are in range. -/
theorem accesses_eq_of_wp {valid' : A → Bool} (hsub : ∀ a, valid a = true → valid' a = true)
    {p : BlockProg A B α} (h : p.wp valid Q E I d) :
    p.accesses valid' d = p.accesses valid d := by
  induction p generalizing d with
  | ret x => rfl
  | halt msg => rfl
  | read a k ih => simp only [accesses, h.1, hsub a h.1, if_true, ih _ h.2]
  | write a b k ih => simp only [accesses, h.1, hsub a h.1, if_true, ih _ h.2.2]

/-- A run that stops the machine satisfies the stop part of its weakest precondition. -/
theorem stop_of_wp {p : BlockProg A B α} {msg : String} {d' : A → B}
    (h : p.wp valid Q E I d) (hrun : p.run valid d = (.halted msg, d')) : E msg d' := by
  have hend := run_of_wp h
  rwa [hrun] at hend

/-- Wherever a run is cut off, the store satisfies what holds after every write. -/
theorem storeAfter_of_wp {p : BlockProg A B α} (h : p.wp valid Q E I d) (h₀ : I d) (n : ℕ) :
    I (p.storeAfter valid n d) := by
  induction p generalizing d n with
  | ret x => simpa [storeAfter, writeLog, writes] using h₀
  | halt msg => simpa [storeAfter, writeLog, writes] using h₀
  | read a k ih =>
    simp only [storeAfter, writeLog, h.1, if_true]
    exact ih _ h.2 h₀ n
  | write a b k ih =>
    simp only [storeAfter, writeLog, h.1, if_true]
    cases n with
    | zero => exact h₀
    | succ n => exact ih _ h.2.2 h.2.1 n

end Rules

/-! ## Stores that can only be read -/

/-- The run of a program on a store that answers every read and stops the machine with
    `refusal` on a write. -/
def runRom (refusal : String) : BlockProg A B α → (A → B) → Outcome α
  | ret x, _ => .returned x
  | halt msg, _ => .halted msg
  | read a k, d => (k (some (d a))).runRom refusal d
  | write _ _ _, _ => .halted refusal

/-- The program has no writes. -/
def ReadsOnly : BlockProg A B α → Prop
  | ret _ => True
  | halt _ => True
  | read _ k => ∀ r, (k r).ReadsOnly
  | write _ _ _ => False

theorem readsOnly_bind {p : BlockProg A B β} {f : β → BlockProg A B α} (hp : p.ReadsOnly)
    (hf : ∀ x, (f x).ReadsOnly) : (p >>= f).ReadsOnly := by
  show (p.bind f).ReadsOnly
  induction p with
  | ret x => exact hf x
  | halt msg => trivial
  | read a k ih => exact fun r => ih r (hp r)
  | write a b k ih => exact hp.elim

/-- A program without writes that stays in range does not tell a store from another one with
    the same blocks in range, even if that one cannot be written. -/
theorem runRom_of_wp [DecidableEq A] {valid : A → Bool} {Q : α → (A → B) → Prop}
    {E : String → (A → B) → Prop} {I : (A → B) → Prop} {d d' : A → B} (refusal : String)
    {p : BlockProg A B α} (hp : p.ReadsOnly) (h : p.wp valid Q E I d)
    (hsame : ∀ a, valid a = true → d' a = d a) :
    p.runRom refusal d' = (p.run valid d).1 := by
  induction p with
  | ret x => rfl
  | halt msg => rfl
  | read a k ih =>
    rw [runRom, hsame a h.1, ih _ (hp _) h.2, run, if_pos h.1]
  | write a b k ih => exact hp.elim

/-! ## Programs that stop on a failed write -/

/-- The machine is stopped as soon as a write fails. -/
def StopsOnFailure : BlockProg A B α → Prop
  | ret _ => True
  | halt _ => True
  | read _ k => ∀ r, (k r).StopsOnFailure
  | write _ _ k => (∃ msg, k false = halt msg) ∧ (k true).StopsOnFailure

theorem stopsOnFailure_bind {p : BlockProg A B β} {f : β → BlockProg A B α}
    (hp : p.StopsOnFailure) (hf : ∀ x, (f x).StopsOnFailure) :
    (p >>= f).StopsOnFailure := by
  show (p.bind f).StopsOnFailure
  induction p with
  | ret x => exact hf x
  | halt msg => trivial
  | read a k ih => exact fun r => ih r (hp r)
  | write a b k ih =>
    obtain ⟨⟨msg, hmsg⟩, hk⟩ := hp
    refine ⟨⟨msg, ?_⟩, ih true hk⟩
    show (k false).bind f = halt msg
    rw [hmsg]
    rfl

/-- When a write fails, such a program leaves the store of the writes before it. -/
theorem runFailing_eq_storeAfter [DecidableEq A] {valid : A → Bool} {p : BlockProg A B α}
    (hp : p.StopsOnFailure) {n : ℕ} {d : A → B} (hn : n < (p.writeLog valid d).length) :
    ∃ msg, p.runFailing valid n d = (.halted msg, p.storeAfter valid n d) := by
  induction p generalizing d n with
  | ret x => exact absurd hn (Nat.not_lt_zero n)
  | halt msg => exact absurd hn (Nat.not_lt_zero n)
  | read a k ih =>
    simp only [writeLog] at hn
    simp only [runFailing, storeAfter, writeLog]
    split_ifs at hn ⊢
    · exact ih _ (hp _) hn
    · exact ih _ (hp _) hn
  | write a b k ih =>
    obtain ⟨⟨msg, hmsg⟩, hk⟩ := hp
    simp only [writeLog] at hn
    split_ifs at hn with hvalid
    · cases n with
      | zero =>
        refine ⟨msg, ?_⟩
        simp only [runFailing, hmsg, run]
        rfl
      | succ n =>
        simp only [runFailing, storeAfter, writeLog, hvalid, if_true]
        exact ih _ hk (Nat.lt_of_succ_lt_succ hn)
    · -- a write out of range ends the run, so the log is over
      rw [hmsg] at hn
      exact absurd hn (Nat.not_lt_zero n)

end BlockProg

end Egos.Lib
