import Egos.Apps.Foreground

/-!
# The Foreground Protocol

`Egos.Apps.Foreground` says that `sys_proc` sends the shell what the two have agreed on and
nothing else. Here is the other half: the shell gets what it waits for.

- `Settles`: from every state of the agreement the programs can bring the shell back to its
  prompt on their own. There is one lemma for each stage, from the last one backwards.
- `foreground_protocol` puts the two halves together.
-/

namespace Egos.Apps

open Egos.Lib Egos.Lib.Rendezvous Egos.Grass

variable {s s' : System} {stage : Stage} {pid : Int}

/-! ## The shell comes back -/

/-- What the programs do on their own. No new command is needed for it. -/
def Label.Inner : Label → Prop
  | .exit _ | .deliver _ | .notFound | .spawned _ | .freed _ => True
  | .command _ | .killall | .files | .turn => False

/-- `proc_alloc` stops the machine. -/
def Full (s : System) : Prop :=
  (∃ sender, s.server = .handling sender) ∧ s.buf.type = procSpawn ∧
    ∃ stop, s.kernel.procAlloc = .error stop

/-- The programs can bring the shell back to its prompt, unless the machine is stopped. -/
def Settles (s : System) : Prop :=
  ∃ log s', Run Step s log s' ∧ (∀ label ∈ log, label.Inner) ∧ (s'.shell = .prompt ∨ Full s')

theorem Settles.of_prompt (h : s.shell = .prompt) : Settles s :=
  ⟨[], s, .nil, by simp, Or.inl h⟩

theorem Settles.of_step {label : Label} (hs : Step s label s') (hinner : label.Inner)
    (h : Settles s') : Settles s := by
  obtain ⟨log, t, hrun, hlog, ht⟩ := h
  exact ⟨label :: log, t, hrun.cons hs, by simpa [hinner] using hlog, ht⟩

theorem Settles.of_handed {d : Delivery Int ProcRequest} (hbase : Base s) (hd : Handed s d s')
    (h : Settles s') : Settles s :=
  .of_step (step_of_handed (fun pid happ => (hbase.live pid happ).2) hd) trivial h

/-- `PROC_EXIT` is handled. -/
theorem Inv.exit_step {sender : Int} (h : Inv stage s) (hserver : s.server = .handling sender)
    (htype : s.buf.type = procExit) :
    ∃ stage' s', Step s (.freed sender) s' ∧ stage.next (.freed sender) = some stage' ∧
      Inv stage' s' ∧ s'.shell = s.shell ∧ ∀ q, s'.server ≠ .handling q := by
  obtain ⟨stage', hnext, hinv⟩ := h.exited hserver htype
  refine ⟨stage', _, .handle sender _ _ hserver ?_, hnext, hinv, rfl, fun q => ?_⟩
  · rw [System.handle, if_neg (by rw [htype]; decide), if_pos htype]
    rfl
  · show (if _ then ServerPc.sending else .receiving) ≠ _
    split_ifs <;> simp

/-- The shell gets the message for the end of its command. -/
theorem Inv.settles_ended (h : Inv .ended s) : Settles s := by
  obtain ⟨hshell, hserver, _⟩ := h.owes
  refine .of_handed h.base (.answer hserver (by rw [hshell]; rfl)) (.of_prompt ?_)
  rw [hshell]
  rfl

/-- The `PROC_EXIT` that the shell waits for is handled. -/
theorem Inv.settles_exited (h : Inv (.waiting pid) s) (hserver : s.server = .handling pid)
    (htype : s.buf.type = procExit) : Settles s := by
  obtain ⟨stage', s', hstep, hnext, hinv, _⟩ := h.exit_step hserver htype
  obtain rfl : stage' = .ended := by simpa [Stage.next] using hnext.symm
  exact .of_step hstep trivial hinv.settles_ended

/-- The `PROC_EXIT` that the shell waits for is sent. -/
theorem Inv.settles_exiting {req : ProcRequest} (h : Inv (.waiting pid) s)
    (happ : s.app pid = .exiting req) (hserver : s.server = .receiving) : Settles s := by
  have hd := Handed.exit pid req happ hserver
  obtain ⟨stage', hnext, hinv⟩ := h.handed hd
  have htype := h.base.exitType pid req happ
  obtain rfl : stage' = .waiting pid := by simpa [Stage.next, htype] using hnext.symm
  exact .of_handed h.base hd (hinv.settles_exited rfl htype)

/-- The application that the shell waits for ends. -/
theorem Inv.settles_receiving (h : Inv (.waiting pid) s) (hserver : s.server = .receiving) :
    Settles s := by
  obtain ⟨_, _, _, _, hactive⟩ := h.owes
  have hne : s.app pid ≠ .stopped := hactive.resolve_right fun hc => by simp [hserver] at hc
  cases happ : s.app pid with
  | running =>
    refine .of_step (.exit pid ⟨procExit, 0, emptyArgv⟩ happ rfl) trivial ?_
    exact (h.exit happ rfl).settles_exiting (Function.update_self _ _ _) hserver
  | exiting req => exact h.settles_exiting happ hserver
  | stopped => exact absurd happ hne

theorem Serves.receiving {type : Nat → Prop} (h : Serves s type)
    (hnot : ∀ sender, s.server ≠ .handling sender) : s.server = .receiving :=
  h.resolve_right fun ⟨sender, hserver, _⟩ => hnot sender hserver

/-- Other processes may end before. -/
theorem Inv.settles_waiting (h : Inv (.waiting pid) s) : Settles s := by
  obtain ⟨_, hserver | ⟨sender, hserver, htype⟩, _⟩ := h.owes
  · exact h.settles_receiving hserver
  · by_cases hsender : sender = pid
    · exact h.settles_exited (hsender ▸ hserver) htype
    · obtain ⟨stage', s', hstep, hnext, hinv, _, hnot⟩ := h.exit_step hserver htype
      obtain rfl : stage' = .waiting pid := by simpa [Stage.next, hsender] using hnext.symm
      exact .of_step hstep trivial (hinv.settles_receiving (hinv.owes.2.1.receiving hnot))

/-- After a message the shell is at its prompt, or it waits for another one. -/
theorem ShellPc.received_prompt {pc : ShellPc} {reply : ProcRequest}
    (hcall : pc.call = some (.recv gpidProcess)) (hfree : (pc.received reply).Free) :
    pc.received reply = .prompt := by
  cases pc with
  | awaitingReply req =>
    simp only [ShellPc.received] at hfree ⊢
    split_ifs at hfree ⊢
    · rfl
    · exact hfree.elim
    · rfl
  | awaitingExit => rfl
  | prompt | requesting _ | killing _ => simp [ShellPc.call] at hcall

/-- The shell gets its reply. -/
theorem Inv.settles_answered {owner : Option Int} (h : Inv (.answered owner) s) : Settles s := by
  obtain ⟨⟨req, hshell⟩, hserver⟩ := h.agrees
  have hcall : s.shell.call = some (.recv gpidProcess) := by rw [hshell]; rfl
  have hd := Handed.answer hserver hcall
  obtain ⟨stage', hnext, hinv⟩ := h.handed hd
  cases owner with
  | none =>
    obtain rfl : stage' = .idle := by simpa [Stage.next] using hnext.symm
    exact .of_handed h.base hd (.of_prompt (ShellPc.received_prompt hcall hinv.owes.1))
  | some pid =>
    obtain rfl : stage' = .waiting pid := by simpa [Stage.next] using hnext.symm
    exact .of_handed h.base hd hinv.settles_waiting

/-- `PROC_SPAWN` is handled. -/
theorem Inv.settles_asked {req : ProcRequest} (h : Inv (.asked req) s) : Settles s := by
  obtain ⟨_, ⟨sender, hserver⟩, rfl, htype⟩ := h.owes
  cases halloc : s.kernel.procAlloc with
  | error stop => exact ⟨[], s, .nil, by simp, Or.inr ⟨⟨sender, hserver⟩, htype, stop, halloc⟩⟩
  | ok result =>
    obtain ⟨label, s', hhandle⟩ := handle_isSome sender (Or.inl htype) fun _ => ⟨_, _, halloc⟩
    have hh := handled_of_handle hhandle
    obtain ⟨stage', hnext, hinv⟩ := h.handled hserver hh
    cases hh with
    | notFound =>
      obtain rfl : stage' = .answered none := by simpa [Stage.next] using hnext.symm
      exact .of_step (.handle _ _ _ hserver hhandle) trivial hinv.settles_answered
    | spawned pid =>
      obtain rfl := Option.some.inj hnext
      exact .of_step (.handle _ _ _ hserver hhandle) trivial hinv.settles_answered
    | exit hexit => exact absurd (htype.symm.trans hexit) (by decide)
    | killall hkill => exact absurd (htype.symm.trans hkill) (by decide)

/-- The request of the shell is taken. -/
theorem Inv.settles_taken (h : Inv .idle s) (hserver : s.server = .receiving) : Settles s := by
  have hfree := h.owes.1
  cases hshell : s.shell with
  | prompt => exact .of_prompt hshell
  | requesting req =>
    have hd := Handed.spawn req hshell hserver
    obtain ⟨stage', hnext, hinv⟩ := h.handed hd
    obtain rfl : stage' = .asked req := by
      simpa [Stage.next, h.base.spawnType req hshell] using hnext.symm
    exact .of_handed h.base hd hinv.settles_asked
  | killing req => exact .of_handed h.base (.kill req hshell hserver) (.of_prompt rfl)
  | awaitingReply req =>
    rw [hshell] at hfree
    exact hfree.elim
  | awaitingExit =>
    rw [hshell] at hfree
    exact hfree.elim

/-- The server finishes what it does, and takes the request of the shell. -/
theorem Inv.settles_idle (h : Inv .idle s) : Settles s := by
  obtain ⟨_, hserver | ⟨sender, hserver, htype⟩, _⟩ := h.owes
  · exact h.settles_taken hserver
  · obtain ⟨label, s', hhandle⟩ := handle_isSome sender (Or.inr htype) fun hspawn => by
      rcases htype with htype | htype <;> exact absurd (hspawn.symm.trans htype) (by decide)
    have hh := handled_of_handle hhandle
    obtain ⟨stage', hnext, hinv⟩ := h.handled hserver hh
    have hstep : Step s label s' := .handle _ _ _ hserver hhandle
    cases hh with
    | notFound | spawned => cases hnext
    | exit =>
      obtain rfl := Option.some.inj hnext
      refine .of_step hstep trivial (hinv.settles_taken (hinv.owes.2.1.receiving fun q => ?_))
      show (if _ then ServerPc.sending else .receiving) ≠ _
      split_ifs <;> simp
    | killall =>
      obtain rfl := Option.some.inj hnext
      exact .of_step hstep trivial (hinv.settles_taken rfl)

theorem Inv.settles (h : Inv stage s) : Settles s := by
  cases stage with
  | idle => exact h.settles_idle
  | asked req => exact h.settles_asked
  | answered owner => exact h.settles_answered
  | waiting pid => exact h.settles_waiting
  | ended => exact h.settles_ended

/-! ## The protocol -/

/-- `sys_proc` and the shell agree, in every run of commands, applications and the kernel:

    - `sys_proc` sends the shell one message for each `PROC_SPAWN`, one more for each command
      that it starts in the foreground, after `proc_free` of the process of this command, and
      no other (`Stage.next`); the stage says where the two are (`Agrees`), and the shell is at
      its prompt only if it is owed nothing;
    - a message that `sys_proc` sends meets a receive of the shell;
    - the shell can always come back to its prompt, unless `proc_alloc` has no slot. -/
theorem foreground_protocol {s₀ : System} {log : List Label} (h₀ : Start s₀)
    (hrun : Run Step s₀ log s) :
    (∃ stage, log.foldlM Stage.next .idle = some stage ∧ Agrees s stage ∧
      (s.shell = .prompt → stage = .idle)) ∧
    (s.server = .sending → Fits accepts s.waiting ⟨gpidProcess, gpidShell, s.buf⟩) ∧
    Settles s := by
  obtain ⟨stage, hlog, hinv⟩ := h₀.run hrun
  have hagrees := hinv.agrees
  refine ⟨⟨stage, hlog, hagrees, fun hshell => hinv.idle_of_prompt hshell⟩, fun hserver => ?_,
    hinv.settles⟩
  refine fits_answer hserver ?_
  match stage with
  | .answered owner =>
    obtain ⟨⟨req, hshell⟩, _⟩ := hagrees
    rw [hshell]
    rfl
  | .ended =>
    rw [hagrees.1]
    rfl
  | .idle | .asked _ | .waiting _ => simp [Agrees, hserver] at hagrees

/-! ## One command -/

/-- The four system processes run. -/
def bootedKernel : Kernel ProcRequest where
  procSet i :=
    { pid := if 1 ≤ i.val ∧ i.val ≤ 4 then i.val else 0
      syscall := ⟨.recv, 0, 0, ⟨0, 0, emptyArgv⟩, .unset⟩
      status := if 1 ≤ i.val ∧ i.val ≤ 4 then .runnable else .unused
      mepc := 0
      savedRegisters := fun _ => 0 }
  currProcIdx := 4
  currVmPid := 4
  area := fun _ => ⟨.recv, 0, 0, ⟨0, 0, emptyArgv⟩, .unset⟩
  actions := []

/-- The shell is at its prompt, every program is found, and `shell_waiting` is whatever was on
    the stack. -/
def bootedSystem : System where
  shell := .prompt
  server := .receiving
  buf := ⟨0, 0, emptyArgv⟩
  appPid := 0
  shellWaiting := true
  app := fun _ => .stopped
  kernel := bootedKernel
  bin := fun _ => 7

/-- The command line `c`. -/
def shortRequest : ProcRequest := ⟨procSpawn, 1, emptyArgv.set 0 0 99⟩

theorem start_bootedSystem : Start bootedSystem where
  shell := rfl
  server := rfl
  app _ := rfl
  table := by
    refine ⟨fun i => ?_, fun i => ?_, rfl, Or.inl rfl⟩
    · simp only [bootedSystem, bootedKernel]
      split_ifs <;> simp
    · simp only [bootedSystem, bootedKernel]
      split_ifs <;> simp
  system pid hpid := by
    obtain ⟨hpos, hle⟩ := hpid
    simp only [gpidProcess, gpidShell] at hpos hle
    obtain rfl | rfl | rfl | rfl : pid = 1 ∨ pid = 2 ∨ pid = 3 ∨ pid = 4 := by omega
    · exact ⟨1, rfl, by decide⟩
    · exact ⟨2, rfl, by decide⟩
    · exact ⟨3, rfl, by decide⟩
    · exact ⟨4, rfl, by decide⟩

/-- A foreground command from its start to its end. -/
theorem run_shortRequest : ∃ s, Run Step bootedSystem
    [.command shortRequest, .deliver ⟨gpidShell, gpidProcess, shortRequest⟩, .spawned 5,
      .deliver ⟨gpidProcess, gpidShell, shortRequest⟩, .exit 5,
      .deliver ⟨5, gpidProcess, ⟨procExit, 0, emptyArgv⟩⟩, .freed 5,
      .deliver ⟨gpidProcess, gpidShell, ⟨procExit, 0, emptyArgv⟩⟩] s ∧ s.shell = .prompt := by
  refine ⟨_, .cons (.command shortRequest rfl rfl (by decide) (by decide)) <|
    .cons (.deliver _ ⟨rfl, gpidAll, rfl, Or.inl rfl⟩) <|
    .cons (.handle gpidShell _ _ rfl rfl) <|
    .cons (.deliver _ ⟨rfl, gpidProcess, rfl, Or.inr rfl⟩) <|
    .cons (.exit 5 ⟨procExit, 0, emptyArgv⟩ rfl rfl) <|
    .cons (.deliver _ ⟨rfl, gpidAll, rfl, Or.inl rfl⟩) <|
    .cons (.handle 5 _ _ rfl rfl) <|
    .cons (.deliver _ ⟨rfl, gpidProcess, rfl, Or.inr rfl⟩) .nil, rfl⟩

theorem foreground_protocol_one : ∃ log s, Run Step bootedSystem log s ∧ log.length = 8 ∧
    s.shell = .prompt ∧ log.foldlM Stage.next .idle = some .idle ∧ Settles s := by
  obtain ⟨s, hrun, hshell⟩ := run_shortRequest
  obtain ⟨⟨stage, hlog, _, hidle⟩, _, hsettles⟩ := foreground_protocol start_bootedSystem hrun
  exact ⟨_, s, hrun, rfl, hshell, hidle hshell ▸ hlog, hsettles⟩

end Egos.Apps
