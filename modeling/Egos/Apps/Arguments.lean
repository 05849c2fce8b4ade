import Egos.Apps.Tokens
import Egos.Loader.ArgPage
import Egos.Trap.Context

/-!
# From the Command Line to `main`

The way of the arguments: `parse_request` stores the tokens of the command line in a request,
`app_spawn` passes them to `elf_load` without a final `&`, `elf_load` lays them out in a page,
and `app_entry` finds them through the registers that `proc_yield` has set.
-/

namespace Egos.Apps

open Egos.Lib Egos.Earth
open Egos.Loader (Page Block Args wordAt elfLoad argPage appsArg)

/-! ## The code between the parser and `main` -/

/-- `argc` in `app_spawn` -/
def ProcRequest.spawnArgc (req : ProcRequest) : Nat :=
  if req.lastArg = ampersand then req.argc - 1 else req.argc

/-- The arguments of `elf_load` in `app_spawn`. -/
def ProcRequest.spawnArgs (req : ProcRequest) (h : req.argc ≤ cmdNargs) : Args where
  argc := req.spawnArgc
  argv := some req.argv
  le := by
    unfold ProcRequest.spawnArgc
    split_ifs
    · exact (Nat.sub_le _ _).trans h
    · exact h

/-- `app_entry`, given the registers from `a0` on and the words in memory: the arguments with
    which it calls `main`. -/
def appEntry (registers : Fin 32 → UInt32) (lw : UInt32 → UInt32) : UInt32 × UInt32 :=
  (lw (registers 0), registers 1)

/-! ## What `main` should get -/

/-- The tokens of the command line without a last one that begins with `&`. -/
def mainTokens (buf : List UInt8) : List (List UInt8) :=
  if ∃ t, (tokens buf).getLast? = some t ∧ t.head? = some ampersand then (tokens buf).dropLast
  else tokens buf

/-- At this offset of the page there is this string with its terminator. -/
structure IsString (page : Page) (off : Nat) (t : List UInt8) : Prop where
  inside : off + t.length < 4096
  bytes : ∀ j (hj : j < t.length), page.bytes (off + j) = t[j]
  nonzero : 0 ∉ t
  terminator : page.bytes (off + t.length) = 0

/-- A page at `APPS_ARG` that holds these arguments. -/
structure IsArgPage (page : Page) (ts : List (List UInt8)) : Prop where
  argc : wordAt page.bytes 0 = UInt32.ofNat ts.length
  argv : ∀ k (hk : k < ts.length), ∃ off,
    wordAt page.bytes (4 + 4 * k) = appsArg + UInt32.ofNat off ∧ IsString page off ts[k]

variable {buf : List UInt8} {req : ProcRequest}

/-! ## The tokens -/

theorem argc_le (h : parseRequest buf = some req) : req.argc ≤ cmdNargs :=
  (parseRequest_tokens h).2.1

/-- The first character of the last token. -/
theorem lastArg_eq (h : parseRequest buf = some req) {t : List UInt8}
    (hlast : (tokens buf).getLast? = some t) : some req.lastArg = t.head? := by
  obtain ⟨hargc, hle, _, hrows⟩ := parseRequest_tokens h
  have hne : tokens buf ≠ [] := by
    intro hnil
    simp [hnil] at hlast
  have hpos := List.length_pos_iff.mpr hne
  have hrow : (tokens buf).getD (req.argc - 1) [] = t := by
    rw [List.getLast?_eq_getElem?] at hlast
    rw [hargc, List.getD_eq_getElem?_getD, hlast]
    rfl
  have htoken : t ≠ [] := by
    have hmem := List.mem_of_getLast? hlast
    simpa [tokens] using (List.mem_filter.mp hmem).2
  have hval : (Fin.ofNat 16 (req.argc - 1)).val = req.argc - 1 := by
    simp only [Fin.val_ofNat, cmdNargs] at hle ⊢
    omega
  rw [ProcRequest.lastArg, hrows, hval, hrow]
  cases t with
  | nil => exact absurd rfl htoken
  | cons c t => rfl

theorem mainTokens_length (h : parseRequest buf = some req) (hpos : 1 ≤ req.argc) :
    (mainTokens buf).length = req.spawnArgc := by
  have hargc := (parseRequest_tokens h).1
  have hne : tokens buf ≠ [] := by
    rw [← List.length_pos_iff, ← hargc]
    exact hpos
  have hlast := lastArg_eq h (List.getLast?_eq_some_getLast hne)
  unfold mainTokens ProcRequest.spawnArgc
  by_cases hamp : req.lastArg = ampersand
  · rw [if_pos hamp, if_pos ⟨_, List.getLast?_eq_some_getLast hne, by rw [← hlast, hamp]⟩,
      List.length_dropLast, hargc]
  · rw [if_neg hamp, if_neg, hargc]
    rintro ⟨t, ht, hhead⟩
    rw [← lastArg_eq h ht] at hhead
    exact hamp (Option.some.inj hhead)

theorem mainTokens_initial (buf : List UInt8) : mainTokens buf <+: tokens buf := by
  unfold mainTokens
  split_ifs
  · exact List.dropLast_prefix _
  · exact List.prefix_rfl

/-! ## The page -/

/-- The page that `elf_load` makes of a request. -/
theorem isArgPage (h : parseRequest buf = some req) (hpos : 1 ≤ req.argc) (hnul : 0 ∉ buf)
    (page : Page) : IsArgPage (argPage (req.spawnArgs (argc_le h)) page) (mainTokens buf) := by
  obtain ⟨hargc, hle, hshort, hrows⟩ := parseRequest_tokens h
  have hlen := mainTokens_length h hpos
  have hcount : (mainTokens buf).length ≤ 16 := by
    rw [hlen]
    exact (req.spawnArgs (argc_le h)).le
  constructor
  · rw [hlen]
    exact Loader.argc_argPage
  · intro k hk
    have hmem : (mainTokens buf)[k] ∈ tokens buf :=
      (mainTokens_initial buf).subset (List.getElem_mem hk)
    have hlt : (mainTokens buf)[k].length < 32 := hshort _ hmem
    have hkargc : k < req.spawnArgc := hlen ▸ hk
    -- row `k` of `argv` is token `k`
    have hrow : ∀ j : Fin 32, (argPage (req.spawnArgs (argc_le h)) page).bytes (68 + k * 32 + j.val) =
        (mainTokens buf)[k].getD j.val 0 := by
      intro j
      refine (Loader.string_argPage hkargc j).trans ?_
      have hval : (Fin.ofNat 16 k).val = k := Nat.mod_eq_of_lt (by omega)
      rw [hrows, hval, List.getD_eq_getElem _ _ (hk.trans_le (mainTokens_initial buf).length_le),
        (mainTokens_initial buf).getElem hk]
    refine ⟨68 + k * 32, ?_, ?_, ?_, ?_, ?_⟩
    · exact (Loader.pointer_argPage hkargc).trans (Loader.pointer_eq k)
    · omega
    · intro j hj
      rw [hrow ⟨j, by omega⟩]
      exact List.getD_eq_getElem _ _ hj
    · exact fun hzero => hnul (mem_of_mem_tokens hmem hzero)
    · rw [hrow ⟨_, hlt⟩]
      exact List.getD_eq_default _ _ le_rfl

/-- Arguments survive. `elf_load` maps a page of the process at `APPS_ARG` that holds the
    tokens of the command line, and `app_entry` calls `main` with their number and the address
    of the pointers. -/
theorem arguments_survive {pid : Int} {reader : UInt32 → Block} {stack : Nat → UInt8}
    {s s' : Tlb Page} (hnul : 0 ∉ buf) (h : parseRequest buf = some req) (hpos : 1 ≤ req.argc)
    (hload : elfLoad pid reader stack (req.spawnArgs (argc_le h)) s = .ok s') :
    ∃ i : PageId, s'.pageInfoTable i = ⟨pid, (appsArg / 4096).toNat⟩ ∧
      IsArgPage (s'.mem (pageOfId i)) (mainTokens buf) ∧
      ∀ p : Grass.Process ProcRequest, p.status = .ready →
        appEntry (Grass.Kernel.firstRun p).savedRegisters
          (fun addr => wordAt (s'.mem (pageOfId i)).bytes (addr - appsArg).toNat) =
            (UInt32.ofNat (mainTokens buf).length, appsArg + 4) := by
  obtain ⟨i, hentry, hmem⟩ := (Loader.elfLoad_page pid reader stack _ s).of_ok hload
  have hpage := isArgPage h hpos hnul Loader.zeroPage
  rw [← hmem] at hpage
  refine ⟨i, hentry, hpage, fun p hready => ?_⟩
  obtain ⟨_, ha0, ha1⟩ := Trap.firstRun_of_ready hready
  have hargc : (Grass.appsArg - appsArg).toNat = 0 := by decide
  rw [appEntry, ha0, ha1, hargc, hpage.argc]
  rfl

/-- The command line `ls b &`. -/
def shortCommand : List UInt8 := [108, 115, 32, 98, 32, 38]

/-- What `parse_request` makes of it. -/
def shortCommandRequest : ProcRequest :=
  ⟨procSpawn, 3,
    (((((emptyArgv.set 0 0 108).set 0 1 115).set 0 2 0).set 1 0 98).set 1 1 0).set 2 0 38⟩

theorem parseRequest_shortCommand : parseRequest shortCommand = some shortCommandRequest := rfl

theorem arguments_survive_short : ∃ s' : Tlb Page, ∃ i : PageId,
    s'.pageInfoTable i = ⟨5, (appsArg / 4096).toNat⟩ ∧
      IsArgPage (s'.mem (pageOfId i)) (mainTokens shortCommand) := by
  have hends : Ends (elfLoad 5 (fun _ _ => 0) (fun _ => 0)
      (shortCommandRequest.spawnArgs (argc_le parseRequest_shortCommand)) Loader.freeMemory)
      (fun _ => True) fun _ => False := by
    decide +kernel
  obtain ⟨s', hload, _⟩ := hends.exists_ok fun _ he => he
  obtain ⟨i, hentry, hpage, _⟩ :=
    arguments_survive (by decide) parseRequest_shortCommand (by decide) hload
  exact ⟨s', i, hentry, hpage⟩

end Egos.Apps
