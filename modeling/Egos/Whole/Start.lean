import Egos.Apps.Arguments
import Egos.Loader.Room
import Egos.Tools.Image

/-!
# Starting Programs

From the files of the host to the memory of a process: `mkfs` puts the files into the image, the
file server finds them there, `sys_proc` passes their blocks to `elf_load`, and `elf_load` fills
the pages of a new process.

- `Reads`: a reader gives the bytes of a file, whichever way it gets them. `app_read` does so
  through the file server (`reads_of_served`), `sys_proc_read` through the driver of the disk
  (`reads_sysProcRead`).
- `Started`: the memory of a process holds the program.
- `command_starts_app`: a command line starts the program that it names, with its arguments,
  exactly if there are enough pages.
- `servers_started`: the system servers are started from their binaries.

## Reading guide

`app_spawn` and `sys_spawn` start a process with a number from `proc_alloc`. Here the number is
given, as one that no page belongs to.
-/

namespace Egos.Whole

open Egos.Lib Egos.Earth Egos.Loader Egos.FileServer Egos.Tools
open Egos.Apps (ProcRequest parseRequest tokens mainTokens IsArgPage argc_le cmdNargs cmdOk cmdError)

/-! ## Programs -/

/-- The blocks of a file, with zeros behind its end. -/
def fileReader (content : List UInt8) : UInt32 → Loader.Block := fun block n =>
  content.getD (512 * block.toNat + n.val) 0

/-- The first block of a file. -/
def fileHeader (content : List UInt8) : Nat → UInt8 := headerBlock (fileReader content) fun _ => 0

/-- An executable file as the linker makes it: the program headers are in the first block, the
    segments are in the file, and have pages of their own. -/
structure IsProgram (content : List UInt8) : Prop where
  long : 512 ≤ content.length
  small : content.length ≤ size2MB
  fit : HeadersFit (fileReader content)
  aligned : Aligned (segments (fileHeader content))
  offset : ∀ ph ∈ segments (fileHeader content), ph.offset.toNat % 512 = 0
  separate : Separate (segments (fileHeader content))
  inside : ∀ ph ∈ segments (fileHeader content),
    ph.offset.toNat + ph.filesz.toNat ≤ content.length

/-- The pages of the process hold the program, each address once. -/
structure Started (content : List UInt8) (pid : Int) (s : Tlb Page) : Prop where
  bytes : ∀ ph ∈ segments (fileHeader content), ∀ n < ph.filesz.toNat, ∃ i,
    s.pageInfoTable i = ⟨pid, (ph.vaddr.toNat + n) / 4096⟩ ∧
      s.mem (pageOfId i) ⟨(ph.vaddr.toNat + n) % 4096, Nat.mod_lt _ (by decide)⟩ =
        content.getD (ph.offset.toNat + n) 0
  once : ∀ i j, (s.pageInfoTable i).pid = pid → s.pageInfoTable j = s.pageInfoTable i → i = j

/-- The reader gives the bytes of the file. -/
def Reads (reader : UInt32 → Loader.Block) (content : List UInt8) : Prop :=
  ∀ n (hn : n < content.length), fileByte reader n = content[n]

section Loading

variable {content : List UInt8} {reader : UInt32 → Loader.Block} {stack : Nat → UInt8}
  {args : Args} {pid : Int} {s s' : Tlb Page}

/-- The loader sees the headers of the file. -/
theorem IsProgram.programHeaders_eq (h : IsProgram content) (hreads : Reads reader content)
    (stack : Nat → UInt8) :
    programHeaders (headerBlock reader stack) = programHeaders (fileHeader content) := by
  have hblock : headerBlock reader stack = headerBlock (fileReader content) stack := by
    funext n
    unfold headerBlock
    split_ifs with hn
    · have hbyte := hreads n (hn.trans_le h.long)
      rw [fileByte] at hbyte
      simp only [Nat.div_eq_of_lt hn, Nat.mod_eq_of_lt hn] at hbyte
      rw [fileReader, List.getD_eq_getElem _ _ (by show 512 * 0 + n < _; have := h.long; omega)]
      simp only [show 512 * (0 : UInt32).toNat + n = n from Nat.zero_add n]
      exact hbyte
    · rfl
  rw [hblock, h.fit.programHeaders_eq stack]
  rfl

theorem IsProgram.segments_eq (h : IsProgram content) (hreads : Reads reader content)
    (stack : Nat → UInt8) :
    segments (headerBlock reader stack) = segments (fileHeader content) := by
  rw [segments, segments, h.programHeaders_eq hreads stack]

/-- `elf_load` starts the program that its reader reads. -/
theorem IsProgram.started (h : IsProgram content) (hreads : Reads reader content)
    (hcons : Consistent s) (hnone : ∀ i, (s.pageInfoTable i).pid ≠ pid)
    (hload : elfLoad pid reader stack args s = .ok s') : Started content pid s' := by
  have hseg := h.segments_eq hreads stack
  constructor
  · intro ph hph n hn
    have halign := h.aligned.vaddr ph hph
    have hoffset := h.offset ph hph
    have hinside := h.inside ph hph
    rw [← hseg] at hph
    have hmem : ((ph.vaddr.toNat + n) / 4096, filePage reader ph ph.filesz.toNat (n / 4096)) ∈
        segmentPages reader ph := by
      refine mem_segmentPages.mpr ⟨(mem_segments.mp hph).2, n / 4096, ?_, by omega, rfl⟩
      exact lt_max_of_lt_left (by omega)
    obtain ⟨i, hentry, hcontent⟩ := mem_pagesOf.mp
      ((mem_pagesOf_elfLoad hcons hnone hload).mpr (.inl ⟨ph, hph, hmem⟩))
    refine ⟨i, hentry, ?_⟩
    rw [hcontent, filePage, if_pos (by dsimp only; omega),
      List.getD_eq_getElem _ _ (show ph.offset.toNat + n < content.length by omega),
      ← hreads _ (by omega)]
    congr 1
    dsimp only
    omega
  · intro i j hi hj
    have hnodup := Separate.nodup_pagesOf (hseg ▸ h.aligned) (hseg ▸ h.separate) hcons hnone hload
    exact eq_of_nodup_pagesOf hnodup (PageInfo.ext hi rfl) (PageInfo.ext (hj ▸ hi) (hj ▸ rfl))

/-- A page of a process that a call is not for is as it was. -/
theorem samePage_of_owner {call : Call} {i : PageId} (hcons : Consistent s)
    (hcall : Completed s call s') (hpid : pid ≠ 0) (hne : call.pid ≠ pid)
    (hi : (s'.pageInfoTable i).pid = pid) : SamePage s s' i := by
  have hown : (s.pageInfoTable i).pid = pid := by
    cases hcall with
    | load hnone hload =>
      rcases (hcons.elfLoad hnone hload).owner i with hsame | ⟨_, hnew⟩
      · rw [← hsame, hi]
      · exact absurd (hnew.symm.trans hi) hne
    | @free q hq =>
      rw [softTlbFree_pageInfoTable, PageInfo.release_pid] at hi
      split_ifs at hi
      · exact absurd hi.symm hpid
      · exact hi
  exact (Completed.others hcons hcall (hown ▸ hpid) (hown ▸ hne.symm)).1

/-- Calls for other processes keep the program in memory. -/
theorem Started.step {call : Call} (h : Started content pid s) (hcons : Consistent s)
    (hcall : Completed s call s') (hpid : pid ≠ 0) (hne : call.pid ≠ pid) :
    Started content pid s' := by
  constructor
  · intro ph hph n hn
    obtain ⟨i, hentry, hbyte⟩ := h.bytes ph hph n hn
    have hown : (s.pageInfoTable i).pid = pid := by rw [hentry]
    have hsame := (Completed.others hcons hcall (hown ▸ hpid) (hown ▸ hne.symm)).1
    exact ⟨i, hsame.entry.trans hentry, by rw [hsame.content, hbyte]⟩
  · intro i j hi hj
    have hsame := samePage_of_owner hcons hcall hpid hne hi
    have hsame' := samePage_of_owner hcons hcall hpid hne (hj ▸ hi)
    rw [hsame.entry] at hi hj
    exact h.once i j hi (hsame'.entry ▸ hj)

theorem Started.run {calls : List Call} (h : Started content pid s) (hcons : Consistent s)
    (hpid : pid ≠ 0) (hcalls : Run Completed s calls s')
    (hne : ∀ call ∈ calls, call.pid ≠ pid) : Consistent s' ∧ Started content pid s' := by
  induction hcalls with
  | nil => exact ⟨hcons, h⟩
  | snoc _ hcall ih =>
    obtain ⟨hcons', h'⟩ := ih fun call hmem => hne call (List.mem_append_left _ hmem)
    refine ⟨?_, h'.step hcons' hcall hpid (hne _ (List.mem_append_right _ List.mem_cons_self))⟩
    cases hcall with
    | load hnone hload => exact (hcons'.elfLoad hnone hload).consistent
    | free => exact hcons'.softTlbFree _

end Loading

/-! ## Applications -/

/-- The bytes of the stack that `app_spawn` and what it calls find uninitialised: in the two calls
    of `dir_lookup`, in `app_read` of each block, and in the buffer for the header in `elf_load`. -/
structure SpawnStack where
  bin : Memory
  app : Memory
  read : UInt32 → Memory
  header : Nat → UInt8

/-- `app_read` for the inode `ino`. The reply overlays bytes of the stack. -/
def AppRead (rom : Memory) (stack : UInt32 → Memory) (ino : UInt32)
    (reader : UInt32 → Loader.Block) : Prop :=
  ∀ off, ∃ r, fileRead rom (stack off) ino off = .returned (r, reader off)

/-- `req->argv[0]` as a string. -/
def argv0 (req : ProcRequest) : List UInt8 := (List.ofFn (req.argv 0)).takeWhile (· ≠ 0)

/-- `app_spawn` from a request, for a process with the number `pid`: what it returns and memory
    afterwards, or the `FATAL` that `elf_load` ran into. -/
inductive AppSpawn (rom : Memory) (stack : SpawnStack) (req : ProcRequest)
    (hargc : req.argc ≤ cmdNargs) (pid : Int) (s : Tlb Page) :
    Except Fatal (Nat × Tlb Page) → Prop where
  | error {binIno appIno : Int}
      (hbin : dirLookupAt rom stack.bin 0 (ascii "bin/") = .returned binIno)
      (happ : dirLookupAt rom stack.app binIno (argv0 req) = .returned appIno)
      (hino : appIno < 0) : AppSpawn rom stack req hargc pid s (.ok (cmdError, s))
  | load {binIno appIno : Int} {reader : UInt32 → Loader.Block}
      (hbin : dirLookupAt rom stack.bin 0 (ascii "bin/") = .returned binIno)
      (happ : dirLookupAt rom stack.app binIno (argv0 req) = .returned appIno)
      (hino : ¬ appIno < 0) (hread : AppRead rom stack.read (UInt32.ofInt appIno) reader) :
      AppSpawn rom stack req hargc pid s
        ((elfLoad pid reader stack.header (req.spawnArgs hargc) s).map (Prod.mk cmdOk))

section Applications

variable {rom : Memory} {ino : UInt32} {content : List UInt8} {reader : UInt32 → Loader.Block}
  {blockStack : UInt32 → Memory} {stack : SpawnStack}

/-- `app_read` gives the bytes of a file that the server has. -/
theorem reads_of_served (h : Served rom ino content) (hsmall : content.length ≤ size2MB)
    (hread : AppRead rom blockStack ino reader) : Reads reader content := by
  intro n hn
  have hword : (UInt32.ofNat (n / 512)).toNat = n / 512 := by
    rw [size2MB] at hsmall
    exact toNat_word (by omega)
  obtain ⟨r, hreturned⟩ := hread (UInt32.ofNat (n / 512))
  obtain ⟨block, hreturned', hbytes⟩ := h.inside (blockStack _) (UInt32.ofNat (n / 512)) (by omega)
  rw [hreturned] at hreturned'
  obtain ⟨_, hblock⟩ := Prod.mk.inj (BlockProg.Outcome.returned.inj hreturned')
  have hplace : 512 * (UInt32.ofNat (n / 512)).toNat + n % 512 = n := by omega
  rw [fileByte, hblock, hbytes ⟨n % 512, Nat.mod_lt n (by decide)⟩ (by simp only; omega)]
  simp only [hplace]

/-- Every read of such a file returns, whatever is on the stack. -/
theorem exists_appRead (h : Served rom ino content) (blockStack : UInt32 → Memory) :
    ∃ reader, AppRead rom blockStack ino reader := by
  have hall : ∀ off, ∃ block r, fileRead rom (blockStack off) ino off = .returned (r, block) := by
    intro off
    by_cases hlt : 512 * off.toNat < content.length
    · obtain ⟨block, hread, _⟩ := h.inside (blockStack off) off hlt
      exact ⟨block, 0, hread⟩
    · obtain ⟨block, hread⟩ := h.past (blockStack off) off (Nat.not_lt.mp hlt)
      exact ⟨block, -1, hread⟩
  choose reader r hread using hall
  exact ⟨reader, fun off => ⟨r off, hread off⟩⟩

/-- The first argument is the first token. -/
theorem argv0_eq {line : List UInt8} {req : ProcRequest} (hparse : parseRequest line = some req)
    (hnul : 0 ∉ line) {t : List UInt8} (hname : (tokens line).head? = some t) : argv0 req = t := by
  obtain ⟨_, _, hshort, hrows⟩ := Apps.parseRequest_tokens hparse
  have hmem : t ∈ tokens line := List.mem_of_head? hname
  have hzero : 0 ∉ t := fun hzero => hnul (Apps.mem_of_mem_tokens hmem hzero)
  have hrow : ∀ j : Fin 32, req.argv 0 j = t.getD j.val 0 := by
    intro j
    have hfirst : (tokens line).getD 0 [] = t := by
      rw [List.getD_eq_getElem?_getD, ← List.head?_eq_getElem?, hname]
      rfl
    rw [hrows]
    exact congrArg (fun t => t.getD j.val 0) hfirst
  have hstring : ∃ rest, List.ofFn (req.argv 0) = t ++ 0 :: rest :=
    exists_eq_append_zero (hshort t hmem) (by rw [List.length_ofFn]; rfl) fun i _ _ => by
      rw [List.getElem_ofFn, hrow]
  obtain ⟨rest, hrest⟩ := hstring
  rw [argv0, hrest, List.takeWhile_append_of_pos fun c hc => by
    simpa using fun hc0 : c = 0 => hzero (hc0 ▸ hc)]
  simp

/-- The application is in `/bin`, and the server has its file. -/
structure Installed (rom : Memory) (name : List UInt8) (ino : Nat) (content : List UInt8) :
    Prop where
  bin : ∀ stack, dirLookupAt rom stack 0 (ascii "bin/") = .returned 6
  app : ∀ stack, dirLookupAt rom stack 6 name = .returned (ino : Int)
  served : Served rom (UInt32.ofNat ino) content

theorem installed_of_filled {apps : List Dirent} {d : TreeDisk.Store} {behind : Memory}
    (h : Filled (allCalls behind apps) d) (hbuf : InBuffers apps) (hnames : ValidNames apps)
    (exec : Memory) {k : Nat} (hk : k < apps.length) :
    Installed (qemuRom exec (fsBytes d)) apps[k].appName (7 + k) apps[k].content :=
  ⟨h.dirLookup_bin hbuf hnames exec, fun stack => h.dirLookup_app hbuf hnames exec stack hk,
    h.served_app hbuf exec hk⟩

variable {name : List UInt8} {appIno : Nat} {req : ProcRequest} {hargc : req.argc ≤ cmdNargs}
  {pid : Int} {s s' : Tlb Page} {out : Except Fatal (Nat × Tlb Page)}

/-- `app_spawn` loads the application that the request names. -/
theorem Installed.spawn_cases (h : Installed rom name appIno content) (hname : argv0 req = name)
    (hspawn : AppSpawn rom stack req hargc pid s out) :
    ∃ reader, AppRead rom stack.read (UInt32.ofNat appIno) reader ∧
      out = (elfLoad pid reader stack.header (req.spawnArgs hargc) s).map (Prod.mk cmdOk) := by
  have hfound : ∀ {binIno ino : Int},
      dirLookupAt rom stack.bin 0 (ascii "bin/") = .returned binIno →
      dirLookupAt rom stack.app binIno (argv0 req) = .returned ino → ino = appIno := by
    intro binIno ino hbin happ
    rw [h.bin] at hbin
    obtain rfl := BlockProg.Outcome.returned.inj hbin
    rw [hname, h.app] at happ
    exact (BlockProg.Outcome.returned.inj happ).symm
  cases hspawn with
  | error hbin happ hino =>
    rw [hfound hbin happ] at hino
    omega
  | load hbin happ hino hread =>
    rw [hfound hbin happ, ofInt_natCast] at hread
    exact ⟨_, hread, rfl⟩

/-- No call of `app_spawn` to the file server stays without a result. -/
theorem Installed.exists_spawn (h : Installed rom name appIno content) (hname : argv0 req = name)
    (stack : SpawnStack) (hargc : req.argc ≤ cmdNargs) (pid : Int) (s : Tlb Page) :
    ∃ out, AppSpawn rom stack req hargc pid s out := by
  obtain ⟨reader, hread⟩ := exists_appRead h.served stack.read
  have happ : dirLookupAt rom stack.app 6 (argv0 req) = .returned (appIno : Int) := by
    rw [hname, h.app]
  rw [← ofInt_natCast] at hread
  exact ⟨_, .load (h.bin stack.bin) happ (by omega) hread⟩

/-- The pages that `elf_load` needs for a program follow from the file. -/
theorem IsProgram.pagesNeeded_eq (h : IsProgram content) (hreads : Reads reader content)
    (header : Nat → UInt8) :
    pagesNeeded (headerBlock reader header) = pagesNeeded (fileHeader content) := by
  rw [pagesNeeded, h.segments_eq hreads, pagesNeeded]

/-- A command line starts the application that it names, from the image that `mkfs` made. Whatever
    is on the stack, `app_spawn` ends, and if the pages do not suffice, then with the `FATAL` of
    `mmu_alloc`. Otherwise it returns `CMD_OK`: the new process has the bytes of the file at the
    addresses that the program headers say, and the tokens of the line as its arguments. Loading
    and freeing other processes does not change the program. -/
theorem command_starts_app (stale : TreeDisk.Block) (behind : Memory) (dp : List Dirent)
    (hbuf : InBuffers (dp.filter Dirent.isElf)) (hnames : ValidNames (dp.filter Dirent.isElf))
    {d : TreeDisk.Store} (hmkfs : (mkfs stale behind dp).run (TreeDisk.inRange 4096)
      TreeDisk.blankStore = (.returned (), d)) (exec : Memory)
    {k : Nat} (hk : k < (dp.filter Dirent.isElf).length)
    (hprog : IsProgram (dp.filter Dirent.isElf)[k].content)
    {line : List UInt8} {req : ProcRequest} (hparse : parseRequest line = some req)
    (hnul : 0 ∉ line) (hname : (tokens line).head? = some (dp.filter Dirent.isElf)[k].appName)
    {s₀ s : Tlb Page} {calls : List Call} (hempty : Empty s₀) (hcalls : Run Completed s₀ calls s)
    {pid : Int} (hnone : ∀ i, (s.pageInfoTable i).pid ≠ pid) (stack : SpawnStack) :
    (∃ out, AppSpawn (qemuRom exec (fsBytes d)) stack req (argc_le hparse) pid s out) ∧
    ∀ out, AppSpawn (qemuRom exec (fsBytes d)) stack req (argc_le hparse) pid s out →
      (out = .error .noMorePage ∧
        1024 < pagesInUse calls + pagesNeeded (fileHeader (dp.filter Dirent.isElf)[k].content)) ∨
      ∃ s', out = .ok (cmdOk, s') ∧
        pagesInUse calls + pagesNeeded (fileHeader (dp.filter Dirent.isElf)[k].content) ≤ 1024 ∧
        (∃ i, s'.pageInfoTable i = ⟨pid, (appsArg / 4096).toNat⟩ ∧
          IsArgPage (s'.mem (pageOfId i)) (mainTokens line)) ∧
        ∀ calls' s'', Run Completed s' calls' s'' → (∀ call ∈ calls', call.pid ≠ pid) →
          Started (dp.filter Dirent.isElf)[k].content pid s'' := by
  have hfilled := BlockProg.post_of_wp (wp_mkfs stale behind hbuf) hmkfs
  have hinstalled := installed_of_filled hfilled hbuf hnames exec hk
  have hcounted := counted_of_run hempty hcalls
  have hfree := hcounted.free
  have hargv0 := argv0_eq hparse hnul hname
  refine ⟨hinstalled.exists_spawn hargv0 stack _ pid s, fun out hspawn => ?_⟩
  obtain ⟨reader, hread, rfl⟩ := hinstalled.spawn_cases hargv0 hspawn
  have hreads := reads_of_served hinstalled.served hprog.small hread
  have hspends := elfLoad_spends pid reader stack.header (req.spawnArgs (argc_le hparse)) s
  rw [hprog.pagesNeeded_eq hreads] at hspends
  cases hload : elfLoad pid reader stack.header (req.spawnArgs (argc_le hparse)) s with
  | error e =>
    have hfew := hspends.of_error hload
    exact .inl ⟨by cases e; rfl, by omega⟩
  | ok s' =>
    have hleft := hspends.of_ok hload
    have hpos : 1 ≤ req.argc := by
      rw [(Apps.parseRequest_tokens hparse).1]
      exact List.length_pos_of_mem (List.mem_of_head? hname)
    have hfixed : ((appsArg / 4096).toNat, argPage (req.spawnArgs (argc_le hparse)) zeroPage) ∈
        fixedPages (req.spawnArgs (argc_le hparse)) := by
      simp [fixedPages, show (appsArg / 4096).toNat = 0x80300 from rfl]
    obtain ⟨i, hentry, hpage⟩ := mem_pagesOf.mp
      ((mem_pagesOf_elfLoad hcounted.consistent hnone hload).mpr (.inr hfixed))
    have hargs := Apps.isArgPage hparse hpos hnul zeroPage
    have hstarted := hprog.started hreads hcounted.consistent hnone hload
    refine .inr ⟨s', rfl, by omega, ⟨i, hentry, hpage ▸ hargs⟩, fun calls' s'' hrun hne => ?_⟩
    exact (hstarted.run (hcounted.consistent.elfLoad hnone hload).consistent
      (hcounted.consistent.pid_ne_zero hnone hload) hrun hne).2

/-- A file with a program of one segment. Irreducible: no conversion should run through it. -/
@[irreducible] def bssFile : List UInt8 :=
  (List.range 1024).map fun n => if n < 512 then bssHeader n else UInt8.ofNat n

theorem isProgram_bssFile : IsProgram bssFile := by
  have hseg : segments (fileHeader bssFile) = [bssSegment] := by decide +kernel
  refine ⟨by decide +kernel, by decide +kernel, ?_, hseg ▸ aligned_bssSegment, ?_,
    hseg ▸ separate_bssSegment, ?_⟩
  · unfold HeadersFit
    decide +kernel
  · rw [hseg]
    decide
  · rw [hseg]
    decide +kernel

/-- A directory with `ls` alone. -/
def lsDirectory : List Dirent := [⟨ascii "ls.elf", bssFile⟩]

theorem filter_lsDirectory : lsDirectory.filter Dirent.isElf = lsDirectory := by decide +kernel

/-- A stack full of ones. -/
def onesStack : SpawnStack where
  bin := fun _ => 1
  app := fun _ => 1
  read := fun _ _ => 1
  header := fun _ => 1

/-- `ls b &` starts `ls`. -/
theorem command_starts_app_ls : ∃ d s',
    (mkfs TreeDisk.nullBlock (fun _ => 0) lsDirectory).run (TreeDisk.inRange 4096)
      TreeDisk.blankStore = (.returned (), d) ∧
    AppSpawn (qemuRom (fun _ => 0) (fsBytes d)) onesStack Apps.shortCommandRequest
      (argc_le Apps.parseRequest_shortCommand) 5 freeMemory (.ok (cmdOk, s')) ∧
    Started bssFile 5 s' := by
  have hbuf : InBuffers (lsDirectory.filter Dirent.isElf) := ⟨by decide +kernel, by decide +kernel⟩
  have hnames : ValidNames (lsDirectory.filter Dirent.isElf) :=
    ⟨by decide +kernel, by decide +kernel, by decide +kernel, by decide +kernel⟩
  obtain ⟨_, d, hmkfs, _⟩ := BlockProg.returns_of_wp (wp_mkfs_of_fits TreeDisk.nullBlock
    (fun _ => 0) hbuf (by decide +kernel))
  have hlen : 0 < (lsDirectory.filter Dirent.isElf).length := by decide +kernel
  have hcontent : (lsDirectory.filter Dirent.isElf)[0].content = bssFile := by
    simp only [filter_lsDirectory]
    rfl
  have hprog : IsProgram (lsDirectory.filter Dirent.isElf)[0].content := by
    rw [hcontent]
    exact isProgram_bssFile
  have hname : (tokens Apps.shortCommand).head? =
      some (lsDirectory.filter Dirent.isElf)[0].appName := by
    simp only [filter_lsDirectory]
    show _ = some (Dirent.appName ⟨ascii "ls.elf", bssFile⟩)
    decide +kernel
  have hne : (0 : Int) ≠ 5 := by decide
  have hneeded : pagesNeeded (fileHeader bssFile) = 5 := by decide +kernel
  obtain ⟨⟨out, hspawn⟩, hcases⟩ := command_starts_app TreeDisk.nullBlock (fun _ => 0) lsDirectory
    hbuf hnames hmkfs (fun _ => 0) hlen hprog Apps.parseRequest_shortCommand (by decide) hname
    empty_freeMemory .nil (fun _ => hne) onesStack
  rw [hcontent, hneeded] at hcases
  rcases hcases out hspawn with ⟨_, hfew⟩ | ⟨s', rfl, _, _, hstarted⟩
  · exact absurd hfew (by decide)
  · exact ⟨d, s', hmkfs, hspawn, hstarted [] s' .nil fun _ hmem => absurd hmem List.not_mem_nil⟩

end Applications

/-! ## System servers -/

/-- `sys_proc_read` after `sys_apps_base = base` -/
def sysProcRead (rom : Memory) (base : UInt32) : UInt32 → Loader.Block := fun blockNo =>
  diskRead rom (base + blockNo)

theorem zero_le_cmdNargs : 0 ≤ 16 := Nat.zero_le 16

/-- The arguments `0, NULL` of `elf_load` in `sys_spawn`. -/
def noArgs : Args where
  argc := 0
  argv := none
  le := zero_le_cmdNargs

/-- `sys_spawn` of the binary with the number `spawn.1`, for a new process with the number
    `spawn.2`. -/
def SysSpawn (rom : Memory) (s : Tlb Page) (spawn : Nat × Int) (s' : Tlb Page) : Prop :=
  ∃ stack, Completed s
    (.load spawn.2 (sysProcRead rom (sysExecStart spawn.1)) stack noArgs) s'

section Servers

variable {binaries : List (List UInt8)} {fs : Memory} {s s' : Tlb Page}
  {spawns : List (Nat × Int)}

/-- `sys_proc_read` gives the bytes of a binary. -/
theorem reads_sysProcRead (hsize : ∀ binary ∈ binaries, binary.length ≤ egosBinMaxNbyte)
    (hcount : binaries.length ≤ 16) (fs : Memory) {i : Nat} (hi : i < binaries.length) :
    Reads (sysProcRead (qemuRom (loadBinaries binaries 0 fun _ => 0) fs) (sysExecStart i))
      binaries[i] := by
  intro n hn
  have hle := hsize _ (List.getElem_mem hi)
  have hmax : egosBinMaxNbyte = 131072 := rfl
  have hword : (UInt32.ofNat (n / 512)).toNat = n / 512 := toNat_word (by omega)
  have hplace : 512 * (UInt32.ofNat (n / 512)).toNat + n % 512 = n := by omega
  rw [fileByte, sysProcRead, diskRead_binary hsize fs hi hcount (by simp only; omega)]
  simp only [hplace]

/-- The servers started so far have pages, and hold their binaries. -/
structure Booted (binaries : List (List UInt8)) (spawns : List (Nat × Int)) (s : Tlb Page) :
    Prop where
  consistent : Consistent s
  present : ∀ spawn ∈ spawns, spawn.2 ≠ 0 ∧ ∃ i, (s.pageInfoTable i).pid = spawn.2
  started : ∀ spawn ∈ spawns, ∀ hi : spawn.1 < binaries.length, IsProgram binaries[spawn.1] →
    Started binaries[spawn.1] spawn.2 s

theorem Booted.spawn (h : Booted binaries spawns s)
    (hsize : ∀ binary ∈ binaries, binary.length ≤ egosBinMaxNbyte)
    (hcount : binaries.length ≤ 16) {spawn : Nat × Int}
    (hspawn : SysSpawn (qemuRom (loadBinaries binaries 0 fun _ => 0) fs) s spawn s') :
    Booted binaries (spawns ++ [spawn]) s' := by
  obtain ⟨stack, hcall⟩ := hspawn
  obtain ⟨hnone, hload⟩ : (∀ i, (s.pageInfoTable i).pid ≠ spawn.2) ∧
      elfLoad spawn.2 _ stack noArgs s = .ok s' := by
    cases hcall with
    | load hnone hload => exact ⟨hnone, hload⟩
  have hloaded := h.consistent.elfLoad hnone hload
  -- a server that is there already has a page, so the new one has another number
  have hother : ∀ old ∈ spawns, spawn.2 ≠ old.2 := by
    intro old hold heq
    obtain ⟨_, i, hi⟩ := h.present old hold
    exact hnone i (hi.trans heq.symm)
  refine ⟨hloaded.consistent, fun old hold => ?_, fun old hold hi hprog => ?_⟩
  · rcases List.mem_append.mp hold with hold | hold
    · obtain ⟨hne, i, hi⟩ := h.present old hold
      have hsame := hloaded.others i (hi ▸ hne) (hi ▸ (hother old hold).symm)
      exact ⟨hne, i, by rw [hsame.entry, hi]⟩
    · obtain rfl := List.mem_singleton.mp hold
      exact ⟨h.consistent.pid_ne_zero hnone hload,
        ((elfLoad_loading old.2 _ stack _ s).of_ok hload).2⟩
  · rcases List.mem_append.mp hold with hold | hold
    · exact (h.started old hold hi hprog).step h.consistent hcall (h.present old hold).1
        (hother old hold)
    · obtain rfl := List.mem_singleton.mp hold
      exact hprog.started (reads_sysProcRead hsize hcount fs hi) h.consistent hnone hload

/-- The system servers that `sys_proc` starts one after the other are all in memory then, each
    with the bytes of its binary. -/
theorem servers_started (hsize : ∀ binary ∈ binaries, binary.length ≤ egosBinMaxNbyte)
    (hcount : binaries.length ≤ 16) (fs : Memory) (hcons : Consistent s)
    (hrun : Run (SysSpawn (qemuRom (loadBinaries binaries 0 fun _ => 0) fs)) s spawns s') :
    ∀ spawn ∈ spawns, ∀ hi : spawn.1 < binaries.length, IsProgram binaries[spawn.1] →
      Started binaries[spawn.1] spawn.2 s' := by
  have hbooted : Booted binaries spawns s' := by
    refine hrun.invariant_log (P := Booted binaries) ⟨hcons, ?_, ?_⟩ ?_
    · exact fun _ hmem => absurd hmem List.not_mem_nil
    · exact fun _ hmem => absurd hmem List.not_mem_nil
    · exact fun _ _ _ _ h hspawn => h.spawn hsize hcount hspawn
  exact hbooted.started

/-- `sys_spawn` of a program returns if there are enough pages. -/
theorem exists_sysSpawn (hsize : ∀ binary ∈ binaries, binary.length ≤ egosBinMaxNbyte)
    (hcount : binaries.length ≤ 16) (fs : Memory) {i : Nat} (hi : i < binaries.length)
    (hprog : IsProgram binaries[i]) {pid : Int} (hnone : ∀ j, (s.pageInfoTable j).pid ≠ pid)
    (hroom : pagesNeeded (fileHeader binaries[i]) ≤ freePages s) :
    ∃ s', SysSpawn (qemuRom (loadBinaries binaries 0 fun _ => 0) fs) s (i, pid) s' ∧
      freePages s' + pagesNeeded (fileHeader binaries[i]) = freePages s := by
  have hreads := reads_sysProcRead hsize hcount fs hi
  have hspends := elfLoad_spends pid (sysProcRead (qemuRom (loadBinaries binaries 0 fun _ => 0) fs)
    (sysExecStart i)) (fun _ => 0) noArgs s
  rw [hprog.pagesNeeded_eq hreads] at hspends
  obtain ⟨s', hload, hleft⟩ := hspends.exists_ok hroom
  exact ⟨s', ⟨fun _ => 0, .load hnone hload⟩, hleft⟩

/-- Two servers, of which the first is still there after the second was started. -/
theorem servers_started_bss : ∃ s₁ s₂,
    SysSpawn (qemuRom (loadBinaries [[], bssFile, bssFile] 0 fun _ => 0) fun _ => 0) freeMemory
      (1, 2) s₁ ∧
    SysSpawn (qemuRom (loadBinaries [[], bssFile, bssFile] 0 fun _ => 0) fun _ => 0) s₁ (2, 3) s₂ ∧
    Started bssFile 2 s₂ ∧ Started bssFile 3 s₂ := by
  have hsize : ∀ binary ∈ [[], bssFile, bssFile], binary.length ≤ egosBinMaxNbyte := by
    decide +kernel
  have hcount : [[], bssFile, bssFile].length ≤ 16 := by decide
  have hneeded : pagesNeeded (fileHeader bssFile) = 5 := by decide +kernel
  have hfree : freePages freeMemory + pagesInUse [] = 1024 :=
    (counted_of_run empty_freeMemory .nil).free
  rw [show pagesInUse [] = 0 from rfl, Nat.add_zero] at hfree
  have hcons : Consistent freeMemory := empty_freeMemory.consistent
  have hzero : ∀ j, (freeMemory.pageInfoTable j).pid = 0 := fun _ => rfl
  have hnone : ∀ j, (freeMemory.pageInfoTable j).pid ≠ 2 := fun j => by rw [hzero]; decide
  obtain ⟨s₁, hspawn₁, hleft⟩ := exists_sysSpawn hsize hcount (fun _ => 0) (i := 1) (by decide)
    isProgram_bssFile hnone (by rw [hfree]; exact hneeded ▸ by decide)
  -- the pages of the first server are not those of process 3
  have hnone₁ : ∀ j, (s₁.pageInfoTable j).pid ≠ 3 := by
    obtain ⟨stack, hcall⟩ := hspawn₁
    cases hcall with
    | load _ hload =>
      refine (hcons.elfLoad hnone hload).none_of_ne (by decide) fun j => ?_
      rw [hzero]
      decide
  obtain ⟨s₂, hspawn₂, _⟩ := exists_sysSpawn hsize hcount (fun _ => 0) (i := 2) (by decide)
    isProgram_bssFile hnone₁ (by
      change freePages s₁ + pagesNeeded (fileHeader bssFile) = _ at hleft
      change pagesNeeded (fileHeader bssFile) ≤ _
      omega)
  have hstarted := servers_started hsize hcount (fun _ => 0) hcons
    (.cons hspawn₁ (.cons hspawn₂ .nil))
  exact ⟨s₁, s₂, hspawn₁, hspawn₂, hstarted (1, 2) (by simp) (by decide) isProgram_bssFile,
    hstarted (2, 3) (by simp) (by decide) isProgram_bssFile⟩

end Servers

end Egos.Whole
