import Egos.Apps.DirLookup
import Egos.Lib.Paths
import Egos.Lib.Transition

/-!
# The Working Directory

`cd` (`apps/user/cd.c`) keeps the number of the working directory and its path name. The number
comes from the entries of directories, through `dir_lookup`; the path name is edited as a string,
with cases of its own for `./`, `../` and the root.

- A directory is a list of entries as `tools/mkfs.c` writes them, with any number of spaces in
  front of a number. In it `dir_lookup` finds exactly the names that end in a slash
  (`dirLookup_found`, `dirLookup_missing`).
- `DirTree` is a well-formed tree of directories, which finds subdirectories by name.
- `InStep` says that the number is the one that the path name leads to, from the root. It is kept
  by every call of `cd` (`InStep.cd`), hence by every sequence of calls.

## Reading guide

The page at `SHELL_WORK_DIR` is the pair of a number and a string without its terminator. It is
taken to be large enough for every path name.
-/

namespace Egos.Apps

open Egos.Lib

/-! ## The code -/

/-- `'/'` -/
def slash : UInt8 := 47

/-- `"./"` -/
def dotSlash : List UInt8 := [46, slash]

/-- `"../"` -/
def dotDotSlash : List UInt8 := [46, 46, slash]

/-- `"home"` and `"cs6640"` -/
def homeName : List UInt8 := [104, 111, 109, 101]

@[inherit_doc homeName]
def userName : List UInt8 := [99, 115, 54, 54, 52, 48]

/-- `workdir_ino` and `workdir` -/
structure Workdir where
  ino : Int
  path : List UInt8
  deriving DecidableEq

/-- How a call ends: it returns 0, or it prints that the directory is not found and returns -1. -/
inductive Reply where
  | done
  | notFound (arg : List UInt8)
  deriving DecidableEq

/-- `if (argv[1][strlen(argv[1]) - 1] != '/') strcat(argv[1], "/");`
    For an empty argument this looks at the byte in front of it, the zero that ends the slot of
    `argv[0]`. -/
def withSlash (arg : List UInt8) : List UInt8 :=
  if arg.getLast? = some slash then arg else arg ++ [slash]

/-- `while (workdir[len] != '/') workdir[len--] = 0;`, and `none` if it runs out of the string. -/
def cutLoop (mem : List UInt8) : Nat → Option (Nat × List UInt8)
  | 0 => if mem[0]? = some slash then some (0, mem) else none
  | len + 1 =>
      if mem[len + 1]? = some slash then some (len + 1, mem) else cutLoop (mem.set (len + 1) 0) len

/-- `main` of `cd`, without an argument or with one; `disk` has the first block of each file. -/
def cd (disk : Int → List UInt8) (s : Workdir) : Option (List UInt8) → Option (Reply × Workdir)
  | none =>
      let homeIno := dirLookup (disk 0) (homeName ++ [slash])
      some (.done, ⟨dirLookup (disk homeIno) (userName ++ [slash]),
        slash :: homeName ++ slash :: userName⟩)
  | some arg =>
      let arg := withSlash arg
      let dirIno := dirLookup (disk s.ino) arg
      if dirIno = -1 then some (.notFound arg, s)
      else
        let s := { s with ino := dirIno }
        if arg = dotSlash then some (.done, s)
        else
          let len := s.path.length
          if arg = dotDotSlash then do
            let (len, mem) ← cutLoop (s.path ++ [0]) len
            let mem := if len ≠ 0 then mem.set len 0 else mem
            some (.done, { s with path := mem.takeWhile (· ≠ 0) })
          else
            let path := s.path ++ (if len > 1 then [slash] else [])
            some (.done, { s with path := path ++ arg.take (arg.length - 1) })

/-! ## The text of a directory -/

/-- An entry of a directory, with the number of spaces behind the name beyond the first. -/
structure Listed where
  name : List UInt8
  pad : Nat
  ino : Nat
  deriving DecidableEq, Repr

def listFields (es : List Listed) : List (TextField UInt8) :=
  es.flatMap fun e => [(e.name, e.pad), (decimal e.ino, 0)]

def listText (es : List Listed) : List UInt8 := render space (listFields es)

/-- The text is one that `dir_lookup` can read, in one block. -/
structure IsText (es : List Listed) : Prop where
  name : ∀ e ∈ es, e.name ≠ [] ∧ space ∉ e.name ∧ 0 ∉ e.name
  ino : ∀ e ∈ es, e.ino < 2 ^ 31
  length : (listText es).length < 512

section Text

variable {es : List Listed} {q : List UInt8}

theorem IsText.isField (h : IsText es) : ∀ f ∈ listFields es, IsField space f.1 :=
  fun f hf => (isField_entryFields h.name f hf).1

theorem IsText.notMem_zero (h : IsText es) : 0 ∉ listText es :=
  notMem_render (by decide) fun f hf => (isField_entryFields h.name f hf).2

/-- A number does not end in a slash. -/
theorem decimal_ne_of_slash (hq : q.getLast? = some slash) (n : Nat) : decimal n ≠ q := by
  rintro rfl
  exact absurd (isDigit_of_mem_decimal (List.mem_of_getLast? hq)) (by decide)

/-- `dir_lookup` finds the first entry with a name that is not a number. -/
theorem dirLookup_listed (h : IsText es) (hq : ∀ n, decimal n ≠ q) (rest : List UInt8)
    {e : Listed} (hfind : es.find? (·.name = q) = some e) :
    dirLookup (listText es ++ 0 :: rest) q = e.ino := by
  obtain ⟨hname, before, behind, rfl, hbefore⟩ := List.find?_eq_some_iff_append.mp hfind
  rw [decide_eq_true_eq] at hname
  subst hname
  have hsplit : listFields (before ++ e :: behind) =
      listFields before ++ (e.name, e.pad) :: (decimal e.ino, 0) :: listFields behind := by
    simp [listFields]
  have hfirst : ∀ f ∈ listFields before, f.1 ≠ e.name := by
    intro f hf
    obtain ⟨e', he', hf' | hf'⟩ := mem_entryFields hf
    · rw [hf']
      simpa using hbefore e' he'
    · rw [hf']
      exact hq e'.ino
  have hfields := h.isField
  have hnul := h.notMem_zero
  have hlen := h.length
  rw [listText, hsplit] at hnul hlen
  rw [hsplit] at hfields
  rw [listText, hsplit, dirLookup_render hfields hnul hlen hfirst, render_cons]
  simp only [List.append_assoc, List.replicate_succ, List.replicate_zero, List.cons_append,
    List.nil_append]
  exact atoi_decimal (h.ino e (by simp)) _

/-- `dir_lookup` finds the first entry with a name that ends in a slash. -/
theorem dirLookup_found (h : IsText es) (hq : q.getLast? = some slash) (rest : List UInt8)
    {e : Listed} (hfind : es.find? (·.name = q) = some e) :
    dirLookup (listText es ++ 0 :: rest) q = e.ino :=
  dirLookup_listed h (decimal_ne_of_slash hq) rest hfind

/-- It finds no other name that ends in a slash. -/
theorem dirLookup_missing (h : IsText es) (hq : q.getLast? = some slash) (hspace : space ∉ q)
    (hshort : q.length ≤ (listText es).length) (rest : List UInt8)
    (hfind : es.find? (·.name = q) = none) :
    dirLookup (listText es ++ 0 :: rest) q = -1 := by
  have hne : q ≠ [] := by
    rintro rfl
    cases hq
  apply dirLookup_none h.notMem_zero h.length hshort
  intro j hj
  rw [listText, occursAt_render_iff h.isField ⟨hne, hspace⟩] at hj
  obtain ⟨before, k, behind, heq, -⟩ := hj
  have hmem : (q, k) ∈ listFields es := by simp [heq]
  obtain ⟨e, he, hname | hnumber⟩ := mem_entryFields hmem
  · exact absurd hname.symm (by simpa using List.find?_eq_none.mp hfind e he)
  · exact decimal_ne_of_slash hq e.ino hnumber.symm

end Text

/-! ## Trees of directories -/

/-- The subdirectory with the name `c`. -/
def childOf (listing : Nat → Option (List Listed)) (d : Nat) (c : List UInt8) : Option Nat :=
  (listing d).bind fun es => (es.find? (·.name = c ++ [slash])).map Listed.ino

/-- `es` is a directory with the number `d`: it lists itself as `./` and its parent as `../`. The
    other names that end in a slash are those of its subdirectories. -/
structure IsDir (listing : Nat → Option (List Listed)) (parent : Nat → Nat) (d : Nat)
    (es : List Listed) : Prop where
  text : IsText es
  self : ∃ e ∈ es, e.name = dotSlash ∧ e.ino = d
  up : ∃ e ∈ es, e.name = dotDotSlash ∧ e.ino = parent d
  unique : ∀ e ∈ es, ∀ e' ∈ es, e.name.getLast? = some slash → e.name = e'.name → e = e'
  sub : ∀ e ∈ es, e.name.getLast? = some slash → e.name ≠ dotSlash → e.name ≠ dotDotSlash →
    e.name.dropLast ≠ [] ∧ slash ∉ e.name.dropLast ∧ (listing e.ino).isSome ∧ parent e.ino = d

/-- A tree of directories with the root 0 and the directory `/home/cs6640`. -/
structure DirTree where
  /-- The entries of a directory; other files have none. -/
  listing : Nat → Option (List Listed)
  parent : Nat → Nat
  isDir : ∀ d es, listing d = some es → IsDir listing parent d es
  root : (listing 0).isSome
  parent_root : parent 0 = 0
  home : (walk (childOf listing) 0 [homeName, userName]).isSome

/-- The name of a subdirectory, without the slash. -/
structure IsComponent (c : List UInt8) : Prop where
  ne_nil : c ≠ []
  notMem_slash : slash ∉ c
  notMem_zero : 0 ∉ c
  ne_dot : c ++ [slash] ≠ dotSlash
  ne_dotDot : c ++ [slash] ≠ dotDotSlash

namespace DirTree

variable {t : DirTree} {d : Nat} {es : List Listed} {c : List UInt8} {cs : List (List UInt8)}

/-- The blocks of the directories hold their texts. -/
def OnDisk (t : DirTree) (disk : Int → List UInt8) : Prop :=
  ∀ d es, t.listing d = some es → ∃ rest, disk d = listText es ++ 0 :: rest

theorem childOf_eq_some (hes : t.listing d = some es) {n : Nat} :
    childOf t.listing d c = some n ↔
      ∃ e, es.find? (·.name = c ++ [slash]) = some e ∧ e.ino = n := by
  simp [childOf, hes, Option.map_eq_some_iff]

theorem find?_spec {q : List UInt8} {e : Listed} (h : es.find? (·.name = q) = some e) :
    e ∈ es ∧ e.name = q :=
  ⟨List.mem_of_find?_eq_some h, by simpa using List.find?_some h⟩

/-- A subdirectory is a directory and knows its parent. -/
theorem of_childOf {n : Nat} (hc : IsComponent c) (h : childOf t.listing d c = some n) :
    (t.listing n).isSome ∧ t.parent n = d := by
  obtain ⟨es, hes, -⟩ := Option.bind_eq_some_iff.mp h
  obtain ⟨e, hfind, rfl⟩ := (childOf_eq_some hes).mp h
  obtain ⟨he, hname⟩ := find?_spec hfind
  have hsub := (t.isDir d es hes).sub e he (by simp [hname]) (hname ▸ hc.ne_dot)
    (hname ▸ hc.ne_dotDot)
  exact hsub.2.2

theorem isSome_of_walk (hcs : ∀ c ∈ cs, IsComponent c)
    (h : walk (childOf t.listing) 0 cs = some d) : (t.listing d).isSome :=
  walk_invariant (P := fun d => (t.listing d).isSome) h t.root
    fun _ c _ hc _ hchild => (of_childOf (hcs c hc) hchild).1

end DirTree

/-! ## Cutting the last name off -/

section Cut

variable {w : List UInt8}

/-- The loop clears the characters from the end on, up to a slash. The induction is on what is
    behind the slash, from its end; the zeros already written are in `zs`. -/
theorem cutLoop_eq (P zs : List UInt8) (hw : slash ∉ w) :
    cutLoop (P ++ slash :: (w ++ zs)) (P.length + w.length) =
      some (P.length, P ++ slash :: (List.replicate w.length 0 ++ zs)) := by
  induction w using List.reverseRecOn generalizing zs with
  | nil =>
    have hslash : (P ++ slash :: zs)[P.length]? = some slash := by simp
    show cutLoop (P ++ slash :: zs) P.length = some (P.length, P ++ slash :: zs)
    generalize P ++ slash :: zs = mem at hslash ⊢
    cases hlen : P.length with
    | zero => rw [cutLoop, if_pos (hlen ▸ hslash)]
    | succ n => rw [cutLoop, if_pos (hlen ▸ hslash)]
  | append_singleton w x ih =>
    have hx : x ≠ slash := by
      rintro rfl
      exact hw (by simp)
    have hget : (P ++ slash :: (w ++ [x] ++ zs))[P.length + w.length + 1]? = some x := by
      rw [List.getElem?_append_right (by omega)]
      simp [show P.length + w.length + 1 - P.length = w.length + 1 by omega]
    have hset : (P ++ slash :: (w ++ [x] ++ zs)).set (P.length + w.length + 1) 0 =
        P ++ slash :: (w ++ 0 :: zs) := by
      rw [List.set_append_right _ _ (by omega),
        show P.length + w.length + 1 - P.length = w.length + 1 by omega, List.set_cons_succ,
        List.append_assoc, List.set_append_right _ _ (by omega)]
      simp
    rw [show P.length + (w ++ [x]).length = P.length + w.length + 1 by simp; omega, cutLoop,
      hget, if_neg (by simpa using hx), hset, ih _ fun hmem => hw (List.mem_append_left _ hmem)]
    simp [List.replicate_succ', List.append_assoc]

end Cut

/-! ## Keeping in step -/

/-- The path name is `/` or has the form `/c₁/…/cₙ`, and leads from the root to the number. -/
def InStep (t : DirTree) (s : Workdir) : Prop :=
  ∃ cs : List (List UInt8), (∀ c ∈ cs, IsComponent c) ∧ s.path = pathString slash cs ∧
    ∃ d : Nat, walk (childOf t.listing) 0 cs = some d ∧ s.ino = d

/-- The arguments considered: no spaces and zeros, as the shell passes them, and with the slash
    shorter than the text of the working directory. -/
def Admissible (disk : Int → List UInt8) (s : Workdir) : Option (List UInt8) → Prop
  | none => True
  | some arg => space ∉ arg ∧ 0 ∉ arg ∧ (withSlash arg).length < strlen (disk s.ino)

theorem getLast?_withSlash (arg : List UInt8) : (withSlash arg).getLast? = some slash := by
  unfold withSlash
  split_ifs with h
  · exact h
  · simp

theorem withSlash_notMem {arg : List UInt8} {x : UInt8} (hx : x ≠ slash) (h : x ∉ arg) :
    x ∉ withSlash arg := by
  unfold withSlash
  split_ifs
  · exact h
  · simp [h, hx]

section Steps

variable {t : DirTree} {disk : Int → List UInt8} {s : Workdir} {cs : List (List UInt8)}

/-- One name up: the path name loses its last name, that of the root stays. -/
theorem cut_pathString (hcs : ∀ c ∈ cs, IsComponent c) :
    ∃ len mem, cutLoop (pathString slash cs ++ [0]) (pathString slash cs).length =
        some (len, mem) ∧
      (if len ≠ 0 then mem.set len 0 else mem).takeWhile (· ≠ 0) =
        pathString slash cs.dropLast := by
  rcases List.eq_nil_or_concat cs with rfl | ⟨cs, c, rfl⟩
  · exact ⟨0, [slash, 0], by decide, by decide⟩
  · rw [List.concat_eq_append] at hcs ⊢
    have hc : IsComponent c := hcs c (by simp)
    have hlast : slash ∉ c ++ [0] := by
      simp only [List.mem_append, List.mem_singleton, not_or]
      exact ⟨hc.notMem_slash, by decide⟩
    have hcut := cutLoop_eq (cs.flatMap (slash :: ·)) [] hlast
    have hnul : 0 ∉ cs.flatMap (slash :: ·) := by
      intro hmem
      obtain ⟨c', hc', hzero⟩ := List.mem_flatMap.mp hmem
      rcases List.mem_cons.mp hzero with hzero | hzero
      · exact absurd hzero (by decide)
      · exact (hcs c' (List.mem_append_left _ hc')).notMem_zero hzero
    refine ⟨(cs.flatMap (slash :: ·)).length, cs.flatMap (slash :: ·) ++ slash ::
      (List.replicate (c ++ [0]).length 0 ++ []), ?_, ?_⟩
    · rw [pathString_concat, ← hcut]
      simp [Nat.add_assoc]
    · rw [List.dropLast_concat]
      by_cases hnil : cs = []
      · simp [hnil, List.replicate_succ, slash]
      · have hpos : (cs.flatMap (slash :: ·)).length ≠ 0 := by
          obtain ⟨c', cs', rfl⟩ := List.exists_cons_of_ne_nil hnil
          simp
        have hkeep : ∀ x ∈ cs.flatMap (slash :: ·), decide (x ≠ 0) = true := by
          intro x hx
          simpa using fun hzero : x = 0 => hnul (hzero ▸ hx)
        rw [if_pos hpos, List.set_append_right _ _ (Nat.le_refl _), Nat.sub_self,
          List.set_cons_zero, List.takeWhile_append_of_pos hkeep, pathString_of_ne_nil hnil]
        simp

/-- What `dir_lookup` returns in a directory of the tree. -/
theorem dirLookup_disk (hdisk : t.OnDisk disk) {d : Nat} {es : List Listed}
    (hes : t.listing d = some es) {q : List UInt8} (hq : q.getLast? = some slash)
    {e : Listed} (hfind : es.find? (·.name = q) = some e) : dirLookup (disk d) q = e.ino := by
  obtain ⟨rest, hrest⟩ := hdisk d es hes
  rw [hrest]
  exact dirLookup_found (t.isDir d es hes).text hq rest hfind

/-- A call without an argument leads to `/home/cs6640`, from anywhere. -/
theorem cd_home (hdisk : t.OnDisk disk) (s : Workdir) :
    ∃ s', cd disk s none = some (.done, s') ∧ InStep t s' := by
  obtain ⟨d, hd⟩ := Option.isSome_iff_exists.mp t.home
  have hd' : walk (childOf t.listing) 0 ([homeName] ++ [userName]) = some d := hd
  obtain ⟨h, hh, huser⟩ := walk_concat_eq_some.mp hd'
  have hh' : walk (childOf t.listing) 0 ([] ++ [homeName]) = some h := hh
  obtain ⟨r, hr, hhome⟩ := walk_concat_eq_some.mp hh'
  obtain rfl : 0 = r := Option.some.inj hr
  obtain ⟨es, hes⟩ := Option.isSome_iff_exists.mp t.root
  obtain ⟨e, hfind, rfl⟩ := (DirTree.childOf_eq_some hes).mp hhome
  obtain ⟨es', hes', -⟩ := Option.bind_eq_some_iff.mp huser
  obtain ⟨e', hfind', rfl⟩ := (DirTree.childOf_eq_some hes').mp huser
  have hlookup : dirLookup (disk 0) (homeName ++ [slash]) = e.ino :=
    dirLookup_disk hdisk hes (by simp) hfind
  have hlookup' : dirLookup (disk e.ino) (userName ++ [slash]) = e'.ino :=
    dirLookup_disk hdisk hes' (by simp) hfind'
  refine ⟨_, rfl, [homeName, userName], ?_, rfl, e'.ino, hd, ?_⟩
  · intro c hc
    simp only [List.mem_cons, List.not_mem_nil, or_false] at hc
    rcases hc with rfl | rfl
    · exact ⟨by decide, by decide, by decide, by decide, by decide⟩
    · exact ⟨by decide, by decide, by decide, by decide, by decide⟩
  · simp only [hlookup, hlookup']

/-- The place of the working directory: the names that lead to it, its number and its entries. -/
structure At (t : DirTree) (s : Workdir) (cs : List (List UInt8)) (d : Nat) (es : List Listed) :
    Prop where
  component : ∀ c ∈ cs, IsComponent c
  path : s.path = pathString slash cs
  walk : walk (childOf t.listing) 0 cs = some d
  ino : s.ino = d
  listing : t.listing d = some es

theorem InStep.exists_at (h : InStep t s) : ∃ cs d es, At t s cs d es := by
  obtain ⟨cs, hcs, hpath, d, hwalk, hino⟩ := h
  obtain ⟨es, hes⟩ := Option.isSome_iff_exists.mp (DirTree.isSome_of_walk hcs hwalk)
  exact ⟨cs, d, es, hcs, hpath, hwalk, hino, hes⟩

section Branches

variable {d : Nat} {es : List Listed} {arg : List UInt8} {e : Listed}

theorem At.lookup (h : At t s cs d es) (hdisk : t.OnDisk disk)
    (hfind : es.find? (·.name = withSlash arg) = some e) :
    dirLookup (disk s.ino) (withSlash arg) = e.ino := by
  rw [h.ino]
  exact dirLookup_disk hdisk h.listing (getLast?_withSlash arg) hfind

/-- A name is that of one entry. -/
theorem At.eq_of_name (h : At t s cs d es) (hfind : es.find? (·.name = withSlash arg) = some e)
    {e' : Listed} (he' : e' ∈ es) (hname : e'.name = withSlash arg) : e = e' := by
  obtain ⟨he, hname'⟩ := DirTree.find?_spec hfind
  have hslash : e.name.getLast? = some slash := hname' ▸ getLast?_withSlash arg
  exact (t.isDir d es h.listing).unique e he e' he' hslash (hname'.trans hname.symm)

theorem ino_ne_neg_one (e : Listed) : ¬ (e.ino : Int) = -1 := by
  omega

/-- A name that is not in the directory. -/
theorem At.cd_missing (h : At t s cs d es) (hdisk : t.OnDisk disk)
    (harg : Admissible disk s (some arg))
    (hfind : es.find? (·.name = withSlash arg) = none) :
    Apps.cd disk s (some arg) = some (.notFound (withSlash arg), s) := by
  obtain ⟨hspace, -, hshort⟩ := harg
  have htext := (t.isDir d es h.listing).text
  obtain ⟨rest, hrest⟩ := hdisk d es h.listing
  rw [h.ino, hrest, strlen_text htext.notMem_zero] at hshort
  have hmissing : dirLookup (disk s.ino) (withSlash arg) = -1 := by
    rw [h.ino, hrest]
    exact dirLookup_missing htext (getLast?_withSlash arg)
      (withSlash_notMem (by decide) hspace) hshort.le rest hfind
  simp only [Apps.cd, hmissing, if_true]

/-- `./` is the working directory itself. -/
theorem At.cd_dot (h : At t s cs d es) (hdisk : t.OnDisk disk)
    (hfind : es.find? (·.name = withSlash arg) = some e) (hdot : withSlash arg = dotSlash) :
    Apps.cd disk s (some arg) = some (.done, s) := by
  obtain ⟨e', he', hname', hself⟩ := (t.isDir d es h.listing).self
  obtain rfl := h.eq_of_name hfind he' (hname'.trans hdot.symm)
  simp only [Apps.cd, h.lookup hdisk hfind, if_neg (ino_ne_neg_one e), if_pos hdot]
  rw [hself, ← h.ino]

/-- `../` leads to the parent directory, and the path name loses its last name. -/
theorem At.cd_dotDot (h : At t s cs d es) (hdisk : t.OnDisk disk)
    (hfind : es.find? (·.name = withSlash arg) = some e) (hdotDot : withSlash arg = dotDotSlash) :
    ∃ s', Apps.cd disk s (some arg) = some (.done, s') ∧ InStep t s' := by
  obtain ⟨e', he', hname', hup⟩ := (t.isDir d es h.listing).up
  obtain rfl := h.eq_of_name hfind he' (hname'.trans hdotDot.symm)
  obtain ⟨len, mem, hcut, hcutPath⟩ := cut_pathString h.component
  have hdot : ¬ withSlash arg = dotSlash := by
    rw [hdotDot]
    decide
  refine ⟨⟨e.ino, pathString slash cs.dropLast⟩, ?_, cs.dropLast, ?_, rfl, e.ino, ?_, rfl⟩
  · simp only [Apps.cd, h.lookup hdisk hfind, if_neg (ino_ne_neg_one e), if_neg hdot,
      if_pos hdotDot, h.path, hcut, Option.bind_eq_bind, Option.bind_some, hcutPath]
  · intro c hc
    exact h.component c (List.mem_of_mem_dropLast hc)
  · have hwalk := h.walk
    have hcs := h.component
    rw [hup]
    rcases List.eq_nil_or_concat cs with rfl | ⟨cs, c, rfl⟩
    · -- the root is its own parent
      obtain rfl : 0 = d := Option.some.inj hwalk
      rw [t.parent_root]
      rfl
    · rw [List.concat_eq_append] at hwalk hcs ⊢
      obtain ⟨m, hm, hchild⟩ := walk_concat_eq_some.mp hwalk
      rw [List.dropLast_concat, hm, (DirTree.of_childOf (hcs c (by simp)) hchild).2]

/-- Any other name is that of a subdirectory, and is added to the path name. -/
theorem At.cd_sub (h : At t s cs d es) (hdisk : t.OnDisk disk) (hzero : 0 ∉ arg)
    (hfind : es.find? (·.name = withSlash arg) = some e) (hdot : ¬ withSlash arg = dotSlash)
    (hdotDot : ¬ withSlash arg = dotDotSlash) :
    ∃ s', Apps.cd disk s (some arg) = some (.done, s') ∧ InStep t s' := by
  obtain ⟨he, hname⟩ := DirTree.find?_spec hfind
  have hslash : e.name.getLast? = some slash := hname ▸ getLast?_withSlash arg
  obtain ⟨hne, hnotMem, -, -⟩ :=
    (t.isDir d es h.listing).sub e he hslash (hname ▸ hdot) (hname ▸ hdotDot)
  have hsplit : (withSlash arg).dropLast ++ [slash] = withSlash arg :=
    List.dropLast_append_getLast? slash (getLast?_withSlash arg)
  rw [hname] at hne hnotMem
  have hcomponent : IsComponent (withSlash arg).dropLast :=
    { ne_nil := hne
      notMem_slash := hnotMem
      notMem_zero := fun hmem =>
        withSlash_notMem (by decide) hzero (List.mem_of_mem_dropLast hmem)
      ne_dot := by rwa [hsplit]
      ne_dotDot := by rwa [hsplit] }
  refine ⟨⟨e.ino, pathString slash (cs ++ [(withSlash arg).dropLast])⟩, ?_,
    cs ++ [(withSlash arg).dropLast], ?_, rfl, e.ino, ?_, rfl⟩
  · simp only [Apps.cd, h.lookup hdisk hfind, if_neg (ino_ne_neg_one e), if_neg hdot,
      if_neg hdotDot, h.path, ← List.dropLast_eq_take]
    rw [pathString_push fun c hc => (h.component c hc).ne_nil]
  · intro c hc
    rcases List.mem_append.mp hc with hc | hc
    · exact h.component c hc
    · rw [List.mem_singleton.mp hc]
      exact hcomponent
  · rw [walk_concat_eq_some]
    refine ⟨d, h.walk, ?_⟩
    rw [DirTree.childOf_eq_some h.listing, hsplit]
    exact ⟨e, hfind, rfl⟩

end Branches

/-- Every call keeps the number and the path name in step, and a directory that is not found
    changes neither. -/
theorem InStep.cd (hdisk : t.OnDisk disk) (h : InStep t s) {arg : Option (List UInt8)}
    (harg : Admissible disk s arg) :
    ∃ reply s', Apps.cd disk s arg = some (reply, s') ∧ InStep t s' ∧
      (reply ≠ .done → s' = s) := by
  have hdone : ∀ {arg}, (∃ s', Apps.cd disk s arg = some (.done, s') ∧ InStep t s') →
      ∃ reply s', Apps.cd disk s arg = some (reply, s') ∧ InStep t s' ∧
        (reply ≠ .done → s' = s) := by
    rintro arg ⟨s', hcall, hstep⟩
    exact ⟨.done, s', hcall, hstep, fun hne => absurd rfl hne⟩
  cases arg with
  | none => exact hdone (cd_home hdisk s)
  | some arg =>
    obtain ⟨cs, d, es, hat⟩ := h.exists_at
    cases hfind : es.find? (·.name = withSlash arg) with
    | none => exact ⟨_, s, hat.cd_missing hdisk harg hfind, h, fun _ => rfl⟩
    | some e =>
      by_cases hdot : withSlash arg = dotSlash
      · exact hdone ⟨s, hat.cd_dot hdisk hfind hdot, h⟩
      · by_cases hdotDot : withSlash arg = dotDotSlash
        · exact hdone (hat.cd_dotDot hdisk hfind hdotDot)
        · exact hdone (hat.cd_sub hdisk harg.2.1 hfind hdot hdotDot)

end Steps

/-- A call of `cd` that returns, with its argument and its reply. -/
def CdStep (disk : Int → List UInt8) (s : Workdir) (call : Option (List UInt8) × Reply)
    (s' : Workdir) : Prop :=
  Admissible disk s call.1 ∧ cd disk s call.1 = some (call.2, s')

/-- Over every sequence of calls, in every well-formed tree of directories, the path name is `/` or
    `/c₁/…/cₙ` and leads from the root to the number of the working directory. The next call
    returns, keeps this, and changes nothing if it does not find the directory. The first part
    says that a call without an argument gets there from any state. -/
theorem cd_keeps_in_step (t : DirTree) (disk : Int → List UInt8) (hdisk : t.OnDisk disk) :
    (∀ s, ∃ s', cd disk s none = some (.done, s') ∧ InStep t s') ∧
    ∀ s₀ calls s, InStep t s₀ → Run (CdStep disk) s₀ calls s →
      InStep t s ∧
      ∀ arg, Admissible disk s arg →
        ∃ reply s', cd disk s arg = some (reply, s') ∧ InStep t s' ∧
          (∀ name, reply = .notFound name → s' = s) := by
  refine ⟨cd_home hdisk, ?_⟩
  intro s₀ calls s h₀ hrun
  have hstep : InStep t s := by
    apply hrun.invariant h₀
    rintro s call s' h ⟨harg, hcall⟩
    obtain ⟨reply, s₁, hcall', h', -⟩ := h.cd hdisk harg
    rw [hcall, Option.some.injEq, Prod.mk.injEq] at hcall'
    rw [hcall'.2]
    exact h'
  refine ⟨hstep, ?_⟩
  intro arg harg
  obtain ⟨reply, s', hcall, h', hsame⟩ := hstep.cd hdisk harg
  refine ⟨reply, s', hcall, h', ?_⟩
  rintro name rfl
  exact hsame (by simp)

/-! ## The directories of a new disk -/

/-- The directories among the `contents` of `mkfs`, with `/bin` still empty. -/
def mkfsDirs : List (Nat × List Listed) :=
  [(0, [⟨dotSlash, 2, 0⟩, ⟨dotDotSlash, 2, 0⟩, ⟨homeName ++ [slash], 2, 1⟩,
      ⟨[98, 105, 110, slash], 2, 6⟩]),
   (1, [⟨dotSlash, 2, 1⟩, ⟨dotDotSlash, 2, 0⟩, ⟨userName ++ [slash], 2, 2⟩,
      ⟨[116, 97, slash], 3, 3⟩, ⟨[102, 115, slash], 6, 4⟩]),
   (2, [⟨dotSlash, 2, 2⟩, ⟨dotDotSlash, 2, 1⟩, ⟨[82, 69, 65, 68, 77, 69], 2, 5⟩]),
   (3, [⟨dotSlash, 2, 3⟩, ⟨dotDotSlash, 2, 1⟩]),
   (4, [⟨dotSlash, 2, 4⟩, ⟨dotDotSlash, 2, 1⟩]),
   (6, [⟨dotSlash, 2, 6⟩, ⟨dotDotSlash, 2, 0⟩])]

def mkfsParent (d : Nat) : Nat := if d = 2 ∨ d = 3 ∨ d = 4 then 1 else 0

theorem isDir_mkfsDirs : ∀ p ∈ mkfsDirs, IsDir (mkfsDirs.lookup ·) mkfsParent p.1 p.2 := by
  have htext : ∀ p ∈ mkfsDirs, (∀ e ∈ p.2, e.name ≠ [] ∧ space ∉ e.name ∧ 0 ∉ e.name) ∧
      (∀ e ∈ p.2, e.ino < 2 ^ 31) ∧ (listText p.2).length < 512 := by
    decide +kernel
  have hlinks : ∀ p ∈ mkfsDirs, (∃ e ∈ p.2, e.name = dotSlash ∧ e.ino = p.1) ∧
      (∃ e ∈ p.2, e.name = dotDotSlash ∧ e.ino = mkfsParent p.1) ∧
      ∀ e ∈ p.2, ∀ e' ∈ p.2, e.name.getLast? = some slash → e.name = e'.name → e = e' := by
    decide
  have hsub : ∀ p ∈ mkfsDirs, ∀ e ∈ p.2,
      (e.name.getLast? = some slash ∧ e.name ≠ dotSlash ∧ e.name ≠ dotDotSlash) →
        (e.name.dropLast ≠ [] ∧ slash ∉ e.name.dropLast) ∧
          ((mkfsDirs.lookup e.ino).isSome = true ∧ mkfsParent e.ino = p.1) := by
    decide
  intro p hp
  obtain ⟨hname, hino, hlength⟩ := htext p hp
  obtain ⟨hself, hup, hunique⟩ := hlinks p hp
  refine ⟨⟨hname, hino, hlength⟩, hself, hup, hunique, ?_⟩
  intro e he hslash hdot hdotDot
  obtain ⟨⟨hne, hnotMem⟩, hlink⟩ := hsub p hp e he ⟨hslash, hdot, hdotDot⟩
  exact ⟨hne, hnotMem, hlink⟩

def mkfsTree : DirTree where
  listing := (mkfsDirs.lookup ·)
  parent := mkfsParent
  isDir d es h := by
    obtain ⟨before, behind, hsplit, -⟩ := List.lookup_eq_some_iff.mp h
    exact isDir_mkfsDirs (d, es) (by simp [hsplit])
  root := by decide
  parent_root := by decide
  home := by decide

/-- The first blocks of the directories, all other bytes being zero. -/
def mkfsDisk (d : Int) : List UInt8 := ((mkfsDirs.lookup d.toNat).elim [] listText) ++ [0]

theorem onDisk_mkfsDisk : mkfsTree.OnDisk mkfsDisk := by
  intro d es h
  have hlookup : mkfsDirs.lookup d = some es := h
  refine ⟨[], ?_⟩
  simp [mkfsDisk, hlookup]

/-- From the home directory, `cd ..` leads to `/home`. -/
theorem cd_keeps_in_step_mkfs : ∃ s, cd mkfsDisk ⟨0, [slash]⟩ none = some (.done, s) ∧
    InStep mkfsTree s ∧ cd mkfsDisk s (some [46, 46]) = some (.done, ⟨1, slash :: homeName⟩) := by
  obtain ⟨s, hcall, hstep⟩ :=
    (cd_keeps_in_step mkfsTree mkfsDisk onDisk_mkfsDisk).1 ⟨0, [slash]⟩
  refine ⟨s, hcall, hstep, ?_⟩
  have hs : some (Reply.done, s) = some (.done, ⟨2, slash :: homeName ++ slash :: userName⟩) := by
    rw [← hcall]
    decide +kernel
  obtain rfl := (Prod.mk.inj (Option.some.inj hs)).2
  decide +kernel

end Egos.Apps
