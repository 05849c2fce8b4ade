import Mathlib.Data.List.TakeWhile
import Mathlib.Data.Nat.Digits.Lemmas
import Egos.Apps.Request
import Egos.Lib.Fields

/-!
# Directories

`dir_lookup` (`library/syscall/servers.c`) finds the number of a file in the text of a
directory, which `tools/mkfs.c` has written. It does not cut the text into entries: it scans it
for the name between spaces, and reads the number that follows.

- The names and the numbers of the entries are the fields of the text, so that the scan finds
  the first field that is equal to the name (`Egos.Lib.Fields`).
- For a name in the directory that is not made of digits this is the field of its entry:
  `dirLookup_decodes`.
- A name made of digits may also be found in a field for a number. What follows is then the
  next entry, and its name is read as a number: `dirLookup_unknown_iff`.

## Reading guide

A block is the list of its bytes. `strlen` is the place of the first zero in it. `uint` wraps
around, so the bound of the scan is a difference of `UInt32`.
-/

namespace Egos.Apps

open Egos.Lib

/-! ## The C library -/

/-- `isspace` -/
def isSpace (c : UInt8) : Bool := c = 32 || (9 ≤ c && c ≤ 13)

/-- `isdigit` -/
def isDigit (c : UInt8) : Bool := 48 ≤ c && c ≤ 57

/-- The number that some digits spell. -/
def digitsValue (ds : List UInt8) : Nat := ds.foldl (fun n c => 10 * n + (c.toNat - 48)) 0

/-- A number out of the range of `long` is replaced by the nearest one in it. -/
def toLong (n : Int) : Int := max (-2 ^ 31) (min n (2 ^ 31 - 1))

/-- `atoi`: white space, a sign, and digits. -/
def atoi (s : List UInt8) : Int :=
  match s.dropWhile isSpace with
  | [] => 0
  | c :: s =>
    if c = 45 then toLong (-(digitsValue (s.takeWhile isDigit)))
    else if c = 43 then toLong (digitsValue (s.takeWhile isDigit))
    else toLong (digitsValue ((c :: s).takeWhile isDigit))

/-- `strlen` -/
def strlen (buf : List UInt8) : Nat := (buf.takeWhile (· ≠ 0)).length

/-! ## The code -/

/-- The condition in the loop of `dir_lookup`; `name` has no zero in it, so `strncmp` compares
    all of it. -/
def matchesAt (buf name : List UInt8) (i : Nat) : Bool :=
  name.isPrefixOf (buf.drop i) && buf[i + name.length]? = some space &&
    (i = 0 || buf[i - 1]? = some space)

/-- `dir_lookup`, given the block that `file_read` returns and the name without its
    terminator. -/
def dirLookup (buf name : List UInt8) : Int :=
  let namelen := name.length
  let bound := UInt32.ofNat (strlen buf) - UInt32.ofNat namelen
  match (List.range bound.toNat).find? (matchesAt buf name) with
  | some i => atoi (buf.drop (i + namelen))
  | none => -1

/-- An entry of a directory. -/
structure DirEntry where
  name : List UInt8
  ino : Nat
  deriving DecidableEq, Repr

/-- The digits of a number. -/
def decimal (n : Nat) : List UInt8 :=
  if n = 0 then [48] else (Nat.digits 10 n).reverse.map fun d => UInt8.ofNat (48 + d)

/-- `sprintf(tmp, "%s%4d ", name, ino)` -/
def DirEntry.text (e : DirEntry) : List UInt8 :=
  e.name ++ List.replicate (4 - (decimal e.ino).length) space ++ decimal e.ino ++ [space]

/-- The text of a directory. -/
def dirText (es : List DirEntry) : List UInt8 := es.flatMap DirEntry.text

/-- The directories that `mkfs` writes. -/
structure IsDirectory (es : List DirEntry) : Prop where
  distinct : (es.map DirEntry.name).Nodup
  name : ∀ e ∈ es, e.name ≠ [] ∧ space ∉ e.name ∧ 0 ∉ e.name
  ino : ∀ e ∈ es, e.ino < 1000
  length : (dirText es).length < 512

/-! ## Numbers -/

theorem decimal_ne_nil (n : Nat) : decimal n ≠ [] := by
  unfold decimal
  split_ifs with hn
  · simp
  · simpa using Nat.digits_ne_nil_iff_ne_zero.mpr hn

theorem isDigit_of_mem_decimal {n : Nat} {c : UInt8} (hc : c ∈ decimal n) : isDigit c = true := by
  unfold decimal at hc
  split_ifs at hc
  · rw [List.mem_singleton.mp hc]
    decide
  · obtain ⟨d, hd, rfl⟩ := List.mem_map.mp hc
    have hlt := Nat.digits_lt_base (by decide) (List.mem_reverse.mp hd)
    interval_cases d <;> decide

theorem length_decimal {n : Nat} (hn : n < 1000) : (decimal n).length ≤ 3 := by
  unfold decimal
  split_ifs with hzero
  · simp
  · have hlen : (Nat.digits 10 n).length ≤ 3 :=
      (Nat.digits_length_le_iff (by decide) n).mpr hn
    simpa using hlen

theorem digitsValue_eq_ofDigits (ds : List UInt8) :
    digitsValue ds = Nat.ofDigits 10 (ds.reverse.map fun c => c.toNat - 48) := by
  unfold digitsValue
  rw [Nat.ofDigits_eq_foldr, List.foldr_map, List.foldr_reverse]
  congr 1
  funext n c
  simp only [Nat.cast_id]
  omega

theorem digitsValue_decimal (n : Nat) : digitsValue (decimal n) = n := by
  rw [digitsValue_eq_ofDigits]
  unfold decimal
  split_ifs with hzero
  · simp [hzero]
  · have hdigits : ((Nat.digits 10 n).map fun d => UInt8.ofNat (48 + d)).map (fun c => c.toNat - 48) =
        Nat.digits 10 n := by
      rw [List.map_map, List.map_congr_left (g := id) ?_, List.map_id]
      intro d hd
      have hlt := Nat.digits_lt_base (by decide) hd
      interval_cases d <;> rfl
    rw [← List.map_reverse, List.reverse_reverse, hdigits, Nat.ofDigits_digits]

theorem isDigit_space : isDigit space = false := by decide

theorem isSpace_of_isDigit {c : UInt8} (h : isDigit c = true) : isSpace c = false := by
  simp only [isDigit, Bool.and_eq_true, decide_eq_true_eq, UInt8.le_iff_toNat_le] at h
  simp only [isSpace, Bool.or_eq_false_iff, Bool.and_eq_false_iff, decide_eq_false_iff_not,
    UInt8.le_iff_toNat_le, ← UInt8.toNat_inj]
  obtain ⟨h1, h2⟩ := h
  constructor
  · exact fun h3 => absurd (h3 ▸ h1) (by decide)
  · right
    intro h3
    exact absurd (h1.trans h3) (by decide)

theorem isSpace_space : isSpace space = true := by decide

/-! ## Reading a number -/

/-- `atoi` skips spaces. -/
theorem atoi_spaces (k : Nat) (s : List UInt8) : atoi (List.replicate k space ++ s) = atoi s := by
  unfold atoi
  rw [List.dropWhile_append_of_pos]
  intro c hc
  rw [List.eq_of_mem_replicate hc]
  exact isSpace_space

/-- `atoi` reads the digits up to a space. -/
theorem atoi_decimal {n : Nat} (hn : n < 2 ^ 31) (s : List UInt8) :
    atoi (decimal n ++ space :: s) = n := by
  have hdigits : (decimal n ++ space :: s).takeWhile isDigit = decimal n := by
    rw [List.takeWhile_append_of_pos fun c hc => isDigit_of_mem_decimal hc]
    simp [isDigit_space]
  obtain ⟨c, ds, hcons⟩ := List.exists_cons_of_ne_nil (decimal_ne_nil n)
  have hc : isDigit c = true := isDigit_of_mem_decimal (n := n) (by simp [hcons])
  have hminus : c ≠ 45 := by
    rintro rfl
    exact absurd hc (by decide)
  have hplus : c ≠ 43 := by
    rintro rfl
    exact absurd hc (by decide)
  have hskip : (decimal n ++ space :: s).dropWhile isSpace = decimal n ++ space :: s := by
    rw [hcons, List.cons_append, List.dropWhile_cons_of_neg (by simp [isSpace_of_isDigit hc])]
  have hread : atoi (decimal n ++ space :: s) = toLong (digitsValue (decimal n)) := by
    unfold atoi
    rw [hskip, hcons, List.cons_append]
    simp only [hminus, hplus, if_false]
    rw [← List.cons_append, ← hcons, hdigits]
  rw [hread, digitsValue_decimal, toLong]
  omega

/-- A number stops at the end of a word, unless the word is only white space. -/
theorem atoi_word {w : List UInt8} (hw : ∃ c ∈ w, isSpace c = false) (s : List UInt8) :
    atoi (w ++ space :: s) = atoi w := by
  have hdigits : ∀ u : List UInt8, (u ++ space :: s).takeWhile isDigit = u.takeWhile isDigit := by
    intro u
    rw [List.takeWhile_append]
    split_ifs with hall
    · simpa [isDigit_space] using ((List.takeWhile_prefix _).eq_of_length hall).symm
    · rfl
  unfold atoi
  rw [List.dropWhile_append]
  cases hdrop : w.dropWhile isSpace with
  | nil =>
    obtain ⟨c, hc, hspace⟩ := hw
    have hall := List.dropWhile_eq_nil_iff.mp hdrop c hc
    rw [hspace] at hall
    cases hall
  | cons c u =>
    rw [if_neg (by simp)]
    simp only [List.cons_append]
    rw [hdigits, ← List.cons_append, hdigits]

/-! ## The scan -/

section Scan

variable {text name rest : List UInt8} {i : Nat}

theorem strlen_text (hnul : 0 ∉ text) : strlen (text ++ 0 :: rest) = text.length := by
  have htext : ∀ c ∈ text, decide (c ≠ 0) = true := fun c hc => by
    simpa using fun hzero : c = 0 => hnul (hzero ▸ hc)
  rw [strlen, List.takeWhile_append_of_pos htext]
  simp

theorem lt_of_occursAt (h : OccursAt space text name i) : i + name.length < text.length :=
  (List.getElem?_eq_some_iff.mp h.behind).1

/-- Before the end of the text, the condition of the loop says that the name stands between
    spaces. -/
theorem matchesAt_iff (hlt : i + name.length < text.length) :
    matchesAt (text ++ 0 :: rest) name i = true ↔ OccursAt space text name i := by
  have hget : ∀ n < text.length, (text ++ 0 :: rest)[n]? = text[n]? :=
    fun n hn => List.getElem?_append_left hn
  have hname : name.isPrefixOf ((text ++ 0 :: rest).drop i) = true ↔
      ∀ n (hn : n < name.length), text[i + n]? = some name[n] := by
    rw [List.isPrefixOf_iff_prefix, List.prefix_iff_getElem?]
    refine forall_congr' fun n => forall_congr' fun hn => ?_
    rw [List.getElem?_drop, hget _ (by omega)]
  simp only [matchesAt, Bool.and_eq_true, hname, Bool.or_eq_true, decide_eq_true_eq]
  rw [hget _ hlt, hget (i - 1) (by omega)]
  exact ⟨fun h => ⟨h.1.1, h.1.2, h.2⟩, fun h => ⟨⟨h.here, h.behind⟩, h.before⟩⟩

theorem bound_eq (hnul : 0 ∉ text) (hlen : text.length < 512) (hname : name.length ≤ text.length) :
    (UInt32.ofNat (strlen (text ++ 0 :: rest)) - UInt32.ofNat name.length).toNat =
      text.length - name.length := by
  rw [strlen_text hnul, UInt32.toNat_sub_of_le, UInt32.toNat_ofNat', UInt32.toNat_ofNat',
    Nat.mod_eq_of_lt (by omega), Nat.mod_eq_of_lt (by omega)]
  rw [UInt32.le_iff_toNat_le, UInt32.toNat_ofNat', UInt32.toNat_ofNat', Nat.mod_eq_of_lt (by omega),
    Nat.mod_eq_of_lt (by omega)]
  exact hname

/-- The number is read behind the first place of the name. -/
theorem dirLookup_first (hnul : 0 ∉ text) (hlen : text.length < 512)
    (hi : OccursAt space text name i) (hfirst : ∀ j, OccursAt space text name j → i ≤ j) :
    dirLookup (text ++ 0 :: rest) name = atoi (text.drop (i + name.length) ++ 0 :: rest) := by
  have hlt := lt_of_occursAt hi
  have hfind : (List.range (text.length - name.length)).find? (matchesAt (text ++ 0 :: rest) name) =
      some i := by
    rw [List.find?_range_eq_some]
    refine ⟨(matchesAt_iff hlt).mpr hi, List.mem_range.mpr (by omega), fun j hj => ?_⟩
    rw [Bool.not_eq_true', Bool.eq_false_iff, ne_eq, matchesAt_iff (by omega)]
    exact fun hocc => absurd (hfirst j hocc) (by omega)
  rw [dirLookup, bound_eq hnul hlen (by omega), hfind]
  simp only
  rw [List.drop_append_of_le_length (by omega)]

/-- A name that stands nowhere is not found. -/
theorem dirLookup_none (hnul : 0 ∉ text) (hlen : text.length < 512)
    (hname : name.length ≤ text.length) (hnone : ∀ j, ¬ OccursAt space text name j) :
    dirLookup (text ++ 0 :: rest) name = -1 := by
  have hfind : (List.range (text.length - name.length)).find? (matchesAt (text ++ 0 :: rest) name) =
      none := by
    rw [List.find?_eq_none]
    intro j hj
    have hlt := List.mem_range.mp hj
    rw [matchesAt_iff (by omega)]
    exact hnone j
  rw [dirLookup, bound_eq hnul hlen hname, hfind]

end Scan

/-- In a text of fields, what is read is what follows the first field that is equal to the
    name. -/
theorem dirLookup_render {before behind : List (TextField UInt8)} {name : List UInt8} {k : Nat}
    (hfields : ∀ f ∈ before ++ (name, k) :: behind, IsField space f.1)
    (hnul : 0 ∉ render space (before ++ (name, k) :: behind))
    (hlen : (render space (before ++ (name, k) :: behind)).length < 512)
    (hfirst : ∀ f ∈ before, f.1 ≠ name) (rest : List UInt8) :
    dirLookup (render space (before ++ (name, k) :: behind) ++ 0 :: rest) name =
      atoi (render space behind ++ 0 :: rest) := by
  have hname : IsField space name := hfields (name, k) (by simp)
  have hocc : OccursAt space (render space (before ++ (name, k) :: behind)) name
      (render space before).length :=
    (occursAt_render_iff hfields hname).mpr ⟨before, k, behind, rfl, rfl⟩
  have hleast : ∀ j, OccursAt space (render space (before ++ (name, k) :: behind)) name j →
      (render space before).length ≤ j := fun j hj => le_of_occursAt hfields hfirst hj
  have hdrop : (render space (before ++ (name, k) :: behind)).drop
      ((render space before).length + name.length) =
        List.replicate (k + 1) space ++ render space behind := by
    rw [render_append, render_cons, List.drop_append, List.append_assoc]
    simp
  rw [dirLookup_first hnul hlen hocc hleast, hdrop, List.append_assoc, atoi_spaces]

/-! ## Directories -/

/-- The name and the number of each entry. -/
def dirFields (es : List DirEntry) : List (TextField UInt8) :=
  es.flatMap fun e => [(e.name, 3 - (decimal e.ino).length), (decimal e.ino, 0)]

variable {es : List DirEntry}

theorem dirText_eq (h : ∀ e ∈ es, e.ino < 1000) : dirText es = render space (dirFields es) := by
  induction es with
  | nil => rfl
  | cons e es ih =>
    have hlen := length_decimal (h e List.mem_cons_self)
    have hwidth : 3 - (decimal e.ino).length + 1 = 4 - (decimal e.ino).length := by omega
    have hcons : dirText (e :: es) = e.text ++ dirText es := rfl
    have hfields : dirFields (e :: es) =
        (e.name, 3 - (decimal e.ino).length) :: (decimal e.ino, 0) :: dirFields es := rfl
    rw [hcons, ih fun e' he' => h e' (List.mem_cons_of_mem _ he'), hfields, render_cons, render_cons,
      hwidth]
    simp [DirEntry.text]

theorem dirFields_append (es es' : List DirEntry) :
    dirFields (es ++ es') = dirFields es ++ dirFields es' := by
  simp [dirFields]

theorem isField_decimal (n : Nat) : IsField space (decimal n) where
  ne_nil := decimal_ne_nil n
  notMem hspace := by
    have hdigit := isDigit_of_mem_decimal hspace
    rw [isDigit_space] at hdigit
    cases hdigit

/-! The fields of entries with any spaces between their name and their number. -/

section EntryFields

variable {ε : Type} {name : ε → List UInt8} {pad ino : ε → Nat} {entries : List ε}

theorem mem_entryFields {f : TextField UInt8}
    (hf : f ∈ entries.flatMap fun e => [(name e, pad e), (decimal (ino e), 0)]) :
    ∃ e ∈ entries, f.1 = name e ∨ f.1 = decimal (ino e) := by
  obtain ⟨e, he, hf⟩ := List.mem_flatMap.mp hf
  simp only [List.mem_cons, List.not_mem_nil, or_false] at hf
  rcases hf with rfl | rfl
  · exact ⟨e, he, Or.inl rfl⟩
  · exact ⟨e, he, Or.inr rfl⟩

theorem isField_entryFields (h : ∀ e ∈ entries, name e ≠ [] ∧ space ∉ name e ∧ 0 ∉ name e) :
    ∀ f ∈ entries.flatMap fun e => [(name e, pad e), (decimal (ino e), 0)],
      IsField space f.1 ∧ 0 ∉ f.1 := by
  intro f hf
  obtain ⟨e, he, hname | hnumber⟩ := mem_entryFields hf
  · obtain ⟨hne, hspace, hzero⟩ := h e he
    rw [hname]
    exact ⟨⟨hne, hspace⟩, hzero⟩
  · rw [hnumber]
    exact ⟨isField_decimal _, fun hzero => absurd (isDigit_of_mem_decimal hzero) (by decide)⟩

end EntryFields

theorem mem_dirFields {f : TextField UInt8} (hf : f ∈ dirFields es) :
    ∃ e ∈ es, f.1 = e.name ∨ f.1 = decimal e.ino :=
  mem_entryFields hf

theorem IsDirectory.isField (h : IsDirectory es) : ∀ f ∈ dirFields es, IsField space f.1 :=
  fun f hf => (isField_entryFields h.name f hf).1

theorem IsDirectory.notMem_zero (h : IsDirectory es) : 0 ∉ dirText es := by
  rw [dirText_eq h.ino]
  exact notMem_render (by decide) fun f hf => (isField_entryFields h.name f hf).2

/-- What is read is what follows the first field that is equal to the name. -/
theorem IsDirectory.dirLookup_eq (h : IsDirectory es) (rest : List UInt8)
    {before behind : List (TextField UInt8)} {name : List UInt8} {k : Nat}
    (hfields : dirFields es = before ++ (name, k) :: behind) (hfirst : ∀ f ∈ before, f.1 ≠ name) :
    dirLookup (dirText es ++ 0 :: rest) name = atoi (render space behind ++ 0 :: rest) := by
  have htext := dirText_eq h.ino
  have hisField := h.isField
  have hnul := h.notMem_zero
  have hlen := h.length
  rw [hfields] at htext hisField
  rw [htext] at hnul hlen ⊢
  exact dirLookup_render hisField hnul hlen hfirst rest

/-- `dir_lookup` finds the number of every entry whose name is not made of digits only. -/
theorem dirLookup_decodes (h : IsDirectory es) (rest : List UInt8) {e : DirEntry} (he : e ∈ es)
    (hname : ¬ ∀ c ∈ e.name, isDigit c = true) :
    dirLookup (dirText es ++ 0 :: rest) e.name = e.ino := by
  obtain ⟨before, behind, rfl⟩ := List.append_of_mem he
  have hfields : dirFields (before ++ e :: behind) = dirFields before ++
      (e.name, 3 - (decimal e.ino).length) :: (decimal e.ino, 0) :: dirFields behind := by
    rw [dirFields_append]
    rfl
  have hfirst : ∀ f ∈ dirFields before, f.1 ≠ e.name := by
    intro f hf heq
    obtain ⟨e', he', hname' | hnumber⟩ := mem_dirFields hf
    · -- two entries have the same name
      have hdistinct := h.distinct
      rw [List.map_append, List.map_cons, List.nodup_append] at hdistinct
      exact hdistinct.2.2 _ (List.mem_map_of_mem he') _ List.mem_cons_self (hname' ▸ heq)
    · -- the name is a number
      refine hname fun c hc => isDigit_of_mem_decimal (n := e'.ino) ?_
      rwa [← hnumber, heq]
  rw [h.dirLookup_eq rest hfields hfirst, render_cons]
  simp only [List.append_assoc, List.replicate_succ, List.replicate_zero, List.cons_append,
    List.nil_append]
  exact atoi_decimal ((h.ino e he).trans (by decide)) _

/-! ## Names that are not in the directory -/

theorem atoi_of_white {w : List UInt8} (hw : ∀ c ∈ w, isSpace c = true) (s : List UInt8) :
    atoi (w ++ s) = atoi s := by
  unfold atoi
  rw [List.dropWhile_append_of_pos hw]

theorem atoi_zero (rest : List UInt8) : atoi (0 :: rest) = 0 := by
  have hspace : isSpace 0 = false := by decide
  have hdigit : isDigit 0 = false := by decide
  have hsign : (0 : UInt8) ≠ 45 ∧ (0 : UInt8) ≠ 43 := by decide
  unfold atoi
  rw [List.dropWhile_cons_of_neg (by simp [hspace])]
  simp only [hsign.1, hsign.2, if_false, List.takeWhile_cons, hdigit]
  rfl

/-- The text behind a number is read as -1 exactly if there is another entry, and its name is
    read so. -/
theorem atoi_behind {behind : List DirEntry} (hino : ∀ e ∈ behind, e.ino < 1000) (rest : List UInt8) :
    atoi (render space (dirFields behind) ++ 0 :: rest) = -1 ↔
      ∃ next behind', behind = next :: behind' ∧ atoi next.name = -1 := by
  cases behind with
  | nil =>
    -- behind the last entry the text ends
    have hzero : atoi (render space (dirFields []) ++ 0 :: rest) = 0 := atoi_zero rest
    rw [hzero]
    simp
  | cons next behind' =>
    have hsplit : ∃ s, render space (dirFields (next :: behind')) ++ 0 :: rest =
        next.name ++ space :: (List.replicate (3 - (decimal next.ino).length) space ++
          (decimal next.ino ++ space :: s)) := by
      refine ⟨render space (dirFields behind') ++ 0 :: rest, ?_⟩
      show render space ((next.name, _) :: (decimal next.ino, 0) :: dirFields behind') ++ _ = _
      rw [render_cons, render_cons, List.replicate_succ]
      simp
    obtain ⟨s, hs⟩ := hsplit
    have hsame : atoi (render space (dirFields (next :: behind')) ++ 0 :: rest) = -1 ↔
        atoi next.name = -1 := by
      rw [hs]
      by_cases hw : ∀ c ∈ next.name, isSpace c = true
      · -- a name of white space: the number of the entry is read
        have hname : atoi next.name = 0 := by
          have hskip := atoi_of_white hw []
          rw [List.append_nil] at hskip
          exact hskip
        have hread := atoi_spaces (3 - (decimal next.ino).length + 1) (decimal next.ino ++ space :: s)
        rw [List.replicate_succ, List.cons_append,
          atoi_decimal ((hino next List.mem_cons_self).trans (by decide))] at hread
        rw [atoi_of_white hw, hread, hname]
        omega
      · -- the name is read up to the space that ends it
        push Not at hw
        rw [atoi_word (hw.imp fun c hc => ⟨hc.1, by simpa using hc.2⟩)]
    rw [hsame]
    constructor
    · exact fun hname => ⟨next, behind', rfl, hname⟩
    · rintro ⟨_, _, heq, hname⟩
      obtain ⟨rfl, _⟩ := List.cons.inj heq
      exact hname

/-- For a name that is not in the directory, `dir_lookup` returns -1 exactly if no entry has a
    number that is written like it, or if the name after the first such number reads as -1. -/
theorem dirLookup_unknown_iff (h : IsDirectory es) (rest : List UInt8) {q : List UInt8}
    (hne : q ≠ []) (hspace : space ∉ q) (hshort : q.length < (dirText es).length)
    (hunknown : ∀ e ∈ es, e.name ≠ q) :
    dirLookup (dirText es ++ 0 :: rest) q = -1 ↔
      ∀ e behind, es.dropWhile (fun e => decimal e.ino ≠ q) = e :: behind →
        ∃ next behind', behind = next :: behind' ∧ atoi next.name = -1 := by
  have hsplit := List.takeWhile_append_dropWhile
    (p := fun e : DirEntry => decide (decimal e.ino ≠ q)) (l := es)
  cases hdrop : es.dropWhile (fun e => decimal e.ino ≠ q) with
  | nil =>
    -- no field is equal to the name
    have hnumber := List.dropWhile_eq_nil_iff.mp hdrop
    have hnone : ∀ j, ¬ OccursAt space (dirText es) q j := by
      intro j hj
      rw [dirText_eq h.ino, occursAt_render_iff h.isField ⟨hne, hspace⟩] at hj
      obtain ⟨before, k, behind, heq, _⟩ := hj
      have hmem : (q, k) ∈ dirFields es := by
        rw [heq]
        simp
      obtain ⟨e, he, hname | hdec⟩ := mem_dirFields hmem
      · exact hunknown e he hname.symm
      · simpa [← hdec] using hnumber e he
    rw [dirLookup_none h.notMem_zero h.length hshort.le hnone]
    simp
  | cons e behind =>
    have hdec : decimal e.ino = q := by
      have hhead := List.head?_dropWhile_not (fun e : DirEntry => decide (decimal e.ino ≠ q)) es
      rw [hdrop] at hhead
      simpa using hhead
    have htake : ∀ e' ∈ es.takeWhile (fun e => decimal e.ino ≠ q), decimal e'.ino ≠ q := by
      intro e' he'
      simpa using List.mem_takeWhile_imp he'
    rw [hdrop] at hsplit
    generalize es.takeWhile (fun e => decimal e.ino ≠ q) = before at hsplit htake
    have hfields : dirFields es = (dirFields before ++ [(e.name, 3 - (decimal e.ino).length)]) ++
        (q, 0) :: dirFields behind := by
      rw [← hsplit, dirFields_append, ← hdec, List.append_assoc]
      rfl
    have hfirst : ∀ f ∈ dirFields before ++ [(e.name, 3 - (decimal e.ino).length)], f.1 ≠ q := by
      intro f hf
      rcases List.mem_append.mp hf with hf | hf
      · obtain ⟨e', he', hname | hnumber⟩ := mem_dirFields hf
        · rw [hname]
          exact hunknown e' (hsplit ▸ List.mem_append_left _ he')
        · rw [hnumber]
          exact htake e' he'
      · rw [List.mem_singleton.mp hf]
        exact hunknown e (hsplit ▸ by simp)
    have hino : ∀ e' ∈ behind, e'.ino < 1000 := fun e' he' =>
      h.ino e' (hsplit ▸ List.mem_append_right _ (List.mem_cons_of_mem _ he'))
    rw [h.dirLookup_eq rest hfields hfirst, atoi_behind hino]
    constructor
    · rintro ⟨next, behind', rfl, hname⟩ _ _ heq
      obtain ⟨rfl, rfl⟩ := List.cons.inj heq
      exact ⟨next, behind', rfl, hname⟩
    · exact fun hall => hall e behind rfl

/-! ## The root directory of a new disk -/

/-- `contents[0]`, the entries `./`, `../`, `home/` and `bin/`. -/
def rootDirectory : List DirEntry :=
  [⟨[46, 47], 0⟩, ⟨[46, 46, 47], 0⟩, ⟨[104, 111, 109, 101, 47], 1⟩, ⟨[98, 105, 110, 47], 6⟩]

theorem isDirectory_rootDirectory : IsDirectory rootDirectory where
  distinct := by decide
  name := by decide
  ino := by decide
  length := by decide +kernel

/-- The name `bin/` is found. -/
theorem dirLookup_decodes_bin :
    dirLookup (dirText rootDirectory ++ [0]) [98, 105, 110, 47] = 6 :=
  dirLookup_decodes isDirectory_rootDirectory [] (e := ⟨[98, 105, 110, 47], 6⟩) (by decide)
    (by decide)

/-- The name `7` is not found. -/
theorem dirLookup_unknown_seven : dirLookup (dirText rootDirectory ++ [0]) [55] = -1 := by
  refine (dirLookup_unknown_iff isDirectory_rootDirectory [] (by decide) (by decide)
    (by decide +kernel) (by decide)).mpr fun e behind hdrop => ?_
  have hnil : rootDirectory.dropWhile (fun e => decimal e.ino ≠ [55]) = [] := by decide +kernel
  rw [hnil] at hdrop
  cases hdrop

/-- The name `1` is not in the directory, and it is found: in the number of `home/`. -/
theorem dirLookup_invents_one :
    IsDirectory rootDirectory ∧ space ∉ [(49 : UInt8)] ∧
      [(49 : UInt8)].length < (dirText rootDirectory).length ∧
      (∀ e ∈ rootDirectory, e.name ≠ [49]) ∧ dirLookup (dirText rootDirectory ++ [0]) [49] = 0 :=
  ⟨isDirectory_rootDirectory, by decide, by decide +kernel, by decide, by decide +kernel⟩

end Egos.Apps
