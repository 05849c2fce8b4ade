import Egos.Apps.DirLookup

/-!
# Directories: Bounds of the Scan

The bytes that `dir_lookup` (`library/syscall/servers.c`) looks at. The bound of its loop is the
difference of two lengths, as a `uint`. If the name is longer than the text, it is almost 2^32 and
the loop runs out of the block: `dirLookup_inside_iff`.

## Reading guide

The memory from `buf` on is the list `block ++ stack`: the block, and what follows it on the
stack.
-/

namespace Egos.Apps

/-! ## What is looked at -/

/-- The first place where the name is found, if there is one. -/
def found (buf name : List UInt8) : Option Nat :=
  (List.range (UInt32.ofNat (strlen buf) - UInt32.ofNat name.length).toNat).find?
    (matchesAt buf name)

/-- The values of `i` for which the body of the loop runs. -/
def scanned (buf name : List UInt8) : List Nat :=
  match found buf name with
  | some i => List.range (i + 1)
  | none => List.range (UInt32.ofNat (strlen buf) - UInt32.ofNat name.length).toNat

/-- How many bytes of `s` the call `strncmp(name, s, namelen)` looks at: those up to the first
    that is different. -/
def strncmpReads : List UInt8 → List UInt8 → Nat
  | [], _ => 0
  | _ :: _, [] => 1
  | c :: name, d :: s => if c = d then strncmpReads name s + 1 else 1

/-- The bytes of `buf` that the condition in the loop looks at. -/
def conditionReads (buf name : List UInt8) (i : Nat) : List Nat :=
  (List.range (strncmpReads name (buf.drop i))).map (i + ·) ++
    if name.isPrefixOf (buf.drop i) then
      (i + name.length) ::
        if buf[i + name.length]? = some space ∧ i ≠ 0 then [i - 1] else []
    else []

/-- How many bytes `atoi` looks at: white space, a sign, the digits and the byte behind them. -/
def atoiReads (s : List UInt8) : Nat :=
  let spaces := (s.takeWhile isSpace).length
  match s.dropWhile isSpace with
  | [] => spaces + 1
  | c :: s =>
    if c = 45 ∨ c = 43 then spaces + 1 + (s.takeWhile isDigit).length + 1
    else spaces + ((c :: s).takeWhile isDigit).length + 1

/-- The bytes of `buf` that `dir_lookup` looks at: in `strlen`, in the loop, and in `atoi`. -/
def dirLookupReads (buf name : List UInt8) : List Nat :=
  List.range (strlen buf + 1) ++ (scanned buf name).flatMap (conditionReads buf name) ++
    match found buf name with
    | some i => (List.range (atoiReads (buf.drop (i + name.length)))).map (i + name.length + ·)
    | none => []

/-- The places are those of `dir_lookup`. -/
theorem dirLookup_eq (buf name : List UInt8) :
    dirLookup buf name =
      match found buf name with
      | some i => atoi (buf.drop (i + name.length))
      | none => -1 := rfl

/-! ## Names that are not longer than the text -/

variable {buf name text rest : List UInt8} {i n : Nat}

theorem strncmpReads_le (name s : List UInt8) : strncmpReads name s ≤ name.length := by
  induction name generalizing s with
  | nil => exact Nat.le_refl 0
  | cons c name ih =>
    cases s with
    | nil => simp [strncmpReads]
    | cons d s =>
      rw [strncmpReads]
      split_ifs
      · exact Nat.succ_le_succ (ih s)
      · exact Nat.succ_le_succ (Nat.zero_le _)

/-- The condition looks at the name's place and at the bytes around it. -/
theorem conditionReads_le (hn : n ∈ conditionReads buf name i) : n ≤ i + name.length := by
  have hle := strncmpReads_le name (buf.drop i)
  rcases List.mem_append.mp hn with hn | hn
  · obtain ⟨j, hj, rfl⟩ := List.mem_map.mp hn
    have hlt := List.mem_range.mp hj
    omega
  · split_ifs at hn
    · rcases List.mem_cons.mp hn with rfl | hn
      · exact Nat.le_refl _
      · rw [List.mem_singleton.mp hn]
        omega
    · simp at hn
      omega
    · exact absurd hn List.not_mem_nil

theorem length_takeWhile_le {p : UInt8 → Bool} {s : List UInt8} {j : Nat} {c : UInt8}
    (hj : s[j]? = some c) (hc : p c = false) : (s.takeWhile p).length ≤ j := by
  by_contra hlt
  have hget := (List.takeWhile_prefix p).getElem (Nat.lt_of_not_le hlt)
  obtain ⟨_, hs⟩ := List.getElem?_eq_some_iff.mp hj
  have hp := List.mem_takeWhile_imp (List.getElem_mem (Nat.lt_of_not_le hlt))
  rw [hget, hs, hc] at hp
  cases hp

/-- `atoi` stops at a zero. -/
theorem atoiReads_le {s : List UInt8} {j : Nat} (hj : s[j]? = some 0) : atoiReads s ≤ j + 1 := by
  have hspaces : (s.takeWhile isSpace).length ≤ j := length_takeWhile_le hj (by decide)
  have hrest : (s.dropWhile isSpace)[j - (s.takeWhile isSpace).length]? = some 0 := by
    rw [← List.takeWhile_append_dropWhile (p := isSpace) (l := s),
      List.getElem?_append_right hspaces] at hj
    exact hj
  unfold atoiReads
  cases hdrop : s.dropWhile isSpace with
  | nil =>
    simp only
    omega
  | cons c s' =>
    rw [hdrop] at hrest
    simp only
    split_ifs with hsign
    · -- the sign is not the zero
      cases hm : j - (s.takeWhile isSpace).length with
      | zero =>
        rw [hm, List.getElem?_cons_zero, Option.some.injEq] at hrest
        subst hrest
        exact absurd hsign (by decide)
      | succ m =>
        rw [hm, List.getElem?_cons_succ] at hrest
        have hdigits : (s'.takeWhile isDigit).length ≤ m := length_takeWhile_le hrest (by decide)
        omega
    · have hdigits := length_takeWhile_le (p := isDigit) hrest (by decide)
      omega

theorem found_lt (hfound : found buf name = some i) :
    i < (UInt32.ofNat (strlen buf) - UInt32.ofNat name.length).toNat :=
  List.mem_range.mp (List.mem_of_find?_eq_some hfound)

theorem mem_scanned_lt (hi : i ∈ scanned buf name) :
    i < (UInt32.ofNat (strlen buf) - UInt32.ofNat name.length).toNat := by
  unfold scanned at hi
  cases hfound : found buf name with
  | none =>
    rw [hfound] at hi
    exact List.mem_range.mp hi
  | some j =>
    rw [hfound] at hi
    have hle := Nat.le_of_lt_succ (List.mem_range.mp hi)
    exact Nat.lt_of_le_of_lt hle (found_lt hfound)

theorem length_scanned_le (buf name : List UInt8) :
    (scanned buf name).length ≤ (UInt32.ofNat (strlen buf) - UInt32.ofNat name.length).toNat := by
  unfold scanned
  cases hfound : found buf name with
  | none => exact (List.length_range ..).le
  | some i =>
    rw [List.length_range]
    exact found_lt hfound

/-- A name that is not longer than the text is looked for in the text only. -/
theorem reads_le_of_length_le (hnul : 0 ∉ text) (hlen : text.length < 512)
    (hname : name.length ≤ text.length)
    (hn : n ∈ dirLookupReads (text ++ 0 :: rest) name) : n ≤ text.length := by
  have hbound : (UInt32.ofNat (strlen (text ++ 0 :: rest)) - UInt32.ofNat name.length).toNat =
      text.length - name.length := bound_eq hnul hlen hname
  rcases List.mem_append.mp hn with hn | hn
  · rcases List.mem_append.mp hn with hn | hn
    · -- `strlen` stops at the zero
      rw [strlen_text hnul] at hn
      exact Nat.le_of_lt_succ (List.mem_range.mp hn)
    · -- the bound leaves room for the name and the space behind it
      obtain ⟨i, hi, hn⟩ := List.mem_flatMap.mp hn
      have hlt := mem_scanned_lt hi
      have hle := conditionReads_le hn
      omega
  · cases hfound : found (text ++ 0 :: rest) name with
    | none =>
      rw [hfound] at hn
      exact absurd hn List.not_mem_nil
    | some i =>
      rw [hfound] at hn
      obtain ⟨j, hj, rfl⟩ := List.mem_map.mp hn
      have hlt := found_lt hfound
      -- `atoi` starts in the text, so it stops at the zero
      have hzero : ((text ++ 0 :: rest).drop (i + name.length))[text.length - (i + name.length)]? =
          some 0 := by
        rw [List.getElem?_drop, Nat.add_sub_cancel' (by omega)]
        simp
      have hreads := atoiReads_le hzero
      have hj := List.mem_range.mp hj
      omega

/-! ## Names that are longer than the text -/

/-- A name has no zero, so it does not lie over the end of the text. -/
theorem not_matchesAt (hname : 0 ∉ name) (hlong : text.length < name.length)
    (hi : i ≤ text.length) : matchesAt (text ++ 0 :: rest) name i = false := by
  rw [Bool.eq_false_iff]
  intro hmatch
  simp only [matchesAt, Bool.and_eq_true] at hmatch
  have hprefix := List.isPrefixOf_iff_prefix.mp hmatch.1.1
  -- the zero behind the text would be a character of the name
  have hlt : text.length - i < name.length := by omega
  have hget := List.prefix_iff_getElem?.mp hprefix (text.length - i) hlt
  rw [List.getElem?_drop, Nat.add_sub_cancel' hi] at hget
  simp only [List.getElem?_append_right (Nat.le_refl _), Nat.sub_self, List.getElem?_cons_zero,
    Option.some.injEq] at hget
  exact hname (hget ▸ List.getElem_mem hlt)

/-- The bound of the loop wraps around. -/
theorem bound_of_long (hnul : 0 ∉ text) (hlen : text.length < 512) (hname : name.length ≤ 32)
    (hlong : text.length < name.length) :
    (UInt32.ofNat (strlen (text ++ 0 :: rest)) - UInt32.ofNat name.length).toNat =
      2 ^ 32 - (name.length - text.length) := by
  rw [strlen_text hnul, UInt32.toNat_sub, UInt32.toNat_ofNat', UInt32.toNat_ofNat']
  omega

theorem lt_length_scanned (hnul : 0 ∉ text) (hlen : text.length < 512) (hzero : 0 ∉ name)
    (hname : name.length ≤ 32) (hlong : text.length < name.length) :
    text.length < (scanned (text ++ 0 :: rest) name).length := by
  unfold scanned
  cases hfound : found (text ++ 0 :: rest) name with
  | none =>
    simp only [List.length_range]
    rw [bound_of_long hnul hlen hname hlong]
    omega
  | some i =>
    simp only [List.length_range]
    -- no place in the text was the one
    by_contra hle
    have hmatch := List.find?_some hfound
    rw [not_matchesAt hzero hlong (by omega)] at hmatch
    cases hmatch

/-- `dir_lookup` and the block. For every block with a zero in it, whatever follows it in memory,
    and every name of at most 32 characters: the loop visits no more places than the text has
    characters and no byte behind the block is looked at, exactly if the name is not longer than
    the text. -/
theorem dirLookup_inside_iff {block : List UInt8} (stack : List UInt8) (hblock : block.length = 512)
    (hzero : 0 ∈ block) (hname : 0 ∉ name) (hlen : name.length ≤ 32) :
    ((scanned (block ++ stack) name).length ≤ strlen block ∧
        ∀ n ∈ dirLookupReads (block ++ stack) name, n < 512) ↔
      name.length ≤ strlen block := by
  obtain ⟨text, rest, rfl, hnul⟩ := List.eq_append_cons_of_mem hzero
  have hshort : text.length < 512 := by
    rw [List.length_append, List.length_cons] at hblock
    omega
  rw [strlen_text hnul, List.append_assoc, List.cons_append]
  constructor
  · rintro ⟨hcount, _⟩
    by_contra hlong
    have hlt : text.length < (scanned (text ++ 0 :: (rest ++ stack)) name).length :=
      lt_length_scanned hnul hshort hname hlen (Nat.lt_of_not_le hlong)
    omega
  · intro hle
    refine ⟨?_, fun n hn => Nat.lt_of_le_of_lt (reads_le_of_length_le hnul hshort hle hn) hshort⟩
    refine (length_scanned_le _ _).trans ?_
    rw [bound_eq hnul hshort hle]
    exact Nat.sub_le _ _

/-- If the first character of the name occurs nowhere, every place up to the bound is visited. -/
theorem mem_reads_of_notMem {c : UInt8} (hc : c ∉ buf)
    (hn : n < (UInt32.ofNat (strlen buf) - UInt32.ofNat (c :: name).length).toNat) :
    n ∈ dirLookupReads buf (c :: name) := by
  have hfound : found buf (c :: name) = none := by
    unfold found
    rw [List.find?_eq_none]
    intro i _ hmatch
    simp only [matchesAt, Bool.and_eq_true] at hmatch
    obtain ⟨tail, htail⟩ := List.isPrefixOf_iff_prefix.mp hmatch.1.1
    have hmem : c ∈ buf.drop i := htail ▸ List.mem_cons_self
    exact hc (List.mem_of_mem_drop hmem)
  -- the comparison looks at least at the first character
  have hread : n ∈ conditionReads buf (c :: name) n := by
    refine List.mem_append_left _ (List.mem_map.mpr ⟨0, List.mem_range.mpr ?_, Nat.add_zero n⟩)
    cases buf.drop n with
    | nil => exact Nat.one_pos
    | cons d s =>
      rw [strncmpReads]
      split_ifs
      · exact Nat.succ_pos _
      · exact Nat.one_pos
  refine List.mem_append_left _ (List.mem_append_right _ (List.mem_flatMap.mpr ⟨n, ?_, hread⟩))
  rw [scanned, hfound]
  exact List.mem_range.mpr hn

/-- `contents[3]` of `mkfs`, a directory without files: `./` and `../`. -/
def emptyDirectory : List DirEntry := [⟨[46, 47], 3⟩, ⟨[46, 46, 47], 1⟩]

/-- Its block on the disk. -/
def emptyDirectoryBlock : List UInt8 := dirText emptyDirectory ++ List.replicate 497 0

/-- Looking up "a" stays in the block. -/
theorem dirLookup_inside_a :
    (scanned (emptyDirectoryBlock ++ []) [97]).length ≤ strlen emptyDirectoryBlock ∧
      ∀ n ∈ dirLookupReads (emptyDirectoryBlock ++ []) [97], n < 512 :=
  (dirLookup_inside_iff [] (by decide +kernel) (by decide +kernel) (by decide) (by decide)).mpr
    (by decide +kernel)

/-- Looking up a name of 16 characters in a text of 15 does not stop at the end of the block. -/
theorem dirLookup_leaves_block :
    emptyDirectoryBlock.length = 512 ∧ 0 ∈ emptyDirectoryBlock ∧
      strlen emptyDirectoryBlock <
        (scanned (emptyDirectoryBlock ++ []) (List.replicate 16 97)).length ∧
      512 ∈ dirLookupReads (emptyDirectoryBlock ++ []) (List.replicate 16 97) := by
  have hblock : emptyDirectoryBlock.length = 512 := by decide +kernel
  have hzero : 0 ∈ emptyDirectoryBlock := by decide +kernel
  refine ⟨hblock, hzero, ?_, mem_reads_of_notMem (by decide +kernel) (by decide +kernel)⟩
  have htext : strlen (dirText emptyDirectory ++ 0 :: List.replicate 496 0) =
      (dirText emptyDirectory).length := strlen_text (by decide +kernel)
  have hlt : (dirText emptyDirectory).length < (scanned
      (dirText emptyDirectory ++ 0 :: List.replicate 496 0) (List.replicate 16 97)).length :=
    lt_length_scanned (by decide +kernel) (by decide +kernel) (by decide) (by decide)
      (by decide +kernel)
  rw [← htext] at hlt
  rw [List.append_nil]
  exact hlt

end Egos.Apps
