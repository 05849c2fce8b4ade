import Egos.Loader.Pages

/-!
# The Loader: The Page with the Arguments

What is in the page that `elf_load` maps at `APPS_ARG`: the word `argc`, then `CMD_NARGS` words
for the pointers, then the strings, `CMD_ARG_LEN` bytes each.

That the page is there (`elfLoad_page`) needs nothing of the memory before: its bit stays set, so
that no later `mmu_alloc` returns it. How many pages a process has, and that it has no others
(`Egos.Loader.Segments`), depends on the table and the bitmap being in step.
-/

namespace Egos.Loader

open Egos.Lib Egos.Earth

/-! ## Words and bytes -/

theorem or_shiftLeft {a n : Nat} (h : a < 2 ^ n) (b : Nat) : a ||| b <<< n = a + b * 2 ^ n := by
  rw [Nat.or_comm, ← Nat.shiftLeft_add_eq_or_of_lt h, Nat.shiftLeft_eq, Nat.add_comm]

theorem toNat_shiftLeft (b : UInt8) {n : Nat} (hn : n ≤ 24) :
    (b.toUInt32 <<< UInt32.ofNat n).toNat = b.toNat <<< n := by
  have hlt : b.toNat * 2 ^ n < 2 ^ 8 * 2 ^ 24 :=
    Nat.mul_lt_mul_of_lt_of_le b.toNat_lt (Nat.pow_le_pow_right (by decide) hn) (by decide)
  rw [UInt32.toNat_shiftLeft, UInt32.toNat_ofNat', Nat.shiftLeft_eq, Nat.shiftLeft_eq,
    UInt8.toNat_toUInt32, Nat.mod_eq_of_lt (show n < 2 ^ 32 by omega),
    Nat.mod_eq_of_lt (show n < 32 by omega)]
  exact Nat.mod_eq_of_lt hlt

theorem toNat_wordAt (bytes : Nat → UInt8) (off : Nat) :
    (wordAt bytes off).toNat = (bytes off).toNat + (bytes (off + 1)).toNat * 2 ^ 8 +
      (bytes (off + 2)).toNat * 2 ^ 16 + (bytes (off + 3)).toNat * 2 ^ 24 := by
  have h0 := (bytes off).toNat_lt
  have h1 := (bytes (off + 1)).toNat_lt
  have h2 := (bytes (off + 2)).toNat_lt
  show ((bytes off).toUInt32 ||| (bytes (off + 1)).toUInt32 <<< UInt32.ofNat 8 |||
    (bytes (off + 2)).toUInt32 <<< UInt32.ofNat 16 |||
      (bytes (off + 3)).toUInt32 <<< UInt32.ofNat 24).toNat = _
  -- the bytes do not overlap, so that `|||` adds them
  rw [UInt32.toNat_or, UInt32.toNat_or, UInt32.toNat_or, UInt8.toNat_toUInt32,
    toNat_shiftLeft _ (by decide), toNat_shiftLeft _ (by decide), toNat_shiftLeft _ (by decide),
    or_shiftLeft h0, or_shiftLeft (show _ + _ * 2 ^ 8 < 2 ^ 16 by omega),
    or_shiftLeft (show _ + _ * 2 ^ 8 + _ * 2 ^ 16 < 2 ^ 24 by omega)]

theorem toNat_byteOf (w : UInt32) {n : Nat} (hn : n < 4) :
    (byteOf w n).toNat = w.toNat / 2 ^ (8 * n) % 256 := by
  unfold byteOf
  rw [UInt32.toNat_toUInt8, UInt32.toNat_shiftRight, UInt32.toNat_ofNat',
    Nat.mod_eq_of_lt (show 8 * n < 2 ^ 32 by omega), Nat.mod_eq_of_lt (show 8 * n < 32 by omega),
    Nat.shiftRight_eq_div_pow]

/-- The bytes of a word make up the word. -/
theorem wordAt_of_bytes {bytes : Nat → UInt8} {off : Nat} {w : UInt32}
    (h : ∀ n < 4, bytes (off + n) = byteOf w n) : wordAt bytes off = w := by
  apply UInt32.toNat_inj.mp
  rw [toNat_wordAt, h 1 (by decide), h 2 (by decide), h 3 (by decide),
    show bytes off = _ from h 0 (by decide), toNat_byteOf w (by decide), toNat_byteOf w (by decide),
    toNat_byteOf w (by decide), toNat_byteOf w (by decide)]
  have := w.toNat_lt
  omega

/-! ## The page -/

/-- The bytes of a page. -/
def Page.bytes (page : Page) (n : Nat) : UInt8 := if h : n < 4096 then page ⟨n, h⟩ else 0

theorem bytes_memcpy {page : Page} {off size : Nat} {src : Nat → UInt8} {n : Nat} (hn : n < 4096) :
    (page.memcpy off src size).bytes n =
      if off ≤ n ∧ n < off + size then src (n - off) else page.bytes n := by
  simp only [Page.bytes, hn, dite_true, Page.memcpy]

/-- `argv_addr[i]` -/
def pointer (i : Nat) : UInt32 := appsArg + 4 + 4 * 16 + UInt32.ofNat i * 32

theorem pointer_eq (i : Nat) : pointer i = appsArg + UInt32.ofNat (68 + i * 32) := by
  rw [pointer, UInt32.add_assoc appsArg, UInt32.add_assoc appsArg, UInt32.ofNat_add,
    UInt32.ofNat_mul]
  rfl

/-- The loop over `argv_addr` writes the pointers, and nothing else. -/
theorem bytes_pointers (page : Page) {argc : Nat} (hargc : argc ≤ 16) {n : Nat} (hn : n < 4096) :
    ((List.range argc).foldl (fun page i => page.setWord (4 + 4 * i) (pointer i)) page).bytes n =
      if 4 ≤ n ∧ n < 4 + 4 * argc then byteOf (pointer ((n - 4) / 4)) ((n - 4) % 4)
      else page.bytes n := by
  induction argc with
  | zero => rw [if_neg (by omega)]; rfl
  | succ argc ih =>
    rw [List.range_succ, List.foldl_append, List.foldl_cons, List.foldl_nil, Page.setWord,
      bytes_memcpy hn, ih (by omega)]
    by_cases hlast : 4 + 4 * argc ≤ n ∧ n < 4 + 4 * argc + 4
    · rw [if_pos hlast, if_pos (by omega), show (n - 4) / 4 = argc by omega,
        show (n - 4) % 4 = n - (4 + 4 * argc) by omega]
    · rw [if_neg hlast]
      by_cases hbefore : 4 ≤ n ∧ n < 4 + 4 * argc
      · rw [if_pos hbefore, if_pos (by omega)]
      · rw [if_neg hbefore, if_neg (by omega)]

section ArgPage

variable {argv : Fin 16 → Fin 32 → UInt8} {argc : Nat} {hargc : argc ≤ 16} {page : Page}

/-- The bytes of the page with the arguments. -/
theorem bytes_argPage {n : Nat} (hn : n < 4096) :
    (argPage ⟨argc, some argv, hargc⟩ page).bytes n =
      if n < 4 then byteOf (UInt32.ofNat argc) n
      else if n < 4 + 4 * argc then byteOf (pointer ((n - 4) / 4)) ((n - 4) % 4)
      else if 68 ≤ n ∧ n < 68 + argc * 32 then argBytes argv (n - 68)
      else page.bytes n := by
  refine (bytes_pointers _ hargc hn).trans ?_
  rw [bytes_memcpy hn, Page.setWord, bytes_memcpy hn]
  by_cases hfirst : n < 4
  · rw [if_neg (by omega), if_neg (by omega), if_pos (by omega), if_pos hfirst, Nat.sub_zero]
  · rw [if_neg hfirst]
    by_cases hpointer : n < 4 + 4 * argc
    · rw [if_pos (by omega), if_pos hpointer]
    · rw [if_neg (by omega), if_neg hpointer, if_neg (show ¬ (0 ≤ n ∧ n < 0 + 4) by omega)]

theorem argc_argPage :
    wordAt (argPage ⟨argc, some argv, hargc⟩ page).bytes 0 = UInt32.ofNat argc := by
  refine wordAt_of_bytes fun n hn => ?_
  rw [Nat.zero_add, bytes_argPage (by omega), if_pos hn]

theorem pointer_argPage {k : Nat} (hk : k < argc) :
    wordAt (argPage ⟨argc, some argv, hargc⟩ page).bytes (4 + 4 * k) = pointer k := by
  refine wordAt_of_bytes fun n hn => ?_
  rw [bytes_argPage (by omega), if_neg (by omega), if_pos (by omega),
    show (4 + 4 * k + n - 4) / 4 = k by omega, show (4 + 4 * k + n - 4) % 4 = n by omega]

theorem string_argPage {k : Nat} (hk : k < argc) (j : Fin 32) :
    (argPage ⟨argc, some argv, hargc⟩ page).bytes (68 + k * 32 + j.val) =
      argv (Fin.ofNat 16 k) j := by
  rw [bytes_argPage (by omega), if_neg (by omega), if_neg (by omega), if_pos (by omega), argBytes,
    show (68 + k * 32 + j.val - 68) / 32 = k by omega,
    show (68 + k * 32 + j.val - 68) % 32 = j.val by omega]
  congr 1
  exact Fin.ext (by simp)

end ArgPage

/-! ## The page in memory -/

/-- `elf_load` maps the page with the arguments, and the later pages do not touch it. -/
theorem loadArgs_page (pid : Int) (args : Args) (s : Tlb Page) :
    Ends (loadArgs pid args s) (fun s' => ∃ i, s'.pageInfoTable i = ⟨pid, (appsArg / 4096).toNat⟩ ∧
      s'.mem (pageOfId i) = argPage args zeroPage) fun _ => True := by
  unfold loadArgs
  refine (ends_bind _ _).mpr (Ends.mono (mapPage_fresh s pid _) (fun r hr => ?_) fun _ he => he)
  obtain ⟨hentry, hbit, hmem⟩ := hr
  -- the page is complete before the three pages after it are mapped
  have hcontent : (r.2.store (pageOfId r.1) (argPage args (r.2.mem (pageOfId r.1)))).mem
      (pageOfId r.1) = argPage args zeroPage := by
    rw [hmem]
    exact Function.update_self ..
  refine (ends_bind _ _).mpr (Ends.mono (mapPage_samePage _ hbit) (fun r₁ h₁ => ?_) fun _ he => he)
  refine (ends_bind _ _).mpr
    (Ends.mono (mapPage_samePage _ (h₁.bit.trans hbit)) (fun r₂ h₂ => ?_) fun _ he => he)
  refine (ends_bind _ _).mpr
    (Ends.mono (mapPage_samePage _ ((h₁.trans h₂).bit.trans hbit)) (fun r₃ h₃ => ?_) fun _ he => he)
  have hsame := (h₁.trans h₂).trans h₃
  exact ⟨r.1, hsame.entry.trans hentry, hsame.content.trans hcontent⟩

theorem elfLoad_page (pid : Int) (reader : UInt32 → Block) (stack : Nat → UInt8) (args : Args)
    (s : Tlb Page) :
    Ends (elfLoad pid reader stack args s)
      (fun s' => ∃ i, s'.pageInfoTable i = ⟨pid, (appsArg / 4096).toNat⟩ ∧
        s'.mem (pageOfId i) = argPage args zeroPage) fun _ => True := by
  unfold elfLoad
  rw [ends_bind]
  exact Ends.mono (ends_foldlM (fun s ph _ => Ends.mono (loadSegment_loading .refl ph)
    (fun _ _ => trivial) fun _ he => he) _ trivial)
    (fun s' _ => loadArgs_page pid args s') fun _ he => he

end Egos.Loader
