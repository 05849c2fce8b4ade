import Egos.Apps.DirLookup
import Egos.Lib.Pieces

/-!
# Listing a Directory

`ls` (`apps/user/ls.c`) prints the text of the current directory, after a loop that is to remove
the numbers of the files: it replaces every digit behind a space by a space, in place, so that a
number is erased from its first digit on.

The loop does not know names from numbers. It also erases the digits at the beginning of a name,
unless the name is at the very beginning of the text. `ls_shows_names_iff`: what is printed are
the names exactly if no other name begins with a digit.
-/

namespace Egos.Apps

open Egos.Lib

/-! ## The code -/

/-- The body of the loop. -/
def lsTurn (buf : List UInt8) (i : Nat) : List UInt8 :=
  match buf[i - 1]?, buf[i]? with
  | some prev, some c => if prev = space && isDigit c then buf.set i space else buf
  | _, _ => buf

/-- `for (uint i = 1; i < strlen(buf); i++)`, with at most `fuel` turns from `i` on. -/
def lsLoop : Nat → Nat → List UInt8 → List UInt8
  | 0, _, buf => buf
  | fuel + 1, i, buf => if i < strlen buf then lsLoop fuel (i + 1) (lsTurn buf i) else buf

/-- The string in `buf` when it is printed, given the block that `file_read` returns. -/
def shown (block : List UInt8) : List UInt8 :=
  (lsLoop block.length 1 block).takeWhile (· ≠ 0)

/-- `main`: the message for a call with arguments, or what is printed. -/
def ls (argc : Nat) (block : List UInt8) : Except String (List UInt8) :=
  if argc > 1 then .error "ls: ls with args is not implemented"
  else .ok (shown block ++ [10, 13])

/-! ## The loop as a scan -/

/-- The scan behind the character `prev`: the loop sees the characters it has left behind. -/
def blank : UInt8 → List UInt8 → List UInt8
  | _, [] => []
  | prev, c :: cs =>
      let c' := if prev = space && isDigit c then space else c
      c' :: blank c' cs

section Loop

variable {text todo rest : List UInt8} {prev c : UInt8}

/-- A turn changes the character at the cursor as the scan does. -/
theorem lsTurn_append (front todo : List UInt8) (prev c : UInt8) :
    lsTurn (front ++ prev :: c :: todo) (front.length + 1) =
      front ++ prev :: (if prev = space && isDigit c then space else c) :: todo := by
  have hprev : (front ++ prev :: c :: todo)[front.length + 1 - 1]? = some prev := by simp
  have hc : (front ++ prev :: c :: todo)[front.length + 1]? = some c := by
    rw [List.getElem?_append_right (by omega)]
    simp
  rw [lsTurn, hprev, hc]
  by_cases hdigit : (decide (prev = space) && isDigit c) = true
  · simp only [hdigit, if_true]
    rw [List.set_append_right _ _ (by omega)]
    simp
  · simp only [hdigit, Bool.false_eq_true, if_false]

theorem blank_ne_zero (hc : c ≠ 0) : (if prev = space && isDigit c then space else c) ≠ 0 := by
  split_ifs
  · decide
  · exact hc

theorem zero_notMem_blank (h : 0 ∉ todo) : 0 ∉ blank prev todo := by
  induction todo generalizing prev with
  | nil => exact List.not_mem_nil
  | cons c cs ih =>
    obtain ⟨hc, hcs⟩ := not_or.mp (List.mem_cons.not.mp h)
    rw [blank, List.mem_cons, not_or]
    exact ⟨(blank_ne_zero fun hzero => hc hzero.symm).symm, ih hcs⟩

/-- The loop runs the scan over what is behind the cursor. The induction is on that part; the
    zero at the end of the string stays where it is, so `strlen` does not change. -/
theorem lsLoop_eq (front rest : List UInt8) {fuel : Nat} (hfuel : todo.length < fuel)
    (hfront : 0 ∉ front) (hprev : prev ≠ 0) (htodo : 0 ∉ todo) :
    lsLoop fuel (front.length + 1) (front ++ prev :: todo ++ 0 :: rest) =
      front ++ prev :: blank prev todo ++ 0 :: rest := by
  obtain ⟨fuel, rfl⟩ : ∃ n, fuel = n + 1 := ⟨fuel - 1, by omega⟩
  have hlen : strlen (front ++ prev :: todo ++ 0 :: rest) = (front ++ prev :: todo).length := by
    apply strlen_text
    simp [hfront, hprev.symm, htodo]
  rw [lsLoop, hlen]
  induction todo generalizing front prev fuel with
  | nil => simp [blank]
  | cons c todo ih =>
    obtain ⟨hc, htodo⟩ := not_or.mp (List.mem_cons.not.mp htodo)
    have hin : front.length + 1 < (front ++ prev :: c :: todo).length := by
      simp
    have hturn : lsTurn (front ++ prev :: (c :: todo) ++ 0 :: rest) (front.length + 1) =
        front ++ [prev] ++ (if prev = space && isDigit c then space else c) :: todo ++
          0 :: rest := by
      have h := lsTurn_append front (todo ++ 0 :: rest) prev c
      simpa using h
    rw [if_pos hin, hturn]
    obtain ⟨fuel, rfl⟩ : ∃ n, fuel = n + 1 := ⟨fuel - 1, by simp at hfuel; omega⟩
    have hc' : (if prev = space && isDigit c then space else c) ≠ 0 :=
      blank_ne_zero fun hzero => hc hzero.symm
    have hfront' : 0 ∉ front ++ [prev] := by simp [hfront, hprev.symm]
    have hlen' : strlen (front ++ [prev] ++ (if prev = space && isDigit c then space else c) ::
        todo ++ 0 :: rest) = (front ++ [prev] ++
          (if prev = space && isDigit c then space else c) :: todo).length := by
      apply strlen_text
      rw [List.mem_append, List.mem_cons, not_or, not_or]
      exact ⟨hfront', hc'.symm, htodo⟩
    have hnext := ih (front ++ [prev]) hfront' hc' htodo fuel (by simpa using hfuel) hlen'
    rw [show front.length + 1 = (front ++ [prev]).length by simp, lsLoop, hlen', hnext, blank]
    simp

/-- What is printed is the scan of the text from its second character on. -/
theorem shown_cons (hnul : 0 ∉ c :: text) : shown (c :: text ++ 0 :: rest) = c :: blank c text := by
  obtain ⟨hc, htext⟩ := not_or.mp (List.mem_cons.not.mp hnul)
  have hloop : lsLoop (c :: text ++ 0 :: rest).length 1 (c :: text ++ 0 :: rest) =
      c :: blank c text ++ 0 :: rest :=
    lsLoop_eq [] rest (by simp) List.not_mem_nil (fun hzero => hc hzero.symm) htext
  rw [shown, hloop, List.takeWhile_append_of_pos]
  · simp
  · intro d hd
    simp only [ne_eq, decide_eq_true_eq]
    rintro rfl
    rcases List.mem_cons.mp hd with hzero | hmem
    · exact hc hzero
    · exact zero_notMem_blank htext hmem

end Loop

/-! ## The scan on words -/

section Words

variable {w r : List UInt8} {prev : UInt8}

theorem blank_space (prev : UInt8) (r : List UInt8) :
    blank prev (space :: r) = space :: blank space r := by
  simp [blank, isDigit_space]

theorem blank_spaces (k : Nat) (r : List UInt8) :
    blank space (List.replicate k space ++ r) = List.replicate k space ++ blank space r := by
  induction k with
  | zero => rfl
  | succ k ih => rw [List.replicate_succ, List.cons_append, blank_space, ih, List.cons_append]

/-- Inside a word nothing is erased. -/
theorem blank_word (hprev : prev ≠ space) (hw : space ∉ w) :
    blank prev (w ++ space :: r) = w ++ space :: blank space r := by
  induction w generalizing prev with
  | nil => exact blank_space prev r
  | cons c w ih =>
    obtain ⟨hc, hw⟩ := not_or.mp (List.mem_cons.not.mp hw)
    rw [List.cons_append, blank]
    simp only [hprev, decide_false, Bool.false_and, Bool.false_eq_true, if_false]
    rw [ih (fun h => hc h.symm) hw, List.cons_append]

/-- Of a word behind a space, the digits at the beginning are erased, one after the other. -/
theorem blank_space_word (hw : space ∉ w) :
    blank space (w ++ space :: r) =
      List.replicate (w.takeWhile isDigit).length space ++ w.dropWhile isDigit ++
        space :: blank space r := by
  induction w with
  | nil => exact blank_space space r
  | cons c w ih =>
    obtain ⟨hc, hw⟩ := not_or.mp (List.mem_cons.not.mp hw)
    rw [List.cons_append, blank]
    by_cases hdigit : isDigit c = true
    · -- the space that replaces it erases the next digit, too
      simp only [hdigit, decide_true, Bool.and_self, if_true]
      rw [ih hw, List.takeWhile_cons_of_pos hdigit, List.dropWhile_cons_of_pos hdigit,
        List.length_cons, List.replicate_succ, List.cons_append, List.cons_append]
    · simp only [hdigit, Bool.and_false, Bool.false_eq_true, if_false]
      rw [blank_word (fun h => hc h.symm) hw, List.takeWhile_cons_of_neg hdigit,
        List.dropWhile_cons_of_neg hdigit]
      rfl

theorem pieces_word (hw : space ∉ w) :
    pieces space (w ++ space :: r) = [w].filter (· ≠ []) ++ pieces space r := by
  rw [pieces_append_cons]
  by_cases hne : w = []
  · simp [hne]
  · rw [pieces_of_notMem hw hne]
    simp [hne]

/-- The words that are left of a text of fields: each without the digits at its beginning. -/
theorem pieces_blank_render {fields : List (TextField UInt8)} (h : ∀ f ∈ fields, space ∉ f.1) :
    pieces space (blank space (render space fields)) =
      (fields.map fun f => f.1.dropWhile isDigit).filter (· ≠ []) := by
  induction fields with
  | nil => rfl
  | cons f fields ih =>
    have hf : space ∉ f.1 := h f List.mem_cons_self
    have hdrop : space ∉ f.1.dropWhile isDigit :=
      fun hmem => hf ((List.dropWhile_sublist _).subset hmem)
    rw [render_cons, List.replicate_succ, List.append_assoc, List.cons_append,
      blank_space_word hf, List.append_assoc, pieces_replicate_append, pieces_word hdrop,
      blank_spaces, pieces_replicate_append, ih fun f' hf' => h f' (List.mem_cons_of_mem f hf'),
      List.map_cons, ← List.filter_append]
    rfl

end Words

/-! ## Directories -/

/-- The texts that `mkfs` writes for a directory; names may be repeated. -/
structure IsListing (es : List DirEntry) : Prop where
  name : ∀ e ∈ es, e.name ≠ [] ∧ space ∉ e.name ∧ 0 ∉ e.name
  ino : ∀ e ∈ es, e.ino < 1000
  length : (dirText es).length < 512

variable {es : List DirEntry}

theorem dropWhile_decimal (n : Nat) : (decimal n).dropWhile isDigit = [] :=
  List.dropWhile_eq_nil_iff.mpr fun _ hc => isDigit_of_mem_decimal hc

/-- The fields of the numbers leave no word. -/
theorem filter_strip_dirFields (es : List DirEntry) :
    ((dirFields es).map fun f => f.1.dropWhile isDigit).filter (· ≠ []) =
      (es.map fun e => e.name.dropWhile isDigit).filter (· ≠ []) := by
  induction es with
  | nil => rfl
  | cons e es ih =>
    have hfields : dirFields (e :: es) =
        (e.name, 3 - (decimal e.ino).length) :: (decimal e.ino, 0) :: dirFields es := rfl
    rw [hfields, List.map_cons, List.map_cons, List.map_cons, dropWhile_decimal,
      List.filter_cons, List.filter_cons_of_neg (by simp), ih, List.filter_cons]

/-- `ls` prints the first name as it is, and the other names without the digits at their
    beginning. -/
theorem pieces_shown {e : DirEntry} (h : IsListing (e :: es)) (rest : List UInt8) :
    pieces space (shown (dirText (e :: es) ++ 0 :: rest)) =
      e.name :: (es.map fun e => e.name.dropWhile isDigit).filter (· ≠ []) := by
  obtain ⟨hne, hspace, -⟩ := h.name e List.mem_cons_self
  obtain ⟨c, w, hname⟩ := List.exists_cons_of_ne_nil hne
  obtain ⟨hc, hw⟩ := not_or.mp (List.mem_cons.not.mp (hname ▸ hspace))
  have hfield : ∀ f ∈ dirFields (e :: es), IsField space f.1 ∧ 0 ∉ f.1 :=
    isField_entryFields h.name
  have hnul : 0 ∉ dirText (e :: es) := by
    rw [dirText_eq h.ino]
    exact notMem_render (by decide) fun f hf => (hfield f hf).2
  -- the text is the first name, a space, and fields
  have htext : dirText (e :: es) = c :: (w ++ space ::
      (List.replicate (3 - (decimal e.ino).length) space ++
        render space ((decimal e.ino, 0) :: dirFields es))) := by
    rw [dirText_eq h.ino]
    show render space ((e.name, _) :: (decimal e.ino, 0) :: dirFields es) = _
    rw [render_cons, hname, List.replicate_succ]
    simp
  rw [htext] at hnul ⊢
  rw [shown_cons hnul, blank_word (fun heq => hc heq.symm) hw, ← List.cons_append, ← hname,
    pieces_append_cons, pieces_of_notMem hspace hne, blank_spaces, pieces_replicate_append,
    pieces_blank_render, List.map_cons, dropWhile_decimal, List.filter_cons_of_neg (by simp),
    filter_strip_dirFields]
  · rfl
  · intro f hf
    exact (hfield f (List.mem_cons_of_mem _ hf)).1.notMem

/-- Words that have lost their first characters are the same words exactly if none has lost
    any. -/
theorem filter_strip_eq_iff {p : UInt8 → Bool} {ws : List (List UInt8)} (hne : ∀ w ∈ ws, w ≠ []) :
    (ws.map fun w => w.dropWhile p).filter (· ≠ []) = ws ↔
      ∀ w ∈ ws, ∀ c ∈ w.head?, p c = false := by
  induction ws with
  | nil => simp
  | cons w ws ih =>
    obtain ⟨c, t, rfl⟩ := List.exists_cons_of_ne_nil (hne w List.mem_cons_self)
    have ih := ih fun w' hw' => hne w' (List.mem_cons_of_mem _ hw')
    by_cases hc : p c = true
    · -- the first character is lost: there is less than before
      have hlt : ((ws.map fun w => w.dropWhile p).filter (· ≠ [])).length ≤ ws.length :=
        (List.length_filter_le _ _).trans (by simp)
      constructor
      · intro heq
        exfalso
        rw [List.map_cons, List.dropWhile_cons_of_pos hc] at heq
        by_cases hnil : t.dropWhile p = []
        · rw [List.filter_cons_of_neg (by simp [hnil])] at heq
          rw [heq] at hlt
          simp at hlt
        · rw [List.filter_cons_of_pos (by simp [hnil])] at heq
          have hword := (List.cons.inj heq).1
          have hshort := (List.dropWhile_sublist p (l := t)).length_le
          rw [hword] at hshort
          simp at hshort
      · intro hall
        have hfalse := hall (c :: t) List.mem_cons_self c rfl
        rw [hc] at hfalse
        cases hfalse
    · rw [Bool.not_eq_true] at hc
      rw [List.map_cons, List.dropWhile_cons_of_neg (by simp [hc]),
        List.filter_cons_of_pos (by simp), List.cons.injEq, ih]
      simp [hc]

/-- Called without arguments `ls` prints a line, and its words are the names of the entries,
    unchanged and in order, exactly if no name but that of the first entry begins with a digit. -/
theorem ls_shows_names_iff (es : List DirEntry) (h : IsListing es) (rest : List UInt8) {argc : Nat}
    (hargs : argc ≤ 1) :
    ls argc (dirText es ++ 0 :: rest) = .ok (shown (dirText es ++ 0 :: rest) ++ [10, 13]) ∧
      (pieces space (shown (dirText es ++ 0 :: rest)) = es.map DirEntry.name ↔
        ∀ e ∈ es.tail, ∀ c ∈ e.name.head?, isDigit c = false) := by
  refine ⟨if_neg (Nat.not_lt.mpr hargs), ?_⟩
  cases es with
  | nil =>
    have hempty : shown (0 :: rest) = [] := by
      have hlen : strlen (0 :: rest) = 0 := rfl
      rw [shown, List.length_cons, lsLoop, if_neg (by omega)]
      rfl
    simp [dirText, hempty]
  | cons e es =>
    have hne : ∀ w ∈ es.map DirEntry.name, w ≠ [] := by
      intro w hw
      obtain ⟨e', he', rfl⟩ := List.mem_map.mp hw
      exact (h.name e' (List.mem_cons_of_mem e he')).1
    have hstrip : (es.map fun e => e.name.dropWhile isDigit) =
        (es.map DirEntry.name).map fun w => w.dropWhile isDigit := by
      rw [List.map_map]
      rfl
    rw [pieces_shown h, List.map_cons, List.cons.injEq, hstrip, filter_strip_eq_iff hne]
    simp

theorem ls_shows_names_iff_root :
    ls 1 (dirText rootDirectory ++ [0]) = .ok (shown (dirText rootDirectory ++ [0]) ++ [10, 13]) ∧
    pieces space (shown (dirText rootDirectory ++ [0])) = rootDirectory.map DirEntry.name := by
  obtain ⟨hprinted, hnames⟩ :=
    ls_shows_names_iff rootDirectory ⟨by decide, by decide, by decide +kernel⟩ [] (le_refl 1)
  refine ⟨hprinted, hnames.mpr ?_⟩
  simp [rootDirectory, isDigit]

/-- The directory `/bin` with an app `2048` in it. -/
def binDirectory : List DirEntry := [⟨[46, 47], 6⟩, ⟨[46, 46, 47], 0⟩, ⟨[50, 48, 52, 56], 9⟩]

/-- The name of the app is not shown. -/
theorem ls_hides_2048 : IsListing binDirectory ∧
    pieces space (shown (dirText binDirectory ++ [0])) = [[46, 47], [46, 46, 47]] ∧
    pieces space (shown (dirText binDirectory ++ [0])) ≠ binDirectory.map DirEntry.name := by
  have hshown : pieces space (shown (dirText binDirectory ++ [0])) = [[46, 47], [46, 46, 47]] := by
    decide +kernel
  refine ⟨⟨by decide, by decide, by decide +kernel⟩, hshown, ?_⟩
  rw [hshown]
  decide

end Egos.Apps
