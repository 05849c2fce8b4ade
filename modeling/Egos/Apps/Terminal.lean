import Egos.Lib.LineEditor
import Egos.Loader.Code

/-!
# The Terminal

`term_read` of the kernel processes (`library/syscall/servers.c`) and the server that calls it
for the applications (`apps/system/sys_terminal.c`).

- `term_read` edits a line in the buffer of its caller: `termRead_edits`.
- The server bounds the length of a request from above only. For the length 0 the bound of the
  loop in `term_read` is `(uint)-1`: `terminal_within_reply_iff`.

## Reading guide

- `i` is an `int` and may be -1 for a moment, so the index of a byte is an `Int`. The condition
  of the loop compares it as a `uint`.
- The input is the list of the characters that have been typed so far. When it is used up,
  `term_read` waits in `tty_read`.
- `stores` is a ghost: the indices of all stores to the buffer. No function reads it.
- `msg` is the array `buf` of the server, and what follows it. A request and its reply both
  start at its first byte: `reply->buf` lies over `req->len`.
-/

namespace Egos.Apps

open Egos.Lib Egos.Loader

/-! ## Reading a line -/

/-- `TERM_BUF_SIZE` -/
def termBufSize : Nat := 512

/-- `case 0x0d` -/
def enterKey : UInt8 := 0x0d

/-- `case 0x7f` -/
def backspaceKey : UInt8 := 0x7f

/-- The variables of `term_read`, and what it has written to the terminal. -/
structure Reader where
  i : Int
  buf : Int → UInt8
  out : List UInt8
  stores : List Int

namespace Reader

/-- `buf[k] = c` -/
def store (s : Reader) (k : Int) (c : UInt8) : Reader :=
  { s with buf := Function.update s.buf k c, stores := s.stores ++ [k] }

/-- `term_write` of the kernel processes. -/
def termWrite (s : Reader) (str : List UInt8) : Reader := { s with out := s.out ++ str }

/-- `i < len - 1` -/
def more (s : Reader) (len : UInt32) : Bool := s.i % 2 ^ 32 < (len - 1).toNat

/-- A turn of the loop with the character that `tty_read` gives; a result if it returns. -/
def turn (s : Reader) (c : UInt8) : Option Int × Reader :=
  let s := s.store s.i c
  if c = enterKey then
    let s := s.store s.i 0
    -- "\n\r"
    let s := s.termWrite [10, 13]
    (some (if s.i ≠ 0 then s.i + 1 else 0), s)
  else if c = backspaceKey then
    -- "\b \b"; the character is not echoed
    let s := if s.i ≠ 0 then s.termWrite [8, 32, 8] else s
    let i := if s.i ≠ 0 then s.i - 2 else s.i - 1
    (none, { s with i := i + 1 })
  else
    let s := if c ≠ 0 then s.termWrite [c] else s
    (none, { s with i := s.i + 1 })

end Reader

/-- Where `term_read` is after some input. -/
inductive Reading where
  /-- in `tty_read` -/
  | waiting (s : Reader)
  /-- it has returned; the rest of the input is not read -/
  | returned (result : Int) (s : Reader) (rest : List UInt8)

/-- The variables of `term_read`. -/
def Reading.reader : Reading → Reader
  | .waiting s => s
  | .returned _ s _ => s

/-- The loop of `term_read`, and what follows it. -/
def Reader.run (len : UInt32) (s : Reader) : List UInt8 → Reading
  | [] =>
    if s.more len then .waiting s
    else .returned len.toNat (s.store (len - 1).toNat 0) []
  | c :: rest =>
    if s.more len then
      match s.turn c with
      | (some result, s) => .returned result s rest
      | (none, s) => run len s rest
    else .returned len.toNat (s.store (len - 1).toNat 0) (c :: rest)

/-- `term_read` -/
def termRead (buf : Int → UInt8) (len : UInt32) (input : List UInt8) : Reading :=
  Reader.run len ⟨0, buf, [], []⟩ input

/-! ## The server -/

/-- `TERM_INPUT` -/
def termInput : UInt32 := 0

/-- `TERM_OUTPUT` -/
def termOutput : UInt32 := 1

/-- `req->type` -/
def reqType (msg : Nat → UInt8) : UInt32 := wordAt msg 0

/-- `req->len` -/
def reqLen (msg : Nat → UInt8) : UInt32 := wordAt msg 4

/-- The calls of `FATAL` in `sys_terminal`. -/
inductive TerminalFatal where
  | requestLen (len : UInt32)
  | invalidRequest (type : UInt32)
  deriving DecidableEq, Repr

/-- What the server does with a request. -/
inductive TerminalTurn where
  /-- `term_read(reply->buf, req->len)` -/
  | reads (r : Reading)
  /-- `term_write(req->buf, req->len)` -/
  | writes (str : List UInt8)

/-- A turn of the loop of `sys_terminal`, with the request in `msg`. -/
def terminalTurn (msg : Nat → UInt8) (input : List UInt8) : Except TerminalFatal TerminalTurn :=
  if reqLen msg > 512 then .error (.requestLen (reqLen msg))
  else if reqType msg = termInput then
    .ok (.reads (termRead (fun k => msg (4 + k).toNat) (reqLen msg) input))
  else if reqType msg = termOutput then
    .ok (.writes ((List.range (reqLen msg).toNat).map fun k => msg (8 + k)))
  else .error (.invalidRequest (reqType msg))

/-- `struct term_reply`; `buf` has `TERM_BUF_SIZE` bytes. -/
structure TermReply where
  len : UInt32
  buf : Int → UInt8

/-- The reply, once `term_read` has returned. -/
def Reading.reply : Reading → Option TermReply
  | .waiting _ => none
  | .returned result s _ => some ⟨UInt32.ofInt result, s.buf⟩

/-! ## The line in the buffer -/

variable {s : Reader} {text : List UInt8} {cap : Nat} {c : UInt8}

/-- The buffer starts with the text. -/
def Stored (buf : Int → UInt8) (text : List UInt8) : Prop :=
  ∀ k (h : k < text.length), buf k = text[k]

/-- The reader has `text` in its buffer, and has not stored a byte behind its first `cap`. -/
structure Reader.Holds (s : Reader) (cap : Nat) (text : List UInt8) : Prop where
  index : s.i = text.length
  length : text.length ≤ cap
  stored : Stored s.buf text
  stores : ∀ k ∈ s.stores, 0 ≤ k ∧ k < cap

theorem Stored.append {buf : Int → UInt8} (h : Stored buf text) :
    Stored (Function.update buf text.length c) (text ++ [c]) := by
  intro k hk
  rw [List.length_append, List.length_singleton] at hk
  rcases Nat.lt_or_eq_of_le (Nat.le_of_lt_succ hk) with hlt | rfl
  · rw [Function.update_of_ne (by omega), List.getElem_append_left hlt]
    exact h k hlt
  · simp

/-- A byte behind the text does not matter. -/
theorem Stored.update {buf : Int → UInt8} (h : Stored buf text) :
    Stored (Function.update buf text.length c) text := by
  intro k hk
  rw [Function.update_of_ne (by omega)]
  exact h k hk

theorem Stored.dropLast {buf : Int → UInt8} (h : Stored buf text) : Stored buf text.dropLast := by
  intro k hk
  rw [List.getElem_dropLast]
  exact h k _

/-- Every turn stores to the first byte behind the text. -/
theorem Reader.Holds.stores_store (h : s.Holds cap text) (hlt : text.length < cap) :
    ∀ k ∈ s.stores ++ [s.i], 0 ≤ k ∧ k < cap := by
  intro k hk
  rcases List.mem_append.mp hk with hk | hk
  · exact h.stores k hk
  · rw [List.mem_singleton.mp hk, h.index]
    omega

theorem Reader.Holds.more_iff {len : UInt32} (h : s.Holds cap text)
    (hcap : cap ≤ (len - 1).toNat) : s.more len = true ↔ text.length < (len - 1).toNat := by
  have hlt := (len - 1).toNat_lt
  have hle := h.length
  unfold Reader.more
  rw [decide_eq_true_iff, h.index]
  omega

/-- Enter ends the line with a zero. -/
theorem Reader.Holds.enter (h : s.Holds cap text) (hlt : text.length < cap) :
    ∃ s' : Reader,
      s.turn enterKey = (some (if text.length = 0 then 0 else (text.length : Int) + 1), s') ∧
        s'.Holds cap text ∧ s'.buf text.length = 0 := by
  refine ⟨((s.store s.i enterKey).store s.i 0).termWrite [10, 13], ?_, ⟨h.index, h.length, ?_, ?_⟩,
    ?_⟩
  · have hresult : (if s.i ≠ 0 then s.i + 1 else 0) =
        if text.length = 0 then (0 : Int) else text.length + 1 := by
      rw [h.index]
      simp
    rw [← hresult]
    rfl
  · show Stored (Function.update (Function.update s.buf s.i enterKey) s.i 0) text
    rw [h.index]
    exact h.stored.update.update
  · intro k hk
    rcases List.mem_append.mp hk with hk | hk
    · exact h.stores_store hlt k hk
    · rw [List.mem_singleton.mp hk]
      exact h.stores_store hlt s.i (by simp)
  · show Function.update (Function.update s.buf s.i enterKey) s.i 0 text.length = 0
    rw [h.index, Function.update_self]

/-- Backspace takes the last character away, if there is one. The byte that it stores lies
    behind the text. -/
theorem Reader.Holds.backspace (h : s.Holds cap text) (hlt : text.length < cap) :
    ∃ s', s.turn backspaceKey = (none, s') ∧ s'.Holds cap text.dropLast := by
  have hstored : Stored (s.store s.i backspaceKey).buf text.dropLast := by
    show Stored (Function.update s.buf s.i backspaceKey) text.dropLast
    rw [h.index]
    exact h.stored.update.dropLast
  -- the source takes `i` down and the loop takes it up again: by one on an empty line, by two else
  by_cases hi : s.i = 0
  · have hlength : text.length = 0 := by
      have hindex := h.index
      omega
    refine ⟨{ s.store s.i backspaceKey with i := s.i - 1 + 1 }, ?_,
      ⟨?_, ?_, hstored, h.stores_store hlt⟩⟩
    · simp [Reader.turn, Reader.store, hi, enterKey, backspaceKey]
    · show s.i - 1 + 1 = _
      rw [List.length_dropLast, hlength, hi]
      rfl
    · rw [List.length_dropLast]
      omega
  · refine ⟨{ (s.store s.i backspaceKey).termWrite [8, 32, 8] with i := s.i - 2 + 1 }, ?_,
      ⟨?_, ?_, hstored, h.stores_store hlt⟩⟩
    · simp [Reader.turn, Reader.store, Reader.termWrite, hi, enterKey, backspaceKey]
    · have hindex := h.index
      show s.i - 2 + 1 = _
      rw [List.length_dropLast]
      omega
    · rw [List.length_dropLast]
      omega

/-- Any other character goes to the end of the text. -/
theorem Reader.Holds.char (h : s.Holds cap text) (hlt : text.length < cap) (henter : c ≠ enterKey)
    (hback : c ≠ backspaceKey) :
    ∃ s', s.turn c = (none, s') ∧ s'.Holds cap (text ++ [c]) := by
  have hstored : Stored (s.store s.i c).buf (text ++ [c]) := by
    show Stored (Function.update s.buf s.i c) _
    rw [h.index]
    exact h.stored.append
  have hindex : s.i + 1 = ((text ++ [c]).length : Int) := by
    rw [h.index]
    simp
  have hlength : (text ++ [c]).length ≤ cap := by
    simpa [Nat.succ_le_iff] using hlt
  -- a zero is not echoed
  by_cases hc : c = 0
  · refine ⟨{ s.store s.i c with i := s.i + 1 }, ?_,
      ⟨hindex, hlength, hstored, h.stores_store hlt⟩⟩
    subst hc
    rfl
  · refine ⟨{ (s.store s.i c).termWrite [c] with i := s.i + 1 }, ?_,
      ⟨hindex, hlength, hstored, h.stores_store hlt⟩⟩
    simp only [Reader.turn, henter, hback, hc, if_false, ne_eq, not_false_eq_true, if_true]
    rfl

/-- The loop edits a line, as long as the line has not more than `cap` characters; a loop with
    a larger bound then goes on from there. -/
theorem Reader.Holds.run {len : UInt32} (h : s.Holds cap text) (hcap : cap ≤ (len - 1).toNat)
    (input : List UInt8) :
    match editLine enterKey backspaceKey cap text input with
    | .typing line => ∃ s' : Reader, s.run len input = .waiting s' ∧ s'.Holds cap line
    | .entered line rest => ∃ s' : Reader,
        s.run len input =
            .returned (if line.length = 0 then 0 else (line.length : Int) + 1) s' rest ∧
          s'.Holds cap line ∧ line.length < cap ∧ s'.buf line.length = 0
    | .full line rest => ∃ s' : Reader, s.run len input = s'.run len rest ∧ s'.Holds cap line ∧
        line.length = cap := by
  induction input generalizing s text with
  | nil =>
    by_cases hlt : text.length < cap
    · -- the loop waits for the next key
      have hmore : s.more len = true := (h.more_iff hcap).mpr (by omega)
      simp only [editLine, hlt, if_true, Reader.run, hmore]
      exact ⟨s, rfl, h⟩
    · simp only [editLine, hlt, if_false]
      exact ⟨s, rfl, h, by have := h.length; omega⟩
  | cons c input ih =>
    by_cases hlt : text.length < cap
    · have hmore : s.more len = true := (h.more_iff hcap).mpr (by omega)
      simp only [editLine, hlt, if_true, Reader.run, hmore]
      -- the cases of a turn: Enter, Backspace, any other key
      by_cases henter : c = enterKey
      · obtain ⟨s', hturn, hholds, hzero⟩ := h.enter hlt
        subst henter
        simp only [if_true, hturn]
        exact ⟨s', rfl, hholds, hlt, hzero⟩
      · by_cases hback : c = backspaceKey
        · obtain ⟨s', hturn, hholds⟩ := h.backspace hlt
          subst hback
          simp only [henter, if_false, if_true, hturn]
          exact ih hholds
        · obtain ⟨s', hturn, hholds⟩ := h.char hlt henter hback
          simp only [henter, hback, if_false, hturn]
          exact ih hholds
    · simp only [editLine, hlt, if_false]
      exact ⟨s, rfl, h, by have := h.length; omega⟩

/-! ## `term_read` -/

theorem reader_start (buf : Int → UInt8) (cap : Nat) : Reader.Holds ⟨0, buf, [], []⟩ cap [] :=
  ⟨rfl, Nat.zero_le _, fun _ h => absurd h (Nat.not_lt_zero _),
    fun _ h => absurd h List.not_mem_nil⟩

/-- When the line is full, a zero follows it. -/
theorem Reader.Holds.full {len : UInt32} (h : s.Holds cap text) (hcap : cap = (len - 1).toNat)
    (hfull : text.length = cap) (rest : List UInt8) :
    s.run len rest = .returned len.toNat (s.store cap 0) rest := by
  have hmore : ¬ s.more len = true := by
    rw [h.more_iff hcap.le]
    omega
  cases rest <;> simp [Reader.run, hmore, hcap]

/-- All stores are to the first `size` bytes of the buffer, and so are the bytes that the result
    counts. -/
def Reading.Within (size : Nat) (r : Reading) : Prop :=
  (∀ k ∈ r.reader.stores, 0 ≤ k ∧ k < size) ∧
    ∀ reply, r.reply = some reply → reply.len.toNat ≤ size

theorem within_returned {result : Int} {size : Nat} {rest : List UInt8} (hnonneg : 0 ≤ result)
    (hle : result ≤ size) (hstores : ∀ k ∈ s.stores, 0 ≤ k ∧ k < size) :
    (Reading.returned result s rest).Within size := by
  refine ⟨hstores, fun reply hreply => ?_⟩
  obtain rfl := Option.some.inj hreply
  show (UInt32.ofInt result).toNat ≤ size
  simp only [UInt32.ofInt, UInt32.toNat_ofNat']
  omega

theorem Reader.Holds.stores_lt {size : Nat} (h : s.Holds cap text) (hsize : cap ≤ size) :
    ∀ k ∈ s.stores, 0 ≤ k ∧ k < size := by
  intro k hk
  have hk := h.stores k hk
  omega

/-- A line of at most `cap` characters stays in a buffer of at least this size. What happens
    behind a full line is left to the caller. -/
theorem Reader.Holds.within {len : UInt32} {size : Nat} (h : s.Holds cap text)
    (hcap : cap ≤ (len - 1).toNat) (hsize : cap ≤ size) (input : List UInt8)
    (hrest : ∀ line rest, editLine enterKey backspaceKey cap text input = .full line rest →
      ∀ s' : Reader, s'.Holds cap line → line.length = cap → (s'.run len rest).Within size) :
    (s.run len input).Within size := by
  have hrun := h.run hcap input
  cases hedit : editLine enterKey backspaceKey cap text input with
  | typing line =>
    rw [hedit] at hrun
    obtain ⟨s', hs', h'⟩ := hrun
    rw [hs']
    exact ⟨h'.stores_lt hsize, fun _ hreply => by cases hreply⟩
  | entered line rest =>
    rw [hedit] at hrun
    obtain ⟨s', hs', h', hlt, _⟩ := hrun
    rw [hs']
    refine within_returned ?_ ?_ (h'.stores_lt hsize)
    · split_ifs <;> omega
    · split_ifs <;> omega
  | full line rest =>
    rw [hedit] at hrun
    obtain ⟨s', hs', h', hfull⟩ := hrun
    rw [hs']
    exact hrest line rest hedit s' h' hfull

theorem sub_one_toNat {len : UInt32} (hlen : 1 ≤ len.toNat) : (len - 1).toNat = len.toNat - 1 := by
  have hle : 1 ≤ len := UInt32.le_iff_toNat_le.mpr hlen
  rw [UInt32.toNat_sub_of_le _ _ hle]
  rfl

/-- From the length 1 on, `term_read` stays in a buffer of this length. -/
theorem termRead_within (buf : Int → UInt8) {len : UInt32} (hlen : 1 ≤ len.toNat)
    (input : List UInt8) : (termRead buf len input).Within len.toNat := by
  have hcap := sub_one_toNat hlen
  refine (reader_start buf (len - 1).toNat).within le_rfl (by omega) input ?_
  intro line rest _ s h hfull
  rw [h.full rfl hfull]
  refine within_returned (by omega) le_rfl fun k hk => ?_
  -- the last store is the one behind the loop
  rcases List.mem_append.mp hk with hk | hk
  · have hk := h.stores k hk
    omega
  · rw [List.mem_singleton.mp hk]
    omega

/-- `term_read` is a line editor. For every buffer, every length from 1 on and all that is typed:

    - it stores only to the first `len` bytes of the buffer;
    - while the line is neither ended nor full, it waits for the next character;
    - when the line is ended by Enter, the buffer holds the line and a zero, and the result is
      the number of these bytes, or 0 for an empty line;
    - when `len - 1` characters are in the line, the buffer holds them and a zero, and the
      result is `len`. -/
theorem termRead_edits (buf : Int → UInt8) (len : UInt32) (hlen : 1 ≤ len.toNat)
    (input : List UInt8) :
    (∀ k ∈ (termRead buf len input).reader.stores, 0 ≤ k ∧ k < len.toNat) ∧
    match editLine enterKey backspaceKey (len.toNat - 1) [] input with
    | .typing _ => ∃ s, termRead buf len input = .waiting s
    | .entered line rest => ∃ s : Reader,
        termRead buf len input =
            .returned (if line.length = 0 then 0 else (line.length : Int) + 1) s rest ∧
          Stored s.buf line ∧ s.buf line.length = 0
    | .full line rest => ∃ s : Reader,
        termRead buf len input = .returned len.toNat s rest ∧
          line.length = len.toNat - 1 ∧ Stored s.buf line ∧ s.buf (len.toNat - 1 : Nat) = 0 := by
  refine ⟨(termRead_within buf hlen input).1, ?_⟩
  have hcap := sub_one_toNat hlen
  have hrun := (reader_start buf (len.toNat - 1)).run hcap.ge input
  unfold termRead
  cases hedit : editLine enterKey backspaceKey (len.toNat - 1) [] input with
  | typing line =>
    rw [hedit] at hrun
    obtain ⟨s, hs, _⟩ := hrun
    exact ⟨s, hs⟩
  | entered line rest =>
    rw [hedit] at hrun
    obtain ⟨s, hs, h, _, hzero⟩ := hrun
    exact ⟨s, hs, h.stored, hzero⟩
  | full line rest =>
    rw [hedit] at hrun
    obtain ⟨s, hs, h, hfull⟩ := hrun
    rw [hs, h.full hcap.symm hfull]
    refine ⟨s.store (len.toNat - 1 : Nat) 0, rfl, hfull, ?_, Function.update_self ..⟩
    rw [← hfull]
    exact h.stored.update

/-- "ab", a backspace, "c" and Enter: the line is "ac". -/
theorem termRead_edits_line :
    editLine enterKey backspaceKey 7 [] [97, 98, 0x7f, 99, 0x0d] = .entered [97, 99] [] ∧
      ∃ s : Reader, termRead (fun _ => 0) 8 [97, 98, 0x7f, 99, 0x0d] = .returned 3 s [] ∧
        Stored s.buf [97, 99] ∧ s.buf 2 = 0 :=
  ⟨by decide, (termRead_edits (fun _ => 0) 8 (by decide) [97, 98, 0x7f, 99, 0x0d]).2⟩

/-! ## The server -/

/-- The bytes that are stored once stay in the list. -/
theorem Reader.stores_run (len : UInt32) (s : Reader) (input : List UInt8) :
    s.stores ⊆ (s.run len input).reader.stores := by
  induction input generalizing s with
  | nil =>
    unfold Reader.run
    split_ifs
    · exact List.Subset.refl _
    · exact List.subset_append_left ..
  | cons c input ih =>
    have hturn : s.stores ⊆ (s.turn c).2.stores := by
      unfold Reader.turn
      dsimp only
      split_ifs <;> simp [Reader.store, Reader.termWrite]
    unfold Reader.run
    split_ifs
    · split
      · rename_i hs
        rw [hs] at hturn
        exact hturn
      · rename_i hs
        rw [hs] at hturn
        exact List.Subset.trans hturn (ih _)
    · exact List.subset_append_left ..

/-- A reader that has room goes on with a store behind the text. -/
theorem Reader.Holds.store_next {len : UInt32} (h : s.Holds cap text)
    (hlt : text.length < (len - 1).toNat) (hcap : cap ≤ (len - 1).toNat) (c : UInt8)
    (rest : List UInt8) : (text.length : Int) ∈ (s.run len (c :: rest)).reader.stores := by
  have hturn : s.i ∈ (s.turn c).2.stores := by
    unfold Reader.turn
    dsimp only
    split_ifs <;> simp [Reader.store, Reader.termWrite]
  rw [h.index] at hturn
  rw [Reader.run, if_pos ((h.more_iff hcap).mpr hlt)]
  split
  · rename_i hs
    rw [hs] at hturn
    exact hturn
  · rename_i hs
    rw [hs] at hturn
    exact Reader.stores_run len _ rest hturn

/-- A character is typed after a line of `TERM_BUF_SIZE` characters. -/
def Overfull (input : List UInt8) : Prop :=
  ∃ line c rest, editLine enterKey backspaceKey termBufSize [] input = .full line (c :: rest)

/-- For the length 0 there is no bound, except that no line has 2^32 characters. -/
theorem termRead_zero_within_iff (buf : Int → UInt8) (input : List UInt8) :
    (termRead buf 0 input).Within termBufSize ↔ ¬ Overfull input := by
  have hcap : termBufSize < ((0 : UInt32) - 1).toNat := by decide
  constructor
  · rintro hwithin ⟨line, c, rest, hedit⟩
    have hrun := (reader_start buf termBufSize).run hcap.le input
    rw [hedit] at hrun
    obtain ⟨s, hs, h, hfull⟩ := hrun
    have hstore := h.store_next (by omega) hcap.le c rest
    rw [← hs] at hstore
    have hlt := (hwithin.1 _ hstore).2
    omega
  · intro hover
    refine (reader_start buf termBufSize).within hcap.le le_rfl input
      fun line rest hedit s h hfull => ?_
    cases rest with
    | cons c rest => exact absurd ⟨line, c, rest, hedit⟩ hover
    | nil =>
      have hmore : s.more 0 = true := (h.more_iff hcap.le).mpr (by omega)
      rw [Reader.run, if_pos hmore]
      exact ⟨h.stores, fun _ hreply => by cases hreply⟩

/-- The terminal server and its reply. For every request to read that passes the check of its
    length, and all that is typed, `term_read` stores only to `reply->buf`, and `reply->len`
    counts bytes of it, exactly if the length is not 0, or nobody types on behind a line of
    `TERM_BUF_SIZE` characters. -/
theorem terminal_within_reply_iff (msg : Nat → UInt8) (htype : reqType msg = termInput)
    (hlen : (reqLen msg).toNat ≤ termBufSize) (input : List UInt8) :
    ∃ r, terminalTurn msg input = .ok (.reads r) ∧
      (r.Within termBufSize ↔ reqLen msg ≠ 0 ∨ ¬ Overfull input) := by
  have hcheck : ¬ reqLen msg > 512 := by
    rw [gt_iff_lt, UInt32.lt_iff_toNat_lt, Nat.not_lt]
    exact hlen
  refine ⟨termRead (fun k => msg (4 + k).toNat) (reqLen msg) input, ?_, ?_⟩
  · unfold terminalTurn
    rw [if_neg hcheck, if_pos htype]
  · by_cases hzero : reqLen msg = 0
    · rw [hzero, termRead_zero_within_iff]
      simp
    · have hpos : 1 ≤ (reqLen msg).toNat :=
        Nat.one_le_iff_ne_zero.mpr fun h => hzero (UInt32.toNat_inj.mp h)
      obtain ⟨hstores, hreply⟩ := termRead_within (fun k => msg (4 + k).toNat) hpos input
      refine iff_of_true ⟨fun k hk => ?_, fun reply hr => (hreply reply hr).trans hlen⟩ (.inl hzero)
      have hk := hstores k hk
      omega

/-- A request to read at most 8 bytes: there is no input that leaves the reply. -/
theorem terminal_within_reply_eight : ∃ r : Reading,
    terminalTurn (fun n => if n = 4 then 8 else 0) [97, 98, 0x0d] = .ok (.reads r) ∧
      r.Within termBufSize := by
  obtain ⟨r, hturn, hiff⟩ := terminal_within_reply_iff (fun n => if n = 4 then 8 else 0)
    (by decide) (by decide) [97, 98, 0x0d]
  exact ⟨r, hturn, hiff.mpr (.inl (by decide))⟩

/-- With the length 0, a line that is too long for the reply is stored and counted all the
    same. -/
theorem termRead_zero_long (buf : Int → UInt8) {first more : List UInt8}
    (hfirst : first.length = termBufSize) (henter : enterKey ∉ first ++ c :: more)
    (hback : backspaceKey ∉ first ++ c :: more) (hlt : (first ++ c :: more).length < 2 ^ 32 - 1) :
    (termBufSize : Int) ∈ (termRead buf 0 (first ++ c :: more ++ [enterKey])).reader.stores ∧
      ∃ reply, (termRead buf 0 (first ++ c :: more ++ [enterKey])).reply = some reply ∧
        reply.len.toNat = (first ++ c :: more).length + 1 := by
  have hcap : termBufSize < ((0 : UInt32) - 1).toNat := by decide
  constructor
  · -- the reader stands behind 512 characters when the next one comes
    have hfull : editLine enterKey backspaceKey termBufSize []
        (first ++ c :: more ++ [enterKey]) = .full first (c :: more ++ [enterKey]) := by
      rw [List.append_assoc, editLine_append (fun h => henter (List.mem_append_left _ h))
        (fun h => hback (List.mem_append_left _ h)) hfirst.le]
      exact editLine_of_length_eq hfirst
    have hrun := (reader_start buf termBufSize).run hcap.le (first ++ c :: more ++ [enterKey])
    rw [hfull] at hrun
    obtain ⟨s, hs, h, hlength⟩ := hrun
    have hstore := h.store_next (by omega) hcap.le c (more ++ [enterKey])
    rw [← List.cons_append, ← hs, hlength] at hstore
    exact hstore
  · have hentered : editLine enterKey backspaceKey ((0 : UInt32) - 1).toNat []
        (first ++ c :: more ++ [enterKey]) = .entered (first ++ c :: more) [] := by
      rw [editLine_append henter hback (Nat.le_of_lt hlt)]
      exact editLine_enter hlt
    have hrun := (reader_start buf _).run (Nat.le_refl ((0 : UInt32) - 1).toNat)
      (first ++ c :: more ++ [enterKey])
    rw [hentered] at hrun
    obtain ⟨s, hs, _⟩ := hrun
    refine ⟨_, congrArg Reading.reply hs, ?_⟩
    show (UInt32.ofInt (if _ then 0 else ((first ++ c :: more).length : Int) + 1)).toNat = _
    rw [if_neg (by simp)]
    simp only [UInt32.ofInt, UInt32.toNat_ofNat']
    omega

/-- A request to read 0 bytes, and 513 characters before Enter: a byte behind `reply->buf` is
    overwritten, and the client copies 514 bytes out of a reply that has 512. -/
theorem zero_length_leaves_reply :
    reqType (fun _ => 0) = termInput ∧ (reqLen fun _ => 0).toNat ≤ termBufSize ∧
      ∃ r : Reading,
        terminalTurn (fun _ => 0) (List.replicate termBufSize 97 ++ [97] ++ [enterKey]) =
            .ok (.reads r) ∧
          (termBufSize : Int) ∈ r.reader.stores ∧
            ∃ reply, r.reply = some reply ∧ reply.len.toNat = 514 := by
  have hmem : ∀ n, ∀ c ∈ List.replicate n (97 : UInt8) ++ [97], c = 97 := by
    intro n c hc
    rcases List.mem_append.mp hc with hc | hc
    · exact (List.mem_replicate.mp hc).2
    · exact List.mem_singleton.mp hc
  have hlength : (List.replicate termBufSize (97 : UInt8) ++ [97]).length = 513 := by
    rw [List.length_append, List.length_replicate, List.length_singleton, termBufSize]
  have hlong := termRead_zero_long (fun _ => 0) (List.length_replicate ..)
    (fun h => absurd (hmem _ _ h) (by decide)) (fun h => absurd (hmem _ _ h) (by decide))
    (by rw [hlength]; decide)
  rw [hlength] at hlong
  exact ⟨by decide, by decide, _, rfl, hlong⟩

end Egos.Apps
