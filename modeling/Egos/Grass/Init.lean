import Egos.Earth.Timer

/-!
# The Timer Example of the Grass Layer

`grass_entry` of `init.c` arms the timer once and `handler` arms it again on every timer
interrupt. Its own `local_mtime_get` reads the low word of the counter, then the high word,
once each and as signed integers.

A call gives a value between the counter at its two reads if the low word it reads has bit 31
clear and is not above the low word at the second read (`Clean`). Otherwise a negative low
word wipes out the high word, or a carry between the reads is counted twice.
`handlers_sound_iff` says that the handlers work over a whole run exactly if all their calls
are clean.
-/

namespace Egos.Grass.Init

open Egos.Lib Egos.Earth

/-! ## Code -/

/-- The instants of the two register reads of one call of `local_mtime_get`. -/
structure Call where
  lowAt : Nat
  highAt : Nat

def localMtimeGet (mtime : Counter) (call : Call) : Int64 :=
  let low : Int32 := (lowHalf (mtime.value call.lowAt)).toInt32
  let high : Int32 := (highHalf (mtime.value call.highAt)).toInt32
  (high.toInt64 <<< 32) ||| low.toInt64

/-- `QUANTUM` -/
def quantum : Int64 := 1000000

/-- The calls of `local_mtime_get` in one run of `handler`: for the test, for `last_time` and
    for the next interrupt. -/
structure Invocation where
  test : Call
  store : Call
  reset : Call

/-- The time `grass_entry` gives to `mtimecmp_set`. -/
def grassEntry (mtime : Counter) (boot : Call) : Int64 :=
  localMtimeGet mtime boot + quantum

/-- One run of `handler`: the new value of its static variable `last_time` and the time it
    gives to `mtimecmp_set`. The two further calls for the message before `FATAL` change
    nothing. -/
def handler (mtime : Counter) (inv : Invocation) (lastTime : Int64) :
    Except String (Int64 × Int64) :=
  if localMtimeGet mtime inv.test < lastTime then .error "timer overflow"
  else .ok (localMtimeGet mtime inv.store, localMtimeGet mtime inv.reset + quantum)

/-- Handlers one after the other: the times given to `mtimecmp_set`. -/
def handlers (mtime : Counter) : List Invocation → Int64 → Except String (List Int64)
  | [], _ => .ok []
  | inv :: invs, lastTime => do
      let (lastTime, time) ← handler mtime inv lastTime
      let times ← handlers mtime invs lastTime
      pure (time :: times)

/-! ## Instants -/

def Invocation.calls (inv : Invocation) : List Call := [inv.test, inv.store, inv.reset]

/-- All calls of a run, in order. -/
def callsOf (boot : Call) (invs : List Invocation) : List Call :=
  boot :: invs.flatMap Invocation.calls

/-- The register reads of a run happen in the order of the code. -/
def InOrder (calls : List Call) : Prop :=
  (calls.flatMap fun call => [call.lowAt, call.highAt]).Pairwise (· ≤ ·)

/-! ## One call -/

/-- The value is between the counter at the first read and at the second. -/
def Between (mtime : Counter) (call : Call) : Prop :=
  ((mtime.value call.lowAt).toNat : Int) ≤ (localMtimeGet mtime call).toInt ∧
    (localMtimeGet mtime call).toInt ≤ (mtime.value call.highAt).toNat

/-- Bit 31 of the low word is clear at the first read, and the low word at the second read is
    not below it. -/
def Clean (mtime : Counter) (call : Call) : Prop :=
  (lowHalf (mtime.value call.lowAt)).toNat < 2 ^ 31 ∧
    lowHalf (mtime.value call.lowAt) ≤ lowHalf (mtime.value call.highAt)

section OneCall

variable {mtime : Counter} {call : Call}

theorem toBitVec_localMtimeGet :
    (localMtimeGet mtime call).toBitVec =
      (highHalf (mtime.value call.highAt)).toBitVec.signExtend 64 <<< 32 |||
        (lowHalf (mtime.value call.lowAt)).toBitVec.signExtend 64 := by
  rw [localMtimeGet, Int64.toBitVec_or, Int64.toBitVec_shiftLeft, Int32.toBitVec_toInt64,
    Int32.toBitVec_toInt64, UInt32.toBitVec_toInt32, UInt32.toBitVec_toInt32]
  rfl

theorem msb_toBitVec (x : UInt32) : x.toBitVec.msb = decide (2 ^ 31 ≤ x.toNat) := by
  rw [BitVec.msb_eq_decide]
  rfl

/-- A low word with bit 31 set makes the value negative, whatever the high word is. -/
theorem localMtimeGet_of_ge (h : 2 ^ 31 ≤ (lowHalf (mtime.value call.lowAt)).toNat) :
    (localMtimeGet mtime call).toInt = (lowHalf (mtime.value call.lowAt)).toNat - 2 ^ 32 := by
  have hmsb : (lowHalf (mtime.value call.lowAt)).toBitVec.msb = true := by
    rw [msb_toBitVec]
    exact decide_eq_true h
  rw [Int64.toInt, toBitVec_localMtimeGet, signExtend_or_of_msb hmsb,
    BitVec.toInt_signExtend_of_le (by decide), BitVec.toInt_eq_toNat_cond, if_neg]
  · rfl
  · show ¬ 2 * (lowHalf (mtime.value call.lowAt)).toNat < 2 ^ 32
    omega

/-- With bit 31 clear, the value is the low word of the first read under the high word of the
    second. -/
theorem localMtimeGet_of_lt (h63 : (mtime.value call.highAt).toNat < 2 ^ 63)
    (h : (lowHalf (mtime.value call.lowAt)).toNat < 2 ^ 31) :
    (localMtimeGet mtime call).toInt =
      (highHalf (mtime.value call.highAt)).toNat * 2 ^ 32 +
        (lowHalf (mtime.value call.lowAt)).toNat := by
  have hmsb : (lowHalf (mtime.value call.lowAt)).toBitVec.msb = false := by
    rw [msb_toBitVec]
    exact decide_eq_false (not_le.mpr h)
  have hhigh := toNat_highHalf (mtime.value call.highAt)
  have hnat : ((highHalf (mtime.value call.highAt)).toBitVec ++
      (lowHalf (mtime.value call.lowAt)).toBitVec).toNat =
      (highHalf (mtime.value call.highAt)).toNat * 2 ^ 32 +
        (lowHalf (mtime.value call.lowAt)).toNat := by
    rw [BitVec.toNat_append, ← Nat.shiftLeft_add_eq_or_of_lt (BitVec.isLt _), Nat.shiftLeft_eq]
    rfl
  rw [Int64.toInt, toBitVec_localMtimeGet, signExtend_or_of_not_msb hmsb,
    BitVec.toInt_eq_toNat_cond, hnat, if_pos (by omega)]
  push_cast
  rfl

/-- A call is between its two reads exactly if it is clean. -/
theorem between_iff (h63 : ∀ t, (mtime.value t).toNat < 2 ^ 63)
    (horder : call.lowAt ≤ call.highAt) : Between mtime call ↔ Clean mtime call := by
  have hmono := UInt64.le_iff_toNat_le.mp (mtime.mono _ _ horder)
  have hhigh := toNat_highHalf (mtime.value call.highAt)
  have hlow := toNat_lowHalf (mtime.value call.lowAt)
  have hlow' := toNat_lowHalf (mtime.value call.highAt)
  have hlt := (lowHalf (mtime.value call.lowAt)).toNat_lt
  rw [Between, Clean, UInt32.le_iff_toNat_le]
  rcases Nat.lt_or_ge (lowHalf (mtime.value call.lowAt)).toNat (2 ^ 31) with hbit | hbit
  · rw [localMtimeGet_of_lt (h63 _) hbit]
    omega
  · rw [localMtimeGet_of_ge hbit]
    omega

/-- The time of the next interrupt does not overflow: with bit 31 of the low word clear there
    is room for a quantum below `2 ^ 63`. -/
theorem Clean.toInt_add_quantum (hclean : Clean mtime call)
    (h63 : (mtime.value call.highAt).toNat < 2 ^ 63) :
    (localMtimeGet mtime call + quantum).toInt = (localMtimeGet mtime call).toInt + 1000000 := by
  have hvalue := localMtimeGet_of_lt h63 hclean.1
  have hhigh := toNat_highHalf (mtime.value call.highAt)
  have hbit := hclean.1
  have hquantum : quantum.toInt = 1000000 := rfl
  rw [Int64.toInt_add, hquantum, hvalue]
  apply Int.bmod_eq_of_le <;> omega

/-- The time of the next interrupt is not in the past. -/
theorem Clean.le_reset (hclean : Clean mtime call)
    (h63 : ∀ t, (mtime.value t).toNat < 2 ^ 63) (horder : call.lowAt ≤ call.highAt) :
    ((mtime.value call.lowAt).toNat : Int) ≤ (localMtimeGet mtime call + quantum).toInt := by
  have hbetween := (between_iff h63 horder).mpr hclean
  rw [hclean.toInt_add_quantum (h63 _)]
  exact hbetween.1.trans (Int.le_add_of_nonneg_right (by decide))

end OneCall

/-! ## Runs of the handler -/

theorem InOrder.of_cons {call : Call} {calls : List Call} (h : InOrder (call :: calls)) :
    call.lowAt ≤ call.highAt ∧ (∀ later ∈ calls, call.highAt ≤ later.lowAt) ∧
      InOrder calls := by
  simp only [InOrder, List.flatMap_cons, List.cons_append, List.nil_append,
    List.pairwise_cons, List.mem_cons, List.mem_flatMap, forall_eq_or_imp] at h
  obtain ⟨⟨hcall, -⟩, hlater, hrest⟩ := h
  refine ⟨hcall, ?_, hrest⟩
  intro later hmem
  exact hlater later.lowAt ⟨later, hmem, by simp⟩

theorem InOrder.of_mem {call : Call} {calls : List Call} (h : InOrder calls)
    (hmem : call ∈ calls) : call.lowAt ≤ call.highAt := by
  induction calls with
  | nil => exact absurd hmem List.not_mem_nil
  | cons first rest ih =>
    obtain ⟨hfirst, -, hrest⟩ := h.of_cons
    rcases List.mem_cons.mp hmem with rfl | hmem
    · exact hfirst
    · exact ih hrest hmem

/-- Clean calls never reach the `FATAL` of the handler. The induction is on the handlers to
    come; `last_time` stays behind the counter at every later read. -/
theorem handlers_ok {mtime : Counter} (h63 : ∀ t, (mtime.value t).toNat < 2 ^ 63)
    {invs : List Invocation} {lastTime : Int64}
    (horder : InOrder (invs.flatMap Invocation.calls))
    (hclean : ∀ call ∈ invs.flatMap Invocation.calls, Clean mtime call)
    (hlast : ∀ call ∈ invs.flatMap Invocation.calls,
      lastTime.toInt ≤ (mtime.value call.lowAt).toNat) :
    handlers mtime invs lastTime =
      .ok (invs.map fun inv => localMtimeGet mtime inv.reset + quantum) := by
  induction invs generalizing lastTime with
  | nil => rfl
  | cons inv invs ih =>
    have hsplit : (inv :: invs).flatMap Invocation.calls =
        inv.test :: inv.store :: inv.reset :: invs.flatMap Invocation.calls := rfl
    rw [hsplit] at horder hclean hlast
    obtain ⟨htest, -, horder⟩ := horder.of_cons
    obtain ⟨hstore, hafter, horder⟩ := horder.of_cons
    obtain ⟨-, -, horder⟩ := horder.of_cons
    -- the test reads a time that is not before `last_time`
    have hge : ¬ localMtimeGet mtime inv.test < lastTime := by
      have hbetween := (between_iff h63 htest).mpr (hclean _ (by simp))
      rw [Int64.lt_iff_toInt_lt, not_lt]
      exact (hlast inv.test (by simp)).trans hbetween.1
    -- the time stored is not after any later read
    have hlater : ∀ call ∈ invs.flatMap Invocation.calls,
        (localMtimeGet mtime inv.store).toInt ≤ (mtime.value call.lowAt).toNat := by
      intro call hmem
      have hbetween := (between_iff h63 hstore).mpr (hclean _ (by simp))
      have hle := mtime.mono _ _ (hafter call (by simp [hmem]))
      rw [UInt64.le_iff_toNat_le] at hle
      exact hbetween.2.trans (Int.ofNat_le.mpr hle)
    have hrest := ih horder (fun call hmem => hclean call (by simp [hmem])) hlater
    simp only [handlers, handler, hge, if_false, List.map_cons]
    show (handlers mtime invs (localMtimeGet mtime inv.store) >>= _) = _
    rw [hrest]
    rfl

/-- What the timer example relies on over a run: every value read is between the counter at
    the two reads, no handler ends in `FATAL`, and every time given to `mtimecmp_set` is at or
    after the counter at the first read. -/
def Sound (mtime : Counter) (boot : Call) (invs : List Invocation) : Prop :=
  (∀ call ∈ callsOf boot invs, Between mtime call) ∧
    ((mtime.value boot.lowAt).toNat : Int) ≤ (grassEntry mtime boot).toInt ∧
    ∃ times, handlers mtime invs 0 = .ok times ∧
      List.Forall₂ (fun inv time =>
        ((mtime.value inv.reset.lowAt).toNat : Int) ≤ Int64.toInt time) invs times

/-- Over every run the timer example works exactly if each of its calls is clean. -/
theorem handlers_sound_iff (mtime : Counter) (h63 : ∀ t, (mtime.value t).toNat < 2 ^ 63)
    (boot : Call) (invs : List Invocation) (horder : InOrder (callsOf boot invs)) :
    Sound mtime boot invs ↔ ∀ call ∈ callsOf boot invs, Clean mtime call := by
  constructor
  · rintro ⟨hbetween, -, -⟩ call hmem
    exact (between_iff h63 (horder.of_mem hmem)).mp (hbetween call hmem)
  · intro hclean
    have htail : InOrder (invs.flatMap Invocation.calls) := horder.of_cons.2.2
    have hcleanTail : ∀ call ∈ invs.flatMap Invocation.calls, Clean mtime call :=
      fun call hmem => hclean call (List.mem_cons_of_mem boot hmem)
    refine ⟨?_, ?_, _, handlers_ok h63 htail hcleanTail ?_, ?_⟩
    · intro call hmem
      exact (between_iff h63 (horder.of_mem hmem)).mpr (hclean call hmem)
    · exact (hclean boot (by simp [callsOf])).le_reset h63 horder.of_cons.1
    · intro call _
      exact Int.natCast_nonneg _
    · rw [List.forall₂_map_right_iff, List.forall₂_same]
      intro inv hinv
      have hmem : inv.reset ∈ invs.flatMap Invocation.calls :=
        List.mem_flatMap.mpr ⟨inv, hinv, by simp [Invocation.calls]⟩
      exact (hcleanTail _ hmem).le_reset h63 (htail.of_mem hmem)

/-- A counter that stands still. -/
def still (c : UInt64) : Counter := ⟨fun _ => c, fun _ _ _ => UInt64.le_refl c⟩

/-- One handler after the boot, with eight reads one after the other. -/
def oneInterrupt : List Invocation := [⟨⟨2, 3⟩, ⟨4, 5⟩, ⟨6, 7⟩⟩]

theorem handlers_sound_iff_five : Sound (still 5) ⟨0, 1⟩ oneInterrupt ∧
    handlers (still 5) oneInterrupt 0 = .ok [1000005] := by
  refine ⟨?_, by rfl⟩
  have h63 : ∀ t, ((still 5).value t).toNat < 2 ^ 63 :=
    fun _ => (by decide : (5 : UInt64).toNat < 2 ^ 63)
  apply (handlers_sound_iff (still 5) h63 ⟨0, 1⟩ oneInterrupt ?_).mpr
  · intro call _
    exact ⟨(by decide : (lowHalf 5).toNat < 2 ^ 31), UInt32.le_refl (lowHalf 5)⟩
  · simp [InOrder, callsOf, oneInterrupt, Invocation.calls]

/-- At counter value `0x80000000` the first interrupt ends in the `FATAL`. -/
theorem handlers_fatal_at_bit31 :
    InOrder (callsOf ⟨0, 1⟩ oneInterrupt) ∧ (0x80000000 : UInt64).toNat < 2 ^ 63 ∧
      localMtimeGet (still 0x80000000) ⟨0, 1⟩ = -0x80000000 ∧
      handlers (still 0x80000000) oneInterrupt 0 = .error "timer overflow" ∧
      ¬ Sound (still 0x80000000) ⟨0, 1⟩ oneInterrupt := by
  have hfatal : handlers (still 0x80000000) oneInterrupt 0 = .error "timer overflow" := by
    rfl
  refine ⟨?_, by decide, by decide, hfatal, ?_⟩
  · simp [InOrder, callsOf, oneInterrupt, Invocation.calls]
  · rintro ⟨-, -, times, hok, -⟩
    rw [hfatal] at hok
    exact absurd hok (by simp)

end Egos.Grass.Init
