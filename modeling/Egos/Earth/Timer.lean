import Egos.Lib.Halves
import Egos.Lib.Writes

/-!
# The CPU Timer

`mtime_get` and `mtimecmp_set` of the timer driver access 64-bit timer registers in two
halves while the counter runs on. The counter is a value for every register access; nothing
is known about it but that it does not decrease.

- `mtime_get` reads the high half, the low half and the high half again. If the high half has
  not changed, the low half belongs to it (`mtimeGet_eq`). A turn that fails has seen the high
  half grow, so the loop ends (`mtimeGet_isSome`).
- `mtimecmp_set` makes the high half as large as possible before it touches the low half, so
  no store makes the compare value smaller than both the old and the new one
  (`lt_compareValue`).
-/

namespace Egos.Earth

open Egos.Lib

/-- The counter `mtime`, as each access to the timer registers finds it. -/
structure Counter where
  value : Nat → UInt64
  mono : ∀ i j, i ≤ j → value i ≤ value j

/-! ## Code -/

/-- `MTIMECMP_BASE`, that is `CLINT_BASE + 0x4000` -/
def mtimecmpBase : UInt32 := 0x02000000 + 0x4000

/-- `QUANTUM` -/
def quantum : UInt64 := 1000000

/-- The loop of `mtime_get`, whose turn accesses the counter at the instants `now`, `now + 1`
    and `now + 2`. With the result comes the instant at which its low half was read. -/
def mtimeGet (mtime : Counter) : Nat → Nat → Option (UInt64 × Nat)
  | 0, _ => none
  | fuel + 1, now =>
      let high := highHalf (mtime.value now)
      let low := lowHalf (mtime.value (now + 1))
      if highHalf (mtime.value (now + 2)) ≠ high then mtimeGet mtime fuel (now + 3)
      else some (join high low, now + 1)

/-- The stores of `mtimecmp_set`: register address and value, first to last. -/
def mtimecmpSet (time : UInt64) (coreId : UInt32) : List (UInt32 × UInt32) :=
  [(mtimecmpBase + coreId * 8 + 4, 0xFFFFFFFF),
   (mtimecmpBase + coreId * 8 + 0, time.toUInt32),
   (mtimecmpBase + coreId * 8 + 4, (time >>> 32).toUInt32)]

/-- The stores of `timer_reset`, called at the instant `now`. -/
def timerReset (mtime : Counter) (fuel now : Nat) (coreId : UInt32) :
    Option (List (UInt32 × UInt32)) :=
  (mtimeGet mtime fuel now).map fun time => mtimecmpSet (time.1 + quantum) coreId

/-- The 64-bit value the hardware compares the counter of a core with. -/
def compareValue (regs : UInt32 → UInt32) (coreId : UInt32) : UInt64 :=
  join (regs (mtimecmpBase + coreId * 8 + 4)) (regs (mtimecmpBase + coreId * 8 + 0))

/-! ## Reading the counter -/

/-- A high half that has not changed over a turn belongs to the low half read in between. -/
theorem join_eq_of_same (mtime : Counter) {now : Nat}
    (h : highHalf (mtime.value (now + 2)) = highHalf (mtime.value now)) :
    join (highHalf (mtime.value now)) (lowHalf (mtime.value (now + 1))) =
      mtime.value (now + 1) := by
  have hle : highHalf (mtime.value now) ≤ highHalf (mtime.value (now + 1)) :=
    highHalf_mono (mtime.mono _ _ (by omega))
  have hge : highHalf (mtime.value (now + 1)) ≤ highHalf (mtime.value (now + 2)) :=
    highHalf_mono (mtime.mono _ _ (by omega))
  rw [UInt32.le_antisymm hle (h ▸ hge), join_halves]

/-- The loop only returns a value that the counter had, at the access to its low half. -/
theorem mtimeGet_eq {mtime : Counter} {fuel now t : Nat} {v : UInt64}
    (h : mtimeGet mtime fuel now = some (v, t)) : v = mtime.value t ∧ now ≤ t := by
  induction fuel generalizing now with
  | zero => exact absurd h (by simp [mtimeGet])
  | succ fuel ih =>
    rw [mtimeGet] at h
    by_cases hsame : highHalf (mtime.value (now + 2)) = highHalf (mtime.value now)
    · simp only [hsame, ne_eq, not_true_eq_false, if_false, Option.some.injEq,
        Prod.mk.injEq] at h
      obtain ⟨rfl, rfl⟩ := h
      exact ⟨join_eq_of_same mtime hsame, Nat.le_succ now⟩
    · simp only [hsame, ne_eq, not_false_eq_true, if_true] at h
      obtain ⟨hv, ht⟩ := ih h
      exact ⟨hv, by omega⟩

/-- Every turn but the last has seen the high half grow, and it cannot grow beyond its 32
    bits. -/
theorem mtimeGet_isSome (mtime : Counter) {fuel now : Nat}
    (h : 2 ^ 32 ≤ fuel + (highHalf (mtime.value now)).toNat) :
    (mtimeGet mtime fuel now).isSome := by
  induction fuel generalizing now with
  | zero =>
    have hlt := (highHalf (mtime.value now)).toNat_lt
    omega
  | succ fuel ih =>
    rw [mtimeGet]
    by_cases hsame : highHalf (mtime.value (now + 2)) = highHalf (mtime.value now)
    · simp [hsame]
    · simp only [hsame, ne_eq, not_false_eq_true, if_true]
      apply ih
      have hle : highHalf (mtime.value now) ≤ highHalf (mtime.value (now + 2)) :=
        highHalf_mono (mtime.mono _ _ (by omega))
      have hnext : highHalf (mtime.value (now + 2)) ≤ highHalf (mtime.value (now + 3)) :=
        highHalf_mono (mtime.mono _ _ (by omega))
      rw [UInt32.le_iff_toNat_le] at hle hnext
      rw [← UInt32.toNat_inj] at hsame
      omega

/-! ## Setting the compare value -/

/-- The two registers of a core are different. -/
theorem high_ne_low (coreId : UInt32) :
    mtimecmpBase + coreId * 8 + 4 ≠ mtimecmpBase + coreId * 8 + 0 := by
  intro h
  exact absurd ((UInt32.add_right_inj _).mp h) (by decide)

section Stores

variable (regs : UInt32 → UInt32) (coreId value : UInt32)

@[simp] theorem compareValue_update_high :
    compareValue (Function.update regs (mtimecmpBase + coreId * 8 + 4) value) coreId =
      join value (regs (mtimecmpBase + coreId * 8 + 0)) := by
  rw [compareValue, Function.update_self, Function.update_of_ne (high_ne_low coreId).symm]

@[simp] theorem compareValue_update_low :
    compareValue (Function.update regs (mtimecmpBase + coreId * 8 + 0) value) coreId =
      join (regs (mtimecmpBase + coreId * 8 + 4)) value := by
  rw [compareValue, Function.update_self, Function.update_of_ne (high_ne_low coreId)]

end Stores

/-- A value below the old compare value and the new one stays below the compare value after
    each store of `mtimecmp_set`. -/
theorem lt_compareValue {regs : UInt32 → UInt32} {coreId : UInt32} {time c : UInt64}
    (hold : c < compareValue regs coreId) (hnew : c < time) (k : Nat) :
    c < compareValue (writes ((mtimecmpSet time coreId).take k) regs) coreId := by
  have hhigh : (time >>> 32).toUInt32 = highHalf time := rfl
  have hlow : time.toUInt32 = lowHalf time := rfl
  match k with
  | 0 => exact hold
  | 1 =>
    -- the old low half under the largest high half
    simp only [mtimecmpSet, List.take, writes, List.foldl, compareValue_update_high]
    exact UInt64.lt_of_lt_of_le hold (join_le_join_max _ _)
  | 2 =>
    -- the new low half under the largest high half
    simp only [mtimecmpSet, List.take, writes, List.foldl, compareValue_update_low,
      Function.update_self, hlow]
    apply UInt64.lt_of_lt_of_le hnew
    conv_lhs => rw [← join_halves time]
    exact join_le_join_max _ _
  | k + 3 =>
    have hall : (mtimecmpSet time coreId).take (k + 3) = mtimecmpSet time coreId :=
      List.take_of_length_le (by simp [mtimecmpSet])
    rw [hall]
    simp only [mtimecmpSet, writes, List.foldl, compareValue_update_high, Function.update_self,
      hhigh, hlow, join_halves]
    exact hnew

/-! ## No tearing -/

/-- What `mtime_get` returns is the counter at the access to its low half, and it does return.
    While `mtimecmp_set` reprograms a core, a counter value below the old and the new compare
    value is below the one in the registers after every store; `timer_reset` programs a
    quantum more than a value of the counter it has seen. -/
theorem timer_registers_not_torn (mtime : Counter) :
    (∀ fuel now v t, mtimeGet mtime fuel now = some (v, t) → v = mtime.value t ∧ now ≤ t) ∧
    (∀ fuel now, 2 ^ 32 ≤ fuel → (mtimeGet mtime fuel now).isSome) ∧
    (∀ (regs : UInt32 → UInt32) (coreId : UInt32) (time c : UInt64),
      c < compareValue regs coreId → c < time →
      ∀ k, 1 ≤ k → k ≤ 3 →
        c < compareValue (writes ((mtimecmpSet time coreId).take k) regs) coreId) ∧
    (∀ fuel now coreId stores, timerReset mtime fuel now coreId = some stores →
      ∃ t, now ≤ t ∧ stores = mtimecmpSet (mtime.value t + quantum) coreId) := by
  refine ⟨?_, ?_, ?_, ?_⟩
  · intro fuel now v t h
    exact mtimeGet_eq h
  · intro fuel now hfuel
    exact mtimeGet_isSome mtime (by omega)
  · intro regs coreId time c hold hnew k _ _
    exact lt_compareValue hold hnew k
  · intro fuel now coreId stores h
    obtain ⟨⟨v, t⟩, hget, rfl⟩ := Option.map_eq_some_iff.mp h
    obtain ⟨rfl, ht⟩ := mtimeGet_eq hget
    exact ⟨t, ht, rfl⟩

/-- A counter with a carry into the high half after its second access. -/
def carryCounter : Counter where
  value i := if i ≤ 1 then 0xFFFFFFFF else 0x100000000
  mono i j hij := by
    by_cases hi : i ≤ 1
    · by_cases hj : j ≤ 1
      · simp [hi, hj]
      · simp only [hi, hj, if_true, if_false]
        decide
    · have hj : ¬ j ≤ 1 := by omega
      simp [hi, hj]

/-- The first turn of `mtime_get` meets the carry, the second returns. A compare value that is
    moved from `0x1FFFFFFFF` to `0x200000000` stays above the counter. -/
theorem timer_registers_not_torn_carry :
    mtimeGet carryCounter 2 0 = some (0x100000000, 4) ∧
      (0x100000000 : UInt64) = carryCounter.value 4 ∧
      (0x100000000 : UInt64) < compareValue (writes ((mtimecmpSet 0x200000000 0).take 2)
        fun reg => if reg = 0x2004004 then 1 else 0xFFFFFFFF) 0 := by
  have hget : mtimeGet carryCounter 2 0 = some (0x100000000, 4) := by decide
  refine ⟨hget, ((timer_registers_not_torn carryCounter).1 2 0 _ 4 hget).1, ?_⟩
  exact (timer_registers_not_torn carryCounter).2.2.1 _ 0 0x200000000 0x100000000 (by decide)
    (by decide) 2 (by decide) (by decide)

end Egos.Earth
