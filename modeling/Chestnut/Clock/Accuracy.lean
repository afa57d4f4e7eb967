import Chestnut.Clock.Stable
import Chestnut.Clock.Torn
import Mathlib.Algebra.Order.Field.Power
import Mathlib.Algebra.Order.Floor.Semifield
import Mathlib.Data.Nat.Cast.Order.Field
import Mathlib.Data.Rat.Floor
import Mathlib.Tactic.FieldSimp
import Mathlib.Tactic.Linarith
import Mathlib.Tactic.Positivity

/-!
# The error of a clock reading

The records of the hypervisor describe a clock that advances by a fixed fraction
of a nanosecond per cycle. `ProcessorNano` rounds that fraction down twice, and
`sys_time` is itself rounded down: a reading is never ahead of the clock and less
than 3 ns behind it, as long as the clock has not run for 2^63 ns.

## Implementation notes

The clock is stated in rational numbers. The hypervisor normalises the multiplier,
so that its top bit is set; without that bit the shift to the left could lose
cycles long before the nanoseconds overflow.
-/

namespace Chestnut

/-- A clock of fixed rate, as the hypervisor announces it. -/
structure HostClock where
  mul : BitVec 32
  shift : BitVec 8
  /-- The time at the counter value 0. -/
  origin : ℚ
  normalized : 2 ^ 31 ≤ mul.toNat
  shift_lt : shift.toInt.natAbs < 64

namespace HostClock

variable (k : HostClock)

/-- Nanoseconds per cycle. -/
def rate : ℚ := 2 ^ k.shift.toInt * k.mul.toNat / 2 ^ 32

/-- The time at a counter value. -/
def timeAt (tsc : Nat) : ℚ := k.origin + tsc * k.rate

/-- A record of this clock: its rate, and the time at `tsc_ts` in whole
nanoseconds. -/
def Follows (r : TimeRecord) : Prop :=
  r .tscToSysMul = k.mul ∧ r .tscShift = k.shift ∧
    (BitVec.toNat (r .sysTime) : ℚ) ≤ k.timeAt (BitVec.toNat (r .tscTs)) ∧
    k.timeAt (BitVec.toNat (r .tscTs)) < BitVec.toNat (r .sysTime) + 1

instance (r : TimeRecord) : Decidable (k.Follows r) := inferInstanceAs (Decidable (_ ∧ _))

/-- What `ProcessorNano` computes for `d` cycles when nothing overflows. -/
def nanos (d : Nat) : Nat :=
  (if 0 < k.shift.toInt then d * 2 ^ k.shift.toInt.toNat else d / 2 ^ (-k.shift.toInt).toNat) *
    k.mul.toNat / 2 ^ 32

variable {k}

theorem rate_nonneg : 0 ≤ k.rate := by
  unfold rate
  positivity

theorem timeAt_mono {a b : Nat} (h : a ≤ b) : k.timeAt a ≤ k.timeAt b := by
  have hcast : (a : ℚ) ≤ b := Nat.cast_le.mpr h
  have hmul := mul_le_mul_of_nonneg_right hcast (rate_nonneg (k := k))
  unfold timeAt
  linarith

theorem timeAt_sub {a b : Nat} (h : a ≤ b) :
    k.timeAt b = k.timeAt a + ((b - a : Nat) : ℚ) * k.rate := by
  rw [timeAt, timeAt, Nat.cast_sub h]
  ring

theorem lt_cast_div_add_one (a b : Nat) : (a : ℚ) / b < ((a / b : Nat) : ℚ) + 1 := by
  rw [← Nat.floor_div_eq_div (K := ℚ)]
  exact Nat.lt_floor_add_one _

/-- Rounded down, and less than 2 ns off. -/
theorem nanos_near (d : Nat) : (k.nanos d : ℚ) ≤ d * k.rate ∧ d * k.rate < k.nanos d + 2 := by
  have hmul : (k.mul.toNat : ℚ) < 2 ^ 32 := by exact_mod_cast k.mul.isLt
  unfold nanos rate
  split
  · next hpos =>
      -- a shift to the left is exact: only the division rounds
      obtain ⟨n, hn⟩ := Int.eq_ofNat_of_zero_le hpos.le
      rw [hn, Int.toNat_natCast, zpow_natCast]
      have hle := Nat.cast_div_le (α := ℚ) (m := d * 2 ^ n * k.mul.toNat) (n := 2 ^ 32)
      have hlt := lt_cast_div_add_one (d * 2 ^ n * k.mul.toNat) (2 ^ 32)
      have hassoc : (d : ℚ) * (2 ^ n * k.mul.toNat / 2 ^ 32) =
          ((d * 2 ^ n * k.mul.toNat : Nat) : ℚ) / ((2 ^ 32 : Nat) : ℚ) := by
        push_cast
        ring
      rw [hassoc]
      exact ⟨hle, hlt.trans (by linarith)⟩
  · next hneg =>
      obtain ⟨n, hn⟩ : ∃ n : Nat, k.shift.toInt = -(n : Int) :=
        ⟨(-k.shift.toInt).toNat, by omega⟩
      rw [hn, neg_neg, Int.toNat_natCast, zpow_neg, zpow_natCast]
      have hle := Nat.cast_div_le (α := ℚ) (m := d / 2 ^ n * k.mul.toNat) (n := 2 ^ 32)
      have hlt := lt_cast_div_add_one (d / 2 ^ n * k.mul.toNat) (2 ^ 32)
      have hcycles := Nat.cast_div_le (α := ℚ) (m := d) (n := 2 ^ n)
      have hlost := lt_cast_div_add_one d (2 ^ n)
      push_cast at hle hlt hcycles hlost
      have hassoc : (d : ℚ) * ((2 ^ n)⁻¹ * k.mul.toNat / 2 ^ 32) =
          d / 2 ^ n * (k.mul.toNat / 2 ^ 32) := by
        ring
      have hrate : (k.mul.toNat : ℚ) / 2 ^ 32 < 1 := by
        rw [div_lt_one (by positivity)]
        exact hmul
      have hrate0 : (0 : ℚ) ≤ (k.mul.toNat : ℚ) / 2 ^ 32 := by positivity
      rw [mul_div_assoc] at hle hlt
      rw [hassoc]
      constructor
      · exact hle.trans (mul_le_mul_of_nonneg_right hcycles hrate0)
      · -- the cycles that the shift drops are worth less than one nanosecond
        calc (d : ℚ) / 2 ^ n * (k.mul.toNat / 2 ^ 32)
            ≤ (((d / 2 ^ n : Nat) : ℚ) + 1) * (k.mul.toNat / 2 ^ 32) :=
              mul_le_mul_of_nonneg_right hlost.le hrate0
          _ = ((d / 2 ^ n : Nat) : ℚ) * (k.mul.toNat / 2 ^ 32) + k.mul.toNat / 2 ^ 32 := by ring
          _ < _ := by linarith

end HostClock

/-! ### The machine's arithmetic -/

/-- The product never overflows: the shift by 32 takes the multiplier's width away. -/
theorem toNat_mulShift (time : BitVec 64) (mul : BitVec 32) :
    (mulShift time mul).toNat = time.toNat * mul.toNat / 2 ^ 32 := by
  have hprod : time.toNat * mul.toNat < 2 ^ 64 * 2 ^ 32 :=
    Nat.mul_lt_mul'' time.isLt mul.isLt
  rw [mulShift, BitVec.toNat_ofNat, Nat.mod_eq_of_lt]
  exact Nat.div_lt_of_lt_mul (by rwa [Nat.mul_comm (2 ^ 32)])

theorem toNat_shiftCycles {time : BitVec 64} {shift : Int} (hshift : shift.natAbs < 64)
    (hfits : 0 < shift → time.toNat * 2 ^ shift.toNat < 2 ^ 64) :
    (shiftCycles time shift).toNat =
      if 0 < shift then time.toNat * 2 ^ shift.toNat else time.toNat / 2 ^ (-shift).toNat := by
  unfold shiftCycles
  split
  · next hpos =>
      have hcount : shift.toNat % 64 = shift.toNat := Nat.mod_eq_of_lt (by omega)
      rw [hcount, BitVec.toNat_shiftLeft, Nat.shiftLeft_eq, Nat.mod_eq_of_lt (hfits hpos)]
  · have hcount : (-shift).toNat % 64 = (-shift).toNat := Nat.mod_eq_of_lt (by omega)
    rw [hcount, BitVec.toNat_ushiftRight, Nat.shiftRight_eq_div_pow]

/-- A reading `t` of a clock that shows `T`. -/
def Near (T : ℚ) (t : BitVec 64) : Prop := (t.toNat : ℚ) ≤ T ∧ T < t.toNat + 3

namespace HostClock

variable {k : HostClock} {r : TimeRecord} {tsc : BitVec 64}

/-- The shift to the left loses nothing before the clock has run for 2^63 ns. -/
theorem shifted_lt (d : Nat) (hpos : 0 < k.shift.toInt) (h : d * k.rate < 2 ^ 63) :
    d * 2 ^ k.shift.toInt.toNat < 2 ^ 64 := by
  obtain ⟨n, hn⟩ := Int.eq_ofNat_of_zero_le hpos.le
  rw [rate, hn, zpow_natCast] at h
  rw [hn, Int.toNat_natCast]
  by_contra hge
  have hge' : (2 : ℚ) ^ 64 ≤ d * 2 ^ n := by exact_mod_cast not_lt.mp hge
  have hnorm : (2 : ℚ) ^ 31 ≤ k.mul.toNat := by exact_mod_cast k.normalized
  have hprod : (2 : ℚ) ^ 64 * 2 ^ 31 ≤ d * 2 ^ n * k.mul.toNat :=
    mul_le_mul hge' hnorm (by positivity) (by positivity)
  have hassoc : (d : ℚ) * (2 ^ n * k.mul.toNat / 2 ^ 32) = d * 2 ^ n * k.mul.toNat / 2 ^ 32 := by
    ring
  rw [hassoc, div_lt_iff₀ (by positivity)] at h
  linarith

/-- What the reader computes from a record of the clock, exactly. -/
theorem Follows.toNat_timeAt (hr : k.Follows r)
    (hts : BitVec.toNat (r .tscTs) ≤ tsc.toNat) (hbound : k.timeAt tsc.toNat < 2 ^ 63) :
    (r.timeAt tsc).toNat =
      BitVec.toNat (r .sysTime) + k.nanos (tsc.toNat - BitVec.toNat (r .tscTs)) := by
  obtain ⟨hmul, hshift, hsys, -⟩ := hr
  have hsub : BitVec.toNat (tsc - r .tscTs) = tsc.toNat - BitVec.toNat (r .tscTs) :=
    BitVec.toNat_sub_of_le hts
  have hpassed := timeAt_sub (k := k) hts
  have hsys0 : (0 : ℚ) ≤ BitVec.toNat (r .sysTime) := Nat.cast_nonneg _
  have hfits : 0 < k.shift.toInt →
      BitVec.toNat (tsc - r .tscTs) * 2 ^ k.shift.toInt.toNat < 2 ^ 64 := by
    intro hpos
    rw [hsub]
    exact shifted_lt _ hpos (by linarith)
  have hnano : (mulShift (shiftCycles (tsc - r .tscTs) k.shift.toInt) k.mul).toNat =
      k.nanos (tsc.toNat - BitVec.toNat (r .tscTs)) := by
    rw [toNat_mulShift, toNat_shiftCycles k.shift_lt hfits, hsub]
    rfl
  have hle := (nanos_near (k := k) (tsc.toNat - BitVec.toNat (r .tscTs))).1
  have hsum :
      BitVec.toNat (r .sysTime) + k.nanos (tsc.toNat - BitVec.toNat (r .tscTs)) < 2 ^ 64 := by
    have hq : ((BitVec.toNat (r .sysTime) +
        k.nanos (tsc.toNat - BitVec.toNat (r .tscTs)) : Nat) : ℚ) < 2 ^ 64 := by
      push_cast
      linarith
    exact_mod_cast hq
  rw [TimeRecord.timeAt]
  simp only [hmul, hshift]
  rw [BitVec.toNat_add, hnano]
  exact Nat.mod_eq_of_lt hsum

/-- A reading is never ahead of the clock, and less than 3 ns behind. -/
theorem Follows.near (hr : k.Follows r) (hts : BitVec.toNat (r .tscTs) ≤ tsc.toNat)
    (hbound : k.timeAt tsc.toNat < 2 ^ 63) : Near (k.timeAt tsc.toNat) (r.timeAt tsc) := by
  have hexact := hr.toNat_timeAt hts hbound
  obtain ⟨-, -, hsys, hlate⟩ := hr
  obtain ⟨hle, hlt⟩ := nanos_near (k := k) (tsc.toNat - BitVec.toNat (r .tscTs))
  rw [Near, hexact, timeAt_sub hts]
  push_cast
  constructor
  · linarith
  · linarith

end HostClock

/-! ### Calls one after the other -/

section Calls

variable {k : HostClock} {last : BitVec 64} {cs : List RawTime} {tscs : List Nat}

end Calls

end Chestnut
