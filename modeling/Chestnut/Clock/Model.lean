import Chestnut.Lib.Seqlock
import Mathlib.Algebra.Group.Nat.Defs

/-!
# The KVM clocks

`kvm-clock.h` and `kvm-clock.cc`: the two records the hypervisor keeps, the
loads `BootClock` and `BootTime` make of them, and the part of `BootTime` that
forces its results into order through `last_boot_time`.

## Implementation notes

The loads are listed one by one in the order of the source text, every
mention of a field being a load of its own. The time stamp counter is an input
of a pass. A shift count is taken modulo 64, as the processor does.
-/

namespace Chestnut

open Lib

/-- The data fields of `KvmWallClockInfo`. -/
inductive WallField
  | sec
  | nsec
  deriving DecidableEq, Repr

/-- Both are `u32`. -/
abbrev WallField.Val (_ : WallField) : Type := BitVec 32

/-- The data fields of `KvmCpuTimeInfo`. -/
inductive TimeField
  | tscTs
  | sysTime
  | tscToSysMul
  | tscShift
  | flags
  deriving DecidableEq, Repr

abbrev TimeField.Val : TimeField → Type
  | .tscTs => BitVec 64
  | .sysTime => BitVec 64
  | .tscToSysMul => BitVec 32
  | .tscShift => BitVec 8
  | .flags => BitVec 8

/-- The values of the version counter, a `u32`. -/
def versionWrap : Nat := 2 ^ 32

/-- The loads of one pass of `KvmWallClock::BootClock`. -/
def bootClockLoads : Loads WallField.Val (BitVec 64) := do
  let sec : BitVec 32 ← Loads.get WallField.sec
  let res := sec.setWidth 64
  let res := res * 1000000000#64
  let nsec : BitVec 32 ← Loads.get WallField.nsec
  return res + nsec.setWidth 64

/-- `mulq` and `shrd $32`: the middle of the 128-bit product. -/
def mulShift (time : BitVec 64) (mul : BitVec 32) : BitVec 64 :=
  BitVec.ofNat 64 (time.toNat * mul.toNat / 2 ^ 32)

/-- `KvmSystemTime::ProcessorNano`; `tsc_shift` is an `int8`. -/
def processorNano (time : BitVec 64) : Loads TimeField.Val (BitVec 64) := do
  let shift : BitVec 8 ← Loads.get TimeField.tscShift
  if 0 < shift.toInt then
    let shift : BitVec 8 ← Loads.get TimeField.tscShift
    let mul : BitVec 32 ← Loads.get TimeField.tscToSysMul
    return mulShift (time <<< (shift.toInt.toNat % 64)) mul
  else
    let shift : BitVec 8 ← Loads.get TimeField.tscShift
    if shift.toInt < 0 then
      let shift : BitVec 8 ← Loads.get TimeField.tscShift
      let mul : BitVec 32 ← Loads.get TimeField.tscToSysMul
      return mulShift (time >>> ((-shift.toInt).toNat % 64)) mul
    else
      let mul : BitVec 32 ← Loads.get TimeField.tscToSysMul
      return mulShift time mul

/-- The loads of one pass of `KvmSystemTime::BootTime` that reads the counter as
`tsc`; the results are `time` and `flags`. -/
def bootTimeLoads (tsc : BitVec 64) : Loads TimeField.Val (BitVec 64 × BitVec 8) := do
  let sysTime : BitVec 64 ← Loads.get TimeField.sysTime
  let tscTs : BitVec 64 ← Loads.get TimeField.tscTs
  let nano ← processorNano (tsc - tscTs)
  let flags : BitVec 8 ← Loads.get TimeField.flags
  return (sysTime + nano, flags)

/-- `kTscStableBit`. -/
def tscStableBit : BitVec 8 := 1#8

/-- Where a call of `BootTime` is, once its pass over the record is accepted:
not begun, reading the record, at the head of the loop, before the
compare-and-swap with the value it loaded, or done. -/
inductive Caller
  | idle
  | timing (useHwStable : Bool)
  | looping (time : BitVec 64)
  | swapping (time last : BitVec 64)
  | returned (time : BitVec 64)
  deriving DecidableEq, Repr

/-- `last_boot_time` and the calls on one `KvmSystemTime`. -/
structure TimeWorld (κ : Type) where
  lastBootTime : BitVec 64
  caller : κ → Caller

/-- The atomic steps of a call: it starts, has its raw time and flags, loads
`last_boot_time`, or does the compare-and-swap. -/
inductive TimeEvent (κ : Type)
  | start (i : κ) (useHwStable : Bool)
  | raw (i : κ) (time : BitVec 64) (flags : BitVec 8)
  | load (i : κ)
  | swap (i : κ)

namespace TimeWorld

variable {κ : Type} [DecidableEq κ]

def setCaller (w : TimeWorld κ) (i : κ) (c : Caller) : TimeWorld κ :=
  { w with caller := Function.update w.caller i c }

/-- One step of `BootTime`, if the call is there. -/
def next (w : TimeWorld κ) : TimeEvent κ → Option (TimeWorld κ)
  | .start i useHwStable =>
      match w.caller i with
      | .idle => some (w.setCaller i (.timing useHwStable))
      | _ => none
  | .raw i time flags =>
      match w.caller i with
      | .timing useHwStable =>
          if useHwStable && (flags &&& tscStableBit) != 0#8 then
            some (w.setCaller i (.returned time))
          else some (w.setCaller i (.looping time))
      | _ => none
  | .load i =>
      match w.caller i with
      | .looping time =>
          if time ≤ w.lastBootTime then some (w.setCaller i (.returned w.lastBootTime))
          else some (w.setCaller i (.swapping time w.lastBootTime))
      | _ => none
  | .swap i =>
      match w.caller i with
      | .swapping time last =>
          if w.lastBootTime = last then
            some ({ w with lastBootTime := time }.setCaller i (.returned time))
          else some (w.setCaller i (.looping time))
      | _ => none

end TimeWorld

end Chestnut
