import Chestnut.IoApic.Model
import Chestnut.Lib.Loop
import Chestnut.Paging.MapPage
import Mathlib.Data.BitVec
import Mathlib.Data.Finset.Max

/-!
# The local APIC

`LocalApic::InitCpu` of `apic.cc` with the accessors of its registers, the
register that holds its base address, and the calibration of its timer against
the system time.

## Implementation notes

A store to `EOI` ends the interrupt in service that has the highest vector; every
other register used here keeps what is stored. What comes from outside while the
timer is calibrated is a parameter: the results of `BootTime` in order, the
processor's number and the count at the moment it is read. The wait may outlast
the readings that are given; then there is no result. `local_apic_address` stands for
the physical address behind it. The tables do not change once the page of the
registers is mapped, so it is said once, in front, which registers they reach.
-/

namespace Chestnut

open Lib

/-- The registers of `LocalApicRegister` that are used here. -/
inductive ApicRegister
  | taskPriority
  | eoi
  | logicalDestination
  | destinationFormat
  | spuriousInterruptVector
  | timer
  | perf
  | lint0
  | lint1
  | timerInitialCount
  | timerCurrentCount
  | timerDivideConfig
  deriving DecidableEq, Repr

def ApicRegister.code : ApicRegister → Nat
  | .taskPriority => 0x0080
  | .eoi => 0x00b0
  | .logicalDestination => 0x00d0
  | .destinationFormat => 0x00e0
  | .spuriousInterruptVector => 0x00f0
  | .timer => 0x0320
  | .perf => 0x0340
  | .lint0 => 0x0350
  | .lint1 => 0x0360
  | .timerInitialCount => 0x0380
  | .timerCurrentCount => 0x0390
  | .timerDivideConfig => 0x03e0

def ApicRegister.all : List ApicRegister :=
  [.taskPriority, .eoi, .logicalDestination, .destinationFormat, .spuriousInterruptVector, .timer,
    .perf, .lint0, .lint1, .timerInitialCount, .timerCurrentCount, .timerDivideConfig]

theorem ApicRegister.mem_all (r : ApicRegister) : r ∈ all := by
  cases r <;> decide

theorem ApicRegister.code_injective : Function.Injective ApicRegister.code := by
  intro r r' h
  cases r <;> cases r' <;> first | rfl | cases h

/-- The registers by their offsets, the requested vectors and those in service. -/
structure LocalApicDevice where
  reg : Nat → BitVec 32
  irr : Finset (Fin kMaxInterrupt)
  isr : Finset (Fin kMaxInterrupt)

namespace LocalApicDevice

/-- What is in service behind the end of an interrupt. -/
def endHighest (isr : Finset (Fin kMaxInterrupt)) : Finset (Fin kMaxInterrupt) :=
  if h : isr.Nonempty then isr.erase (isr.max' h) else isr

/-- `LocalApicRegisterAccessor::Write`. -/
def write (r : ApicRegister) (value : BitVec 32) (d : LocalApicDevice) : LocalApicDevice :=
  if r = .eoi then { d with isr := endHighest d.isr }
  else { d with reg := Function.update d.reg r.code value }

/-- `LocalApic::EOI`. -/
def eoi (d : LocalApicDevice) : LocalApicDevice := d.write .eoi 0#32

end LocalApicDevice

/-- `CpuMSRValue`. -/
structure CpuMSRValue where
  lo : BitVec 32
  hi : BitVec 32
  deriving DecidableEq, Repr

/-- The members `local_apic_address` and `bus_freq`. -/
structure LocalApic where
  localApicAddress : Nat
  busFreq : BitVec 32
  deriving DecidableEq, Repr

namespace LocalApic

def kApicBaseMSREnable : BitVec 64 := 0x800#64

/-- `CpuSetAPICBase`, the value stored. -/
def cpuSetAPICBase (apic : BitVec 64) : CpuMSRValue where
  hi := ((apic >>> 32) &&& 0x0f#64).setWidth 32
  lo := ((apic &&& 0xfffff100#64) ||| kApicBaseMSREnable).setWidth 32

/-- `CpuGetAPICBase`. -/
def cpuGetAPICBase (value : CpuMSRValue) : BitVec 64 :=
  (value.lo &&& 0xfffff100#32).setWidth 64 ||| ((value.hi &&& 0x0f#32).setWidth 64 <<< 32)

/-- What the calibration meets outside. -/
structure Outside where
  cpuId : BitVec 32
  /-- The first result of `BootTime`. -/
  start : BitVec 64
  /-- The results of `BootTime` in the loop. -/
  times : List (BitVec 64)
  /-- `TIMER_CURRENT_COUNT` when it is read. -/
  count : BitVec 32

def timerVector : BitVec 32 := 32#32

/-- The guard of the loop that waits. -/
def waiting (start now : BitVec 64) : Bool := now - start < 10000000#64

/-- The registers while the loop waits. -/
def startCalibration (d : LocalApicDevice) : LocalApicDevice :=
  let d := d.write .timer timerVector
  let d := d.write .timerDivideConfig 0x03#32
  d.write .timerInitialCount 0xffffffff#32

/-- `cpubusfreq`. -/
def busFrequency (currCount : BitVec 32) : BitVec 32 :=
  ((0xFFFFFFFF#32 - currCount) + 1#32) * 16#32 * 100#32

/-- The body of `if (0 == bus_freq)`. -/
def calibrate (o : Outside) (l : LocalApic) (d : LocalApicDevice) :
    Option (Except Fault (LocalApic × LocalApicDevice)) :=
  andThen (some (kassert (0#32 = o.cpuId) "0 == CpuPlatform::id()")) fun _ =>
    let d := startCalibration d
    if o.times.all (waiting o.start) then none
    else
      let d := d.write .timer (1#32 <<< 16)
      some (.ok ({ l with busFreq := busFrequency o.count }, d))

/-- The first part of `InitCpu`. -/
def setMasks (d : LocalApicDevice) : LocalApicDevice :=
  let d := d.write .taskPriority 0#32
  let d := d.write .lint0 (1#32 <<< 16)
  let d := d.write .lint1 (1#32 <<< 16)
  let d := d.write .timer (1#32 <<< 16)
  let d := d.write .perf (4#32 <<< 8)
  let d := d.write .destinationFormat 0xffffffff#32
  let d := d.write .logicalDestination 1#32
  d.write .spuriousInterruptVector (0x100#32 ||| 0xff#32)

/-- `init_count`. -/
def initCount (busFreq : BitVec 32) : BitVec 32 :=
  let quantum := 32#32
  let count := busFreq / quantum / 16#32
  if count < 0x1000#32 then 0x1000#32 else count

/-- The last part of `InitCpu`. -/
def startTimer (l : LocalApic) (d : LocalApicDevice) : LocalApicDevice :=
  let d := d.write .timerInitialCount (initCount l.busFreq)
  let d := d.write .timer (timerVector ||| 0x20000#32)
  let d := d.write .timerDivideConfig 0x03#32
  d.eoi

/-- The page of the registers is mapped; an access to a register that the tables still do not
reach faults. -/
def mapRegisters (l : LocalApic) (s : Paging) : Except Fault Paging := do
  let s ← s.mapPage l.localApicAddress false true
  ApicRegister.all.forM fun r => discard (s.translate (l.localApicAddress + r.code))
  return s

/-- `InitCpu`. -/
def initCpu (o : Outside) (l : LocalApic) (base : CpuMSRValue) (d : LocalApicDevice) (s : Paging) :
    Option (Except Fault (LocalApic × CpuMSRValue × LocalApicDevice × Paging)) :=
  andThen (some (mapRegisters l s)) fun s =>
    let base := cpuSetAPICBase (cpuGetAPICBase base)
    let d := setMasks d
    andThen (if 0#32 = l.busFreq then calibrate o l d else some (.ok (l, d))) fun (l, d) =>
      andThen (some (kassert (l.busFreq ≠ 0#32) "bus_freq")) fun _ =>
        some (.ok (l, base, startTimer l d, s))

end LocalApic

namespace LocalApicDevice

variable {d : LocalApicDevice} {r r' : ApicRegister} {v : BitVec 32}

/-- The register of an offset. -/
def read (d : LocalApicDevice) (r : ApicRegister) : BitVec 32 := d.reg r.code

theorem read_write (hr : r ≠ .eoi) : (d.write r v).read r' = if r' = r then v else d.read r' := by
  rw [write, if_neg hr, read]
  by_cases h : r' = r
  · subst h
    rw [if_pos rfl]
    exact Function.update_self ..
  · rw [if_neg h]
    exact Function.update_of_ne (fun hc => h (ApicRegister.code_injective hc)) ..

theorem isr_write (hr : r ≠ .eoi) : (d.write r v).isr = d.isr := by rw [write, if_neg hr]

theorem irr_write : (d.write r v).irr = d.irr := by
  rw [write]
  split <;> rfl

theorem read_eoi : d.eoi.read r = d.read r := rfl

/-- Without or with one interrupt in service, none is left behind the end. -/
theorem endHighest_eq_empty {isr : Finset (Fin kMaxInterrupt)} (h : isr.card ≤ 1) :
    endHighest isr = ∅ := by
  rw [endHighest]
  split
  next hne =>
    obtain ⟨v, rfl⟩ := Finset.card_eq_one.mp (Nat.le_antisymm h hne.card_pos)
    rw [Finset.max'_singleton, Finset.erase_singleton]
  next hne => exact Finset.not_nonempty_iff_eq_empty.mp hne

end LocalApicDevice

namespace LocalApic

open LocalApicDevice

variable {o : Outside} {l l' : LocalApic} {base base' : CpuMSRValue} {d d' : LocalApicDevice}
variable {s s' : Paging} {addr : Nat}

/-- Every interrupt is let through, the two pins are masked and the APIC is on,
with vector 255 for what vanishes before it is taken. -/
structure Open (d : LocalApicDevice) : Prop where
  priority : d.read .taskPriority = 0#32
  lint0 : d.read .lint0 = 0x10000#32
  lint1 : d.read .lint1 = 0x10000#32
  spurious : d.read .spuriousInterruptVector = 0x1ff#32

theorem open_setMasks (d : LocalApicDevice) : Open (setMasks d) := by
  constructor <;> simp [setMasks, read_write]

theorem Open.calibration (h : Open d) : Open ((startCalibration d).write .timer (1#32 <<< 16)) := by
  constructor <;> simp [startCalibration, read_write, h.priority, h.lint0, h.lint1, h.spurious]

/-- The timer fires vector 32 again and again, each time after `initCount` sixteenths of the
bus clock. -/
structure Ticking (l : LocalApic) (d : LocalApicDevice) : Prop extends Open d where
  timer : d.read .timer = 0x20020#32
  divide : d.read .timerDivideConfig = 3#32
  count : d.read .timerInitialCount = initCount l.busFreq

theorem Open.startTimer (h : Open d) (l : LocalApic) : Ticking l (startTimer l d) := by
  refine ⟨⟨?_, ?_, ?_, ?_⟩, ?_, ?_, ?_⟩ <;>
    simp [LocalApic.startTimer, read_eoi, read_write, timerVector, h.priority, h.lint0, h.lint1,
      h.spurious]

theorem isr_startTimer (l : LocalApic) (d : LocalApicDevice) :
    (startTimer l d).isr = endHighest d.isr := by
  simp [LocalApic.startTimer, eoi, write]

theorem irr_startTimer (l : LocalApic) (d : LocalApicDevice) : (startTimer l d).irr = d.irr := by
  simp only [LocalApic.startTimer, eoi, irr_write]

/-! ### The base address -/

/-- The address and the flag of the boot processor stay, the APIC is switched on, and every
other bit is cleared. -/
theorem cpuSetAPICBase_cpuGetAPICBase (v : CpuMSRValue) :
    cpuSetAPICBase (cpuGetAPICBase v) =
      ⟨v.lo &&& 0xfffff100#32 ||| 0x800#32, v.hi &&& 0x0f#32⟩ := by
  rw [cpuSetAPICBase, cpuGetAPICBase, kApicBaseMSREnable, CpuMSRValue.mk.injEq]
  constructor
  · apply BitVec.eq_of_getLsbD_eq
    intro i hi
    have h64 : i < 64 := by omega
    simp only [BitVec.getLsbD_setWidth, BitVec.getLsbD_or, BitVec.getLsbD_and,
      BitVec.getLsbD_shiftLeft, BitVec.getLsbD_ofNat, hi, h64, decide_true, Bool.true_and,
      Bool.not_true, Bool.false_and, Bool.or_false]
    cases v.lo.getLsbD i <;> cases Nat.testBit 0xfffff100 i <;> simp
  · apply BitVec.eq_of_getLsbD_eq
    intro i hi
    have h64 : i < 64 := by omega
    have hup : 32 + i < 64 := by omega
    have hnot : ¬ 32 + i < 32 := by omega
    have hlo : v.lo.getLsbD (32 + i) = false := BitVec.getLsbD_of_ge _ _ (by omega)
    simp only [BitVec.getLsbD_setWidth, BitVec.getLsbD_or, BitVec.getLsbD_and,
      BitVec.getLsbD_shiftLeft, BitVec.getLsbD_ofNat, BitVec.getLsbD_ushiftRight, hi, h64, hup,
      hlo, hnot, Nat.add_sub_cancel_left, decide_true, decide_false, Bool.true_and,
      Bool.and_true, Bool.false_and, Bool.false_or, Bool.not_false]
    cases Nat.testBit 15 i <;> simp

/-! ### The frequency -/

theorem toNat_busFrequency (c : BitVec 32) :
    (busFrequency c).toNat = 1600 * (2 ^ 32 - c.toNat) % 2 ^ 32 := by
  have hneg : 0xFFFFFFFF#32 - c + 1#32 = -c := by bv_omega
  have hfactor : 16#32 * 100#32 = 1600#32 := by decide
  calc (busFrequency c).toNat
      = (-c * 1600#32).toNat := by rw [busFrequency, hneg, BitVec.mul_assoc, hfactor]
    _ = (2 ^ 32 - c.toNat) % 2 ^ 32 * (1600 % 2 ^ 32) % 2 ^ 32 := by
        rw [BitVec.toNat_mul, BitVec.toNat_neg, BitVec.toNat_ofNat]
    _ = 1600 * (2 ^ 32 - c.toNat) % 2 ^ 32 := by rw [← Nat.mul_mod, Nat.mul_comm]

/-- The frequency comes out as 0 exactly if the number of ticks is a multiple of 2^26. -/
theorem busFrequency_eq_zero_iff (c : BitVec 32) :
    busFrequency c = 0#32 ↔ 2 ^ 26 ∣ 2 ^ 32 - c.toNat := by
  rw [← BitVec.toNat_inj, toNat_busFrequency, BitVec.toNat_ofNat]
  omega

/-- Where the minimum does not apply, `initCount` is the 512th part of the frequency. -/
theorem toNat_initCount {f : BitVec 32} (h : 2 ^ 21 ≤ f.toNat) :
    (initCount f).toNat = f.toNat / 512 := by
  have hcount : (f / 32#32 / 16#32).toNat = f.toNat / 512 := by
    simp only [BitVec.toNat_udiv, BitVec.toNat_ofNat, Nat.reducePow, Nat.reduceMod]
    rw [Nat.div_div_eq_div_mul]
  rw [initCount, if_neg]
  · exact hcount
  · rw [BitVec.lt_def, hcount, BitVec.toNat_ofNat]
    omega

/-! ### `InitCpu` -/

theorem forM_translate_eq_ok_iff (rs : List ApicRegister) :
    (rs.forM fun r => discard (s.translate (addr + r.code))) = .ok () ↔
      ∀ r ∈ rs, ∃ p, s.translate (addr + r.code) = .ok p := by
  induction rs with
  | nil => exact iff_of_true rfl (by simp)
  | cons r rs ih =>
      rw [List.forall_mem_cons, ← ih, List.forM]
      cases s.translate (addr + r.code) with
      | error e => exact iff_of_false nofun (by simp)
      | ok p => exact (and_iff_right ⟨p, rfl⟩).symm

/-- The tables behind `MapPage`, if they reach every register. -/
theorem mapRegisters_eq_ok_iff {f : BitVec 32} :
    mapRegisters ⟨addr, f⟩ s = .ok s' ↔ s.mapPage addr false true = .ok s' ∧
      ∀ r : ApicRegister, ∃ p, s'.translate (addr + r.code) = .ok p := by
  simp only [mapRegisters]
  constructor
  · intro h
    obtain ⟨s₁, hmap, h⟩ := bind_ok h
    obtain ⟨⟨⟩, hreach, h⟩ := bind_ok h
    cases h
    exact ⟨hmap, fun r => (forM_translate_eq_ok_iff _).mp hreach r r.mem_all⟩
  · rintro ⟨hmap, hreach⟩
    rw [hmap, ok_bind, (forM_translate_eq_ok_iff _).mpr fun r _ => hreach r]
    rfl

/-- A calibration that comes to an end. -/
theorem calibrate_eq_ok_iff :
    calibrate o l d = some (.ok (l', d')) ↔
      o.cpuId = 0#32 ∧ (∃ t ∈ o.times, ¬ waiting o.start t) ∧
        l' = { l with busFreq := busFrequency o.count } ∧
        d' = (startCalibration d).write .timer (1#32 <<< 16) := by
  rw [calibrate]
  by_cases hid : o.cpuId = 0#32
  · simp only [hid, decide_true, kassert_true, andThen_ok, true_and]
    by_cases hwait : o.times.all (waiting o.start)
    · rw [if_pos hwait]
      refine iff_of_false (by simp) ?_
      rintro ⟨⟨t, ht, hnot⟩, -⟩
      exact hnot (List.all_eq_true.mp hwait t ht)
    · rw [if_neg hwait, Option.some.injEq, Except.ok.injEq, Prod.mk.injEq, eq_comm (b := l'),
        eq_comm (b := d')]
      refine (and_iff_right ?_).symm
      by_contra hnone
      exact hwait (List.all_eq_true.mpr fun t ht => by_contra fun hnot => hnone ⟨t, ht, hnot⟩)
  · have hne : ¬ (0#32 = o.cpuId) := fun h => hid h.symm
    simp [hne, hid, kassert, andThen]

/-- A first call that comes to an end. -/
theorem initCpu_eq_ok_iff :
    initCpu o ⟨addr, 0#32⟩ base d s = some (.ok (l', base', d', s')) ↔
      mapRegisters ⟨addr, 0#32⟩ s = .ok s' ∧
        o.cpuId = 0#32 ∧ (∃ t ∈ o.times, ¬ waiting o.start t) ∧
        ¬ 2 ^ 26 ∣ 2 ^ 32 - o.count.toNat ∧
        l' = ⟨addr, busFrequency o.count⟩ ∧ base' = cpuSetAPICBase (cpuGetAPICBase base) ∧
        d' = startTimer l' ((startCalibration (setMasks d)).write .timer (1#32 <<< 16)) := by
  rw [initCpu]
  constructor
  · intro h
    obtain ⟨s₁, hmap, h⟩ := andThen_eq_ok h
    obtain ⟨⟨l₁, d₁⟩, hcal, h⟩ := andThen_eq_ok h
    obtain ⟨hid, hwait, rfl, rfl⟩ := calibrate_eq_ok_iff.mp hcal
    obtain ⟨⟨⟩, hassert, h⟩ := andThen_eq_ok h
    simp only [Option.some.injEq, Except.ok.injEq, Prod.mk.injEq] at h
    obtain ⟨rfl, rfl, rfl, rfl⟩ := h
    have hfreq := of_decide_eq_true ((kassert_ok_iff _ _).mp (Option.some.inj hassert))
    exact ⟨Option.some.inj hmap, hid, hwait,
      fun hdvd => hfreq ((busFrequency_eq_zero_iff _).mpr hdvd), rfl, rfl, rfl⟩
  · rintro ⟨hmap, hid, hwait, hdvd, rfl, rfl, rfl⟩
    have hfreq : busFrequency o.count ≠ 0#32 := fun h0 =>
      hdvd ((busFrequency_eq_zero_iff _).mp h0)
    rw [hmap, andThen_ok]
    dsimp only
    rw [if_pos rfl, calibrate_eq_ok_iff.mpr ⟨hid, hwait, rfl, rfl⟩, andThen_ok]
    simp only [decide_eq_true hfreq, kassert_true, andThen_ok]

/-- The APIC behind a first call. -/
theorem initCpu_ticking (h : initCpu o ⟨addr, 0#32⟩ base d s = some (.ok (l', base', d', s'))) :
    Ticking l' d' ∧ d'.isr = endHighest d.isr ∧ d'.irr = d.irr := by
  obtain ⟨-, -, -, -, -, -, rfl⟩ := initCpu_eq_ok_iff.mp h
  refine ⟨(open_setMasks d).calibration.startTimer l', ?_, ?_⟩
  · rw [isr_startTimer]
    simp [startCalibration, setMasks, isr_write]
  · rw [irr_startTimer]
    simp only [startCalibration, setMasks, irr_write]

/-- The call of `InitCpu` in `KernelMain`, on whatever tables and state of the APIC: it returns
exactly if `MapPage` returns and the tables then reach the registers, on processor 0, once a
reading of the system time is 10 ms behind the first, and unless the timer has made a multiple
of 2^26 ticks. Then the timer is periodic; it fires 32 times in the second that the ticks stand
for, up to one tick, if the frequency fits its word and the minimum count does not apply. The
APIC is on at its old address, and the highest interrupt in service is ended. -/
theorem initCpu_calibrates (o : Outside) (addr : Nat) (base : CpuMSRValue) (d : LocalApicDevice)
    (s : Paging) :
    let ticks := 2 ^ 32 - o.count.toNat
    ((∃ r, initCpu o ⟨addr, 0#32⟩ base d s = some (.ok r)) ↔
      (∃ s', s.mapPage addr false true = .ok s' ∧
        ∀ r : ApicRegister, ∃ p, s'.translate (addr + r.code) = .ok p) ∧
      o.cpuId = 0#32 ∧ (∃ t ∈ o.times, 10 ^ 7 ≤ (t - o.start).toNat) ∧ ¬ 2 ^ 26 ∣ ticks) ∧
    ∀ l' base' d' s', initCpu o ⟨addr, 0#32⟩ base d s = some (.ok (l', base', d', s')) →
      l'.busFreq.toNat = 1600 * ticks % 2 ^ 32 ∧ Ticking l' d' ∧
      (2 ^ 21 ≤ 1600 * ticks ∧ 1600 * ticks < 2 ^ 32 →
        32 * (d'.read .timerInitialCount).toNat ≤ 100 * ticks ∧
          100 * ticks < 32 * ((d'.read .timerInitialCount).toNat + 1)) ∧
      base' = ⟨base.lo &&& 0xfffff100#32 ||| 0x800#32, base.hi &&& 0x0f#32⟩ ∧
      d'.isr = endHighest d.isr ∧ d'.irr = d.irr ∧ s.mapPage addr false true = .ok s' := by
  intro ticks
  have hwaiting : ∀ t, ¬ waiting o.start t ↔ 10 ^ 7 ≤ (t - o.start).toNat := by
    intro t
    rw [waiting, decide_eq_true_eq, BitVec.lt_def, Nat.not_lt]
    rfl
  constructor
  · constructor
    · rintro ⟨⟨l', base', d', s'⟩, h⟩
      obtain ⟨hmap, hid, ⟨t, ht, hnot⟩, hdvd, -⟩ := initCpu_eq_ok_iff.mp h
      exact ⟨⟨s', mapRegisters_eq_ok_iff.mp hmap⟩, hid, ⟨t, ht, (hwaiting t).mp hnot⟩, hdvd⟩
    · rintro ⟨⟨s', hmap⟩, hid, ⟨t, ht, hlate⟩, hdvd⟩
      exact ⟨_, initCpu_eq_ok_iff.mpr ⟨mapRegisters_eq_ok_iff.mpr hmap, hid,
        ⟨t, ht, (hwaiting t).mpr hlate⟩, hdvd, rfl, rfl, rfl⟩⟩
  · intro l' base' d' s' h
    obtain ⟨T, hisr, hirr⟩ := initCpu_ticking h
    obtain ⟨hmap, -, -, -, rfl, rfl, -⟩ := initCpu_eq_ok_iff.mp h
    have hfreq := toNat_busFrequency o.count
    refine ⟨hfreq, T, fun hrange => ?_, cpuSetAPICBase_cpuGetAPICBase base, hisr, hirr,
      (mapRegisters_eq_ok_iff.mp hmap).1⟩
    have hexact : (busFrequency o.count).toNat = 1600 * ticks :=
      hfreq.trans (Nat.mod_eq_of_lt hrange.2)
    have hcount := toNat_initCount (hexact ▸ hrange.1)
    rw [T.count, hcount, hexact]
    omega

/-- 625000 ticks in the 10 ms: a bus clock of 1 GHz. -/
def gigahertz : Outside := ⟨0#32, 100#64, [200#64, 10000101#64], 4294342296#32⟩

/-- The tables of a machine with six free pages. -/
def smallTables : Except Fault Paging :=
  Paging.initKernelPageTable Paging.gigabyteMap (Paging.booted (MemPages.line 6))

/-- On these tables the registers at their usual address can be mapped. -/
theorem smallTables_mapRegisters : ∃ s s', smallTables = .ok s ∧
    mapRegisters ⟨0xFEE00000, 0#32⟩ s = .ok s' := by
  obtain ⟨s, hs, hmap⟩ := exists_of_okAnd (x := smallTables)
    (p := fun s => okAnd (mapRegisters ⟨0xFEE00000, 0#32⟩ s) fun _ => true) (by decide +kernel)
  obtain ⟨s', hs', -⟩ := exists_of_okAnd hmap
  exact ⟨s, s', hs, hs'⟩

theorem initCpu_calibrates_gigahertz :
    ∃ s l' base' d' s', smallTables = .ok s ∧
      initCpu gigahertz ⟨0xFEE00000, 0#32⟩ ⟨0xFEE00900#32, 0#32⟩ ⟨fun _ => 0#32, ∅, ∅⟩ s =
        some (.ok (l', base', d', s')) ∧
      l'.busFreq.toNat = 10 ^ 9 ∧ base' = ⟨0xFEE00900#32, 0#32⟩ := by
  obtain ⟨s, s', hs, hmap⟩ := smallTables_mapRegisters
  obtain ⟨hiff, hspec⟩ :=
    initCpu_calibrates gigahertz 0xFEE00000 ⟨0xFEE00900#32, 0#32⟩ ⟨fun _ => 0#32, ∅, ∅⟩ s
  obtain ⟨⟨l', base', d', s'⟩, h⟩ := hiff.mpr ⟨⟨s', mapRegisters_eq_ok_iff.mp hmap⟩, rfl,
    ⟨10000101#64, by decide, by decide⟩, by decide⟩
  obtain ⟨hfreq, -, -, hbase, -⟩ := hspec l' base' d' s' h
  exact ⟨s, l', base', d', s', hs, h, hfreq, hbase⟩

end LocalApic

end Chestnut
