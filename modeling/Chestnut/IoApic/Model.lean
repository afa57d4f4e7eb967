import Chestnut.Base

/-!
# The IO APIC

`IoApicRegistersAccessor` and `IoApic` of `apic.h` and `apic.cc` over a device
with an index register and a data window: a store to `IOREGSEL` selects a
register, `IOWIN` reads or writes the selected one.

## Implementation notes

The widths are those of the parameters in the source, so that every narrowing
on the way to the window is visible. The address of the device is asserted in
the constructor and never changes, so the later assertions on it are left out,
as are the mapping of the register page and the port that disables NMIs: none
of them touches a register of the device.
-/

namespace Chestnut

/-- The registers of the device; the low byte of `IOREGSEL` selects one. -/
structure IoApicDevice where
  ioregsel : BitVec 32
  reg : BitVec 8 → BitVec 32

namespace IoApicDevice

def selected (d : IoApicDevice) : BitVec 8 := d.ioregsel.setWidth 8

/-- A load from `IOWIN`. -/
def loadWindow (d : IoApicDevice) : BitVec 32 := d.reg d.selected

/-- A store to `IOWIN`. -/
def storeWindow (v : BitVec 32) (d : IoApicDevice) : IoApicDevice :=
  { d with reg := fun r => if r = d.selected then v else d.reg r }

end IoApicDevice

inductive IoApicRegister
  | id
  | ver
  | arb
  | redtbl
  deriving DecidableEq, Repr

def IoApicRegister.code : IoApicRegister → BitVec 32
  | .id => 0x00#32
  | .ver => 0x01#32
  | .arb => 0x02#32
  | .redtbl => 0x10#32

namespace IoApicRegistersAccessor

/-- `Read`. -/
def read (reg : IoApicRegister) (d : IoApicDevice) : BitVec 32 × IoApicDevice :=
  let d := { d with ioregsel := reg.code }
  (d.loadWindow, d)

/-- `Write`; the value is a `u8`. -/
def write (reg : IoApicRegister) (regOffset value : BitVec 8) (d : IoApicDevice) :
    IoApicDevice :=
  let d := { d with ioregsel := reg.code + regOffset.setWidth 32 }
  d.storeWindow (value.setWidth 32)

/-- `SetEntry`: both halves go through the `u8` parameter of `Write`. -/
def setEntry (index : BitVec 8) (data : BitVec 64) (d : IoApicDevice) : IoApicDevice :=
  let d := write .redtbl (BitVec.ofNat 8 (index.toNat * 2)) ((data.setWidth 32).setWidth 8) d
  write .redtbl (BitVec.ofNat 8 (index.toNat * 2 + 1))
    (((data >>> 32).setWidth 32).setWidth 8) d

end IoApicRegistersAccessor

/-- `IrqVector::kMaxInterrupt`. -/
def kMaxInterrupt : Nat := 256

def kIntMasked : BitVec 32 := 1#32 <<< 16

def kIRQOffset : BitVec 32 := 32#32

/-- The data members of `IoApic` behind its constructor. -/
structure IoApic where
  id : BitVec 32
  addr : Nat
  interruptBase : BitVec 32
  deriving DecidableEq, Repr

namespace IoApic

open IoApicRegistersAccessor

/-- `EnableIrq`; the sum is a `u32`, the index a `u8`. -/
def enableIrq (a : IoApic) (firstIrqOffset irq : BitVec 32) (d : IoApicDevice) :
    IoApicDevice :=
  setEntry (irq.setWidth 8) ((firstIrqOffset + irq + a.interruptBase).setWidth 64) d

/-- The body of the loop of `Init`. -/
def initEntry (a : IoApic) (i : BitVec 32) (d : IoApicDevice) : IoApicDevice :=
  if 0#32 = a.interruptBase ∧ 0#32 = i then
    -- the timer does not go through the IO APIC
    setEntry (i.setWidth 8) ((kIntMasked ||| (kIRQOffset + i)).setWidth 64) d
  else
    a.enableIrq kIRQOffset i d

/-- The loop of `Init`. -/
def initEntries (a : IoApic) : Nat → IoApicDevice → IoApicDevice
  | 0, d => d
  | n + 1, d => a.initEntry (BitVec.ofNat 32 n) (initEntries a n d)

/-- The part of `Init` that patches the ID register. -/
def patchId (a : IoApic) (d : IoApicDevice) : IoApicDevice :=
  let (v, d) := read .id d
  let idReg := (v >>> 24) &&& 0xF#32
  if idReg ≠ a.id then write .id 0#8 ((a.id <<< 24).setWidth 8) d else d

/-- `Init`. -/
def init (a : IoApic) (d : IoApicDevice) : Except Fault IoApicDevice := do
  let d := a.patchId d
  let (v, d) := read .ver d
  let maxValue := (v >>> 16) &&& 0xFF#32
  kassert (maxValue ≠ 0#32) "max_value"
  let maxInterrupts := maxValue + 1#32
  kassert (maxInterrupts.toNat < kMaxInterrupt) "max_interrupts < IrqVector::kMaxInterrupt"
  return a.initEntries maxInterrupts.toNat d

end IoApic

end Chestnut
