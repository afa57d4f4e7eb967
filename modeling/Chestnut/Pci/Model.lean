import Chestnut.Base

/-!
# PCI configuration access

The `Pci…` accessors of `IoPorts` over a host bridge. The bridge has an address
port at `0xCF8` that holds bus, slot, function and dword, and four data ports
from `0xCFC` on, one for each byte of the selected dword.

## Implementation notes

The bridge forwards an access only while the enable bit of the address is set;
otherwise stores are dropped and loads give ones, as do loads across the end of
the data ports. Accesses of a byte or a word to the address port are not taken
by the bridge.
-/

namespace Chestnut

/-- A function of a device on a bus. -/
structure PciFunction where
  bus : BitVec 8
  slot : BitVec 8
  func : BitVec 8
  deriving DecidableEq, Repr

/-- The host bridge and the configuration bytes behind it. -/
structure PciBridge where
  address : BitVec 32
  space : PciFunction → BitVec 8 → BitVec 8

namespace PciBridge

def enabled (d : PciBridge) : Bool := d.address.getLsbD 31

def function (d : PciBridge) : PciFunction where
  bus := d.address.extractLsb' 16 8
  slot := (d.address.extractLsb' 11 5).setWidth 8
  func := (d.address.extractLsb' 8 3).setWidth 8

/-- The offset of the selected dword. -/
def dword (d : PciBridge) : BitVec 8 := d.address.extractLsb' 0 8 &&& 0xFC#8

/-- The byte of the selected dword that a data port stands for. -/
def lane (port : BitVec 16) : Option Nat :=
  if 0xCFC ≤ port.toNat ∧ port.toNat < 0xD00 then some (port.toNat - 0xCFC) else none

/-- A store of bytes from a lane of the selected dword on. -/
def storeData (d : PciBridge) (lane : Nat) (bytes : List (BitVec 8)) : PciBridge :=
  let first := d.dword.toNat + lane
  let last := d.dword.toNat + 4
  if d.enabled then
    { d with
      space := fun f o =>
        if f = d.function ∧ first ≤ o.toNat ∧ o.toNat < last then
          bytes[o.toNat - first]?.getD (d.space f o)
        else d.space f o }
  else d

def outB (port : BitVec 16) (value : BitVec 8) (d : PciBridge) : PciBridge :=
  match lane port with
  | some k => d.storeData k [value]
  | none => d

def outW (port : BitVec 16) (value : BitVec 16) (d : PciBridge) : PciBridge :=
  match lane port with
  | some k => d.storeData k [value.extractLsb' 0 8, value.extractLsb' 8 8]
  | none => d

def outDW (port : BitVec 16) (value : BitVec 32) (d : PciBridge) : PciBridge :=
  if port = 0xCF8#16 then { d with address := value }
  else
    match lane port with
    | some k => d.storeData k [value.extractLsb' 0 8, value.extractLsb' 8 8,
        value.extractLsb' 16 8, value.extractLsb' 24 8]
    | none => d

/-- A byte of the selected dword. -/
def loadByte (d : PciBridge) (lane : Nat) : BitVec 8 :=
  if d.enabled ∧ lane < 4 then d.space d.function (d.dword + BitVec.ofNat 8 lane) else 0xFF#8

def inDW (port : BitVec 16) (d : PciBridge) : BitVec 32 :=
  if port = 0xCF8#16 then d.address
  else
    match lane port with
    | some k => d.loadByte (k + 3) ++ d.loadByte (k + 2) ++ d.loadByte (k + 1) ++ d.loadByte k
    | none => 0xFFFFFFFF#32

end PciBridge

namespace IoPorts

def kPciAddressPort : BitVec 32 := 0xCF8#32

def kPciDataPort : BitVec 32 := 0xCFC#32

/-- The word that `PciWriteAddr` sends. -/
def pciAddr (bus slot func offset : BitVec 8) : BitVec 32 :=
  (bus.setWidth 32 <<< 16) ||| (slot.setWidth 32 <<< 11) ||| (func.setWidth 32 <<< 8) |||
    (offset &&& 0xfc#8).setWidth 32 ||| 0x80000000#32

/-- `PciWriteAddr`. -/
def pciWriteAddr (bus slot func offset : BitVec 8) (d : PciBridge) : Except Fault PciBridge := do
  kassert (slot < 32#8) "slot < 32"
  kassert (func < 8#8) "func < 8"
  return d.outDW (kPciAddressPort.setWidth 16) (pciAddr bus slot func offset)

/-- `PciReadB`. -/
def pciReadB (bus slot func offset : BitVec 8) (d : PciBridge) :
    Except Fault (BitVec 8 × PciBridge) := do
  let d ← pciWriteAddr bus slot func offset d
  let value := d.inDW (kPciDataPort.setWidth 16)
  return (((value >>> ((offset &&& 3#8).toNat * 8)) &&& 0xff#32).setWidth 8, d)

/-- `PciReadW`. -/
def pciReadW (bus slot func offset : BitVec 8) (d : PciBridge) :
    Except Fault (BitVec 16 × PciBridge) := do
  kassert ((offset &&& 1#8) == 0#8) "(offset & 1) == 0"
  let d ← pciWriteAddr bus slot func offset d
  let value := d.inDW (kPciDataPort.setWidth 16)
  return (((value >>> ((offset &&& 2#8).toNat * 8)) &&& 0xffff#32).setWidth 16, d)

/-- `PciReadDW`. -/
def pciReadDW (bus slot func offset : BitVec 8) (d : PciBridge) :
    Except Fault (BitVec 32 × PciBridge) := do
  kassert ((offset &&& 3#8) == 0#8) "(offset & 3) == 0"
  let d ← pciWriteAddr bus slot func offset d
  return (d.inDW (kPciDataPort.setWidth 16), d)

/-- `PciWriteB`. -/
def pciWriteB (bus slot func offset value : BitVec 8) (d : PciBridge) :
    Except Fault PciBridge := do
  let d ← pciWriteAddr bus slot func offset d
  return d.outB ((kPciDataPort + (offset &&& 3#8).setWidth 32).setWidth 16) value

/-- `PciWriteW`. -/
def pciWriteW (bus slot func offset : BitVec 8) (value : BitVec 16) (d : PciBridge) :
    Except Fault PciBridge := do
  kassert ((offset &&& 1#8) == 0#8) "(offset & 1) == 0"
  let d ← pciWriteAddr bus slot func offset d
  return d.outW ((kPciDataPort + (offset &&& 2#8).setWidth 32).setWidth 16) value

/-- `PciWriteDW`. -/
def pciWriteDW (bus slot func offset : BitVec 8) (value : BitVec 32) (d : PciBridge) :
    Except Fault PciBridge := do
  kassert ((offset &&& 3#8) == 0#8) "(offset & 3) == 0"
  let d ← pciWriteAddr bus slot func offset d
  return d.outDW (kPciDataPort.setWidth 16) value

end IoPorts

/-- A call of one of the accessors. -/
inductive PciCall
  | readB (f : PciFunction) (offset : BitVec 8)
  | readW (f : PciFunction) (offset : BitVec 8)
  | readDW (f : PciFunction) (offset : BitVec 8)
  | writeB (f : PciFunction) (offset : BitVec 8) (value : BitVec 8)
  | writeW (f : PciFunction) (offset : BitVec 8) (value : BitVec 16)
  | writeDW (f : PciFunction) (offset : BitVec 8) (value : BitVec 32)
  deriving DecidableEq, Repr

/-- What a call returns. -/
inductive PciReply
  | done
  | byte (v : BitVec 8)
  | word (v : BitVec 16)
  | dword (v : BitVec 32)
  deriving DecidableEq, Repr

namespace PciCall

open IoPorts

def exec (d : PciBridge) : PciCall → Except Fault (PciReply × PciBridge)
  | .readB f offset => do
      let (v, d) ← pciReadB f.bus f.slot f.func offset d
      return (.byte v, d)
  | .readW f offset => do
      let (v, d) ← pciReadW f.bus f.slot f.func offset d
      return (.word v, d)
  | .readDW f offset => do
      let (v, d) ← pciReadDW f.bus f.slot f.func offset d
      return (.dword v, d)
  | .writeB f offset value => do
      let d ← pciWriteB f.bus f.slot f.func offset value d
      return (.done, d)
  | .writeW f offset value => do
      let d ← pciWriteW f.bus f.slot f.func offset value d
      return (.done, d)
  | .writeDW f offset value => do
      let d ← pciWriteDW f.bus f.slot f.func offset value d
      return (.done, d)

/-- A sequence of calls. -/
def execAll (calls : List PciCall) (d : PciBridge) : Except Fault PciBridge :=
  calls.foldlM (fun d c => do
    let (_, d) ← c.exec d
    return d) d

end PciCall

end Chestnut
