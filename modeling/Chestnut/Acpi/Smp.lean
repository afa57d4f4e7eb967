import Chestnut.Acpi.Madt

/-!
# Starting the other processors

`Acpi::BootSmp` sends an INIT command to every other processor and then, one
after the other, a STARTUP command, waiting each time for the processor to
count itself. The local APIC sends the command in its two command registers
when the lower one is stored to.

## Implementation notes

A processor counts itself some number of pauses after its STARTUP command, or
never: `delay` says which. `sent` is a history variable, the commands sent so
far. The boot code that the processors run, its copy to low memory and the
output to the console are left out.
-/

namespace Chestnut

open Lib

/-- The registers of `LocalApicRegister` that are used here. -/
inductive LocalApicRegister
  | id
  | interruptCommandLo
  | interruptCommandHi
  deriving DecidableEq, Repr

/-- `LocalApicInterruptCommand`. -/
structure LocalApicInterruptCommand where
  hi : BitVec 32
  lo : BitVec 32
  deriving DecidableEq, Repr

namespace LocalApicInterruptCommand

inductive DeliveryMode
  | fixed
  | lowestPriority
  | smi
  | nmi
  | init
  | startup
  deriving DecidableEq, Repr

def DeliveryMode.code : DeliveryMode → BitVec 32
  | .fixed => 0#32
  | .lowestPriority => 1#32
  | .smi => 2#32
  | .nmi => 4#32
  | .init => 5#32
  | .startup => 6#32

inductive DestinationMode
  | physical
  | logical
  deriving DecidableEq, Repr

def DestinationMode.code : DestinationMode → BitVec 32
  | .physical => 0#32
  | .logical => 1#32

inductive DestinationShorthand
  | none
  | self
  | all
  | allExceptSelf
  deriving DecidableEq, Repr

def DestinationShorthand.code : DestinationShorthand → BitVec 32
  | .none => 0#32
  | .self => 1#32
  | .all => 2#32
  | .allExceptSelf => 3#32

def flag (b : Bool) : BitVec 32 := if b then 1#32 else 0#32

/-- The constructor. -/
def construct (vectorNum : BitVec 8) (dmode : DeliveryMode) (destmode : DestinationMode)
    (isNoDeassert triggerMode : Bool) (dshort : DestinationShorthand) (dest : BitVec 8) :
    LocalApicInterruptCommand where
  hi := dest.setWidth 32 <<< 24
  lo := vectorNum.setWidth 32 ||| (dmode.code <<< 8) ||| (destmode.code <<< 11) |||
    (flag isNoDeassert <<< 14) ||| (flag triggerMode <<< 15) ||| (dshort.code <<< 18)

/-! ### What the APIC makes of a command -/

/-- The destination field. -/
def dest (c : LocalApicInterruptCommand) : BitVec 8 := c.hi.extractLsb' 24 8

/-- What a command asks of the processors that it is delivered to. -/
inductive Request
  | init
  | startup (vector : BitVec 8)
  | other
  deriving DecidableEq, Repr

/-- The delivery mode is in bits 8 to 10; only a physical destination without a
shorthand names the processor by its id. -/
def request (c : LocalApicInterruptCommand) : Request :=
  if c.lo.getLsbD 11 = true ∨ c.lo.extractLsb' 18 2 ≠ 0#2 then .other
  else if c.lo.extractLsb' 8 3 = 5#3 then .init
  else if c.lo.extractLsb' 8 3 = 6#3 then .startup (c.lo.extractLsb' 0 8)
  else .other

end LocalApicInterruptCommand

open LocalApicInterruptCommand

/-- The local APIC of the boot processor, the counter of the boot code and the
processors that are about to count themselves. -/
structure SmpMachine where
  id : BitVec 32
  commandHi : BitVec 32
  sent : List LocalApicInterruptCommand
  counter : BitVec 16
  starting : List Nat
  delay : BitVec 8 → Option Nat

namespace SmpMachine

/-- The processors whose time has come count themselves. -/
def settle (d : SmpMachine) : SmpMachine :=
  { d with
    counter := d.counter + BitVec.ofNat 16 (d.starting.count 0)
    starting := d.starting.filter (· ≠ 0) }

/-- `CpuPlatform::WaitPause`. -/
def pause (d : SmpMachine) : SmpMachine := settle { d with starting := d.starting.map (· - 1) }

/-- The APIC delivers a command. -/
def deliver (c : LocalApicInterruptCommand) (d : SmpMachine) : SmpMachine :=
  match c.request with
  | .startup _ => settle { d with starting := (d.delay c.dest).toList ++ d.starting }
  | _ => d

/-- A store to a register; the ID register is not written here. -/
def write (reg : LocalApicRegister) (value : BitVec 32) (d : SmpMachine) : SmpMachine :=
  match reg with
  | .id => d
  | .interruptCommandHi => { d with commandHi := value }
  | .interruptCommandLo =>
      deliver ⟨d.commandHi, value⟩ { d with sent := d.sent ++ [⟨d.commandHi, value⟩] }

end SmpMachine

namespace LocalApic

/-- `InterruptCommand`. -/
def interruptCommand (c : LocalApicInterruptCommand) (d : SmpMachine) : SmpMachine :=
  (d.write .interruptCommandHi c.hi).write .interruptCommandLo c.lo

def initCommand (apicid : BitVec 8) : LocalApicInterruptCommand :=
  construct 0#8 .init .physical true false .none apicid

def startupCommand (apicid vectorNum : BitVec 8) : LocalApicInterruptCommand :=
  construct vectorNum .startup .physical true false .none apicid

/-- `SendApicInit`. -/
def sendApicInit (apicid : BitVec 8) (d : SmpMachine) : SmpMachine :=
  interruptCommand (initCommand apicid) d

/-- `SendApicStartup`. -/
def sendApicStartup (apicid vectorNum : BitVec 8) (d : SmpMachine) : SmpMachine :=
  interruptCommand (startupCommand apicid vectorNum) d

/-- `Id`: the whole register. -/
def id (d : SmpMachine) : BitVec 32 := d.id

end LocalApic

namespace Smp

open LocalApic

def startupVec : BitVec 8 := 0x08#8

/-- `cpu.local_apic_id == bsp_apic_id`. -/
def isBsp (bspApicId : BitVec 32) (cpu : AcpiCPU) : Bool := cpu.localApicId = bspApicId.toNat

/-- The parameter `u8 apicid`. -/
def apicid (cpu : AcpiCPU) : BitVec 8 := BitVec.ofNat 8 cpu.localApicId

/-- The first loop of `BootSmp`. -/
def initAll (bspApicId : BitVec 32) : List AcpiCPU → SmpMachine → SmpMachine
  | [], d => d
  | cpu :: cpus, d =>
      if isBsp bspApicId cpu then initAll bspApicId cpus d
      else initAll bspApicId cpus (sendApicInit (apicid cpu) d)

/-- The inner loop of `BootSmp`. -/
def await (cpusStarted : BitVec 16) (fuel : Nat) (d : SmpMachine) :
    Option (Except Fault SmpMachine) :=
  whileLoop (fun d => d.counter != cpusStarted) (pureBody SmpMachine.pause) fuel d

/-- The second loop of `BootSmp`. -/
def startAll (bspApicId : BitVec 32) (fuel : Nat) :
    List AcpiCPU → BitVec 16 → SmpMachine → Option (Except Fault SmpMachine)
  | [], _, d => some (.ok d)
  | cpu :: cpus, cpusStarted, d =>
      if isBsp bspApicId cpu then startAll bspApicId fuel cpus cpusStarted d
      else
        andThen (await (cpusStarted + 1#16) fuel (sendApicStartup (apicid cpu) startupVec d))
          (startAll bspApicId fuel cpus (cpusStarted + 1#16))

/-- `BootSmp`. -/
def bootSmp (cpus : List AcpiCPU) (fuel : Nat) (d : SmpMachine) :
    Option (Except Fault SmpMachine) :=
  startAll (LocalApic.id d) fuel cpus 0#16 (initAll (LocalApic.id d) cpus d)

end Smp

/-- The processor record that memory holds at `p`. -/
def AcpiCPU.read (m : Bytes) (p : Int) : AcpiCPU := ⟨m.u32 p, m.u32 (p + 4), m.u8 (p + 8) != 0⟩

namespace Acpi

/-- What `for (const auto& cpu : cpus_)` goes through. -/
def cpuList (a : Acpi) : List AcpiCPU :=
  (List.range a.cpus.len).map fun i =>
    AcpiCPU.read a.store.bus.mem (slotPtr (kptr a.cpus.ptr) sizeofAcpiCPU i)

/-- `Acpi::BootSmp`; the constructor has made sure that there is a local APIC. -/
def bootSmp (a : Acpi) (fuel : Nat) (d : SmpMachine) : Option (Except Fault SmpMachine) :=
  Smp.bootSmp a.cpuList fuel d

end Acpi

end Chestnut
