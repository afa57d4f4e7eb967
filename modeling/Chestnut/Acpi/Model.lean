import Chestnut.IoApic.Model
import Chestnut.Lib.Loop
import Chestnut.Paging.Model
import Chestnut.Slab.Sizes
import Chestnut.Vector.Model

/-!
# The ACPI tables

`acpi.cc`: the search for the RSDP, the walk over the RSDT, and the walk over
the records of the MADT, which fills the vectors of processors and IO APICs.

## Implementation notes

The tables lie in memory that the heap does not manage, so they are read from a
memory of their own. Every read of a table is logged with the table it is made
for, and `init` faults if the page tables do not map a byte of the log. Any other fault
comes with what was parsed up to it. The objects of class `IoApic` are kept by
address. Output to the console is left out.
-/

namespace Chestnut

open Lib

/-- `AcpiCPU`. -/
structure AcpiCPU where
  cpuId : Nat
  localApicId : Nat
  enabled : Bool
  deriving DecidableEq, Repr

def sizeofAcpiCPU : Nat := 12

/-- The bytes of an `AcpiCPU`: two words, a `bool` and padding, which nothing reads. -/
def AcpiCPU.bytes (c : AcpiCPU) : Elem sizeofAcpiCPU := fun i =>
  (Bytes.le32 c.cpuId ++ Bytes.le32 c.localApicId ++ Bytes.le32 c.enabled.toNat).getD i 0#8

def sizeofPtr : Nat := 8

/-- The bytes of a pointer to a block. -/
def ptrBytes (paddr : Nat) : Elem sizeofPtr := fun i =>
  let v := (kernOffset + paddr) % u64Size
  (Bytes.le32 v ++ Bytes.le32 (v / 2 ^ 32)).getD i 0#8

def sizeofLocalApic : Nat := 24

def sizeofIoApic : Nat := 32

/-- The members of `Acpi`, with the heap, memory and the `IoApic` objects. -/
structure Acpi where
  store : Store Heap
  cpus : BaseVector := {}
  ioApics : BaseVector := {}
  cpuCount : Nat := 0
  localApic : Option Nat := none
  localApicAddress : Int := 0
  objects : Nat → Option IoApic := fun _ => none

namespace Acpi

/-- `cpus_.PushBack(cpu); ++cpu_count_`. -/
def pushCpu (cpu : AcpiCPU) (a : Acpi) : Except Fault Acpi := do
  let (v, s) ← a.cpus.pushBack Kernel.allocator cpu.bytes a.store
  return { a with cpus := v, store := s, cpuCount := (a.cpuCount + 1) % 2 ^ 32 }

/-- `new LocalApic(address)`. -/
def newLocalApic (address : Int) (a : Acpi) : Except Fault Acpi := do
  let (p, h) ← Kernel.operatorNew sizeofLocalApic a.store.heap
  return { a with
    store := { a.store with heap := h }, localApic := some p, localApicAddress := address }

/-- `new IoApic(id, address, intr_base)`. -/
def newIoApic (x : IoApic) (a : Acpi) : Except Fault (Nat × Acpi) := do
  let (p, h) ← Kernel.operatorNew sizeofIoApic a.store.heap
  return (p, { a with
    store := { a.store with heap := h }
    objects := fun q => if q = p then some x else a.objects q })

/-- `io_apics_.PushBack(p)`. -/
def pushIoApic (p : Nat) (a : Acpi) : Except Fault Acpi := do
  let (v, s) ← a.ioApics.pushBack Kernel.allocator (ptrBytes p) a.store
  return { a with ioApics := v, store := s }

/-- A byte that was read for a table. -/
structure TableRead where
  table : Int
  addr : Int
  deriving DecidableEq, Repr

/-- The members, and the bytes of the tables read so far. -/
structure Parse where
  acpi : Acpi
  reads : List TableRead := []

/-- `n` bytes at `addr` are read for a table. -/
def Parse.read (table addr : Int) (n : Nat) (ps : Parse) : Parse :=
  { ps with reads := (span addr n).map (TableRead.mk table) ++ ps.reads }

/-- A call that stops the parser if it faults. -/
def stopAt {α : Type} (ps : Parse) (x : Except Fault α) : Except (Fault × Parse) α :=
  match x with
  | .ok a => .ok a
  | .error e => .error (e, ps)

/-- A position in a table and what was parsed up to it. -/
structure TableWalk where
  p : Int
  parse : Parse

/-! ### The MADT -/

def typeLocalApic : Nat := 0
def typeIoApic : Nat := 1

/-- The case `LOCAL_APIC`; `flags` is the word at offset 4. -/
def parseLocalApic (m : Bytes) (header p : Int) (ps : Parse) : Except (Fault × Parse) Parse := do
  let ps := ps.read header (p + 2) 6
  let cpu : AcpiCPU := ⟨m.u8 (p + 2), m.u8 (p + 3), m.u32 (p + 4) % 2 == 1⟩
  let a ← stopAt ps (ps.acpi.pushCpu cpu)
  return { ps with acpi := a }

/-- The case `IO_APIC`. -/
def parseIoApic (m : Bytes) (header p : Int) (ps : Parse) : Except (Fault × Parse) Parse := do
  let ps := (ps.read header (p + 2) 1).read header (p + 4) 8
  let x : IoApic :=
    ⟨BitVec.ofNat 32 (m.u8 (p + 2)), kernOffset + m.u32 (p + 4), BitVec.ofNat 32 (m.u32 (p + 8))⟩
  let (q, a) ← stopAt ps (ps.acpi.newIoApic x)
  let ps := { ps with acpi := a }
  let a ← stopAt ps (a.pushIoApic q)
  return { ps with acpi := a }

/-- The `switch` of `ParseTableAPIC`; all other types are skipped. -/
def parseCase (m : Bytes) (header p : Int) (ps : Parse) : Except (Fault × Parse) Parse :=
  if m.u8 p = typeLocalApic then parseLocalApic m header p ps
  else if m.u8 p = typeIoApic then parseIoApic m header p ps
  else .ok ps

/-- The body of the loop of `ParseTableAPIC`: `type` and `length` are bytes. -/
def parseRecord (m : Bytes) (header : Int) (w : TableWalk) : Except (Fault × Parse) TableWalk := do
  let ps ← parseCase m header w.p (w.parse.read header w.p 2)
  return ⟨w.p + m.u8 (w.p + 1), ps⟩

/-- `ParseTableAPIC` before its loop. -/
def parseHeader (m : Bytes) (header : Int) (ps : Parse) : Except (Fault × Parse) Parse := do
  stopAt ps (kassert (header ≠ 0) "header")
  let ps := ps.read header (header + 36) 4
  stopAt ps (kassert (m.u32 (header + 36) ≠ 0) "header->localApicAddr")
  let a ← stopAt ps (ps.acpi.newLocalApic (kptr (some (m.u32 (header + 36)))))
  return { ps with acpi := a }.read header (header + 4) 4

/-- `p < end`, with the length word of the header. -/
def inTable (m : Bytes) (header : Int) (w : TableWalk) : Bool :=
  w.p < header + m.u32 (header + 4)

/-- `ParseTableAPIC`, cut off after `fuel` records. -/
def parseTableAPIC (m : Bytes) (header : Int) (fuel : Nat) (ps : Parse) :
    Option (Except (Fault × Parse) Parse) :=
  andThen (some (parseHeader m header ps)) fun ps =>
    andThen (whileLoop (inTable m header) (fun _ w => some (parseRecord m header w)) fuel
      ⟨header + 44, ps⟩) fun w => some (.ok w.parse)

/-! ### The RSDT -/

/-- `TableUint32("APIC")`. -/
def apicSignature : Nat := 0x43495041

/-- `ParseDT`. -/
def parseDT (m : Bytes) (ptr : Int) (fuel : Nat) (ps : Parse) :
    Option (Except (Fault × Parse) Parse) :=
  andThen (some (stopAt ps (kassert (ptr ≠ 0) "ptr"))) fun _ =>
    let ps := ps.read ptr ptr 4
    if m.u32 ptr = apicSignature then parseTableAPIC m ptr fuel ps else some (.ok ps)

/-- The body of the loop of `ParseRSDT`. -/
def parseEntry (m : Bytes) (ptr : Int) (fuel : Nat) (w : TableWalk) :
    Option (Except (Fault × Parse) TableWalk) :=
  andThen (parseDT m (kptr (some (m.u32 w.p))) fuel (w.parse.read ptr w.p 4)) fun ps =>
    some (.ok ⟨w.p + 4, ps⟩)

/-- `ParseRSDT`. -/
def parseRSDT (m : Bytes) (ptr : Int) (fuel : Nat) (ps : Parse) :
    Option (Except (Fault × Parse) Parse) :=
  andThen (some (stopAt ps (kassert (ptr ≠ 0) "ptr"))) fun _ =>
    andThen (whileLoop (inTable m ptr) (parseEntry m ptr) fuel
      ⟨ptr + 36, ps.read ptr (ptr + 4) 4⟩) fun w => some (.ok w.parse)

/-! ### The RSDP -/

/-- `'RSD PTR '`. -/
def rsdpSignature : Nat := 0x2052545020445352

/-- The sum of the first 20 bytes, a `u8`. -/
def checksum (m : Bytes) (p : Int) : Nat :=
  ((List.range 20).map fun i : Nat => m.u8 (p + (i : Int))).sum % 256

/-- `ParseRSDP` up to its call of `ParseRSDT`: the RSDT pointer that it follows, if any. -/
def parseRSDP (m : Bytes) (p : Int) : Except Fault (Option Nat) :=
  if checksum m p ≠ 0 then .ok none
  else
    let rev := m.u8 (p + 15)
    if rev = 0 ∨ rev = 2 then do
      let rsdtAddr := m.u32 (p + 16)
      kassert (rsdtAddr ≠ 0) "rsdt_addr"
      return some rsdtAddr
    else .ok none

/-- What the search has come to, and the bytes it has read. -/
structure Search where
  outcome : Except Fault (Option Nat)
  reads : List Int

/-- The loop of `Init` from a position on, for `n` turns. -/
def searchFrom (m : Bytes) : Nat → Int → List Int → Search
  | 0, _, reads => ⟨.ok none, reads⟩
  | n + 1, p, reads =>
      if m.u64 p = rsdpSignature then
        let reads := span p 20 ++ (span p 8 ++ reads)
        match parseRSDP m p with
        | .ok none => searchFrom m n (p + 16) reads
        | .ok (some a) => ⟨.ok (some a), reads⟩
        | .error e => ⟨.error e, reads⟩
      else searchFrom m n (p + 16) (span p 8 ++ reads)

/-- The bounds of the loop of `Init`; the pages it maps for it end at `biosEnd`. -/
def searchStart : Nat := 0xe0000
def biosEnd : Nat := 0x100000
def searchEnd : Nat := 0x1000000

/-- The search of `Init`. -/
def search (m : Bytes) : Search :=
  searchFrom m ((searchEnd - searchStart) / 16) (kptr (some searchStart)) []

/-- The end of `Init`. -/
def requireIoApics (ps : Parse) : Option (Except (Fault × Parse) Parse) :=
  if ps.acpi.ioApics.len = 0 then
    some (.error (.panic "Unable to find IO APIC to setup interrupts.\n", ps))
  else some (.ok ps)

/-- `Init` behind the mapping of the BIOS area: `ParseRSDP` calls `ParseRSDT`, and the loop
ends with it. -/
def initTables (m : Bytes) (fuel : Nat) (ps : Parse) : Option (Except (Fault × Parse) Parse) :=
  match (search m).outcome with
  | .error e => some (.error (e, ps))
  | .ok none => requireIoApics ps
  | .ok (some rsdtAddr) => andThen (parseRSDT m (kptr (some rsdtAddr)) fuel ps) requireIoApics

/-- `for (start_addr = 0xe0000; start_addr < 0x100000; start_addr += PAGESIZE)` -/
def biosPages : List Nat :=
  (List.range ((biosEnd - searchStart) / pageSize)).map fun i => searchStart + pageSize * i

/-- The first loop of `Init`. -/
def mapBios (s : Paging) : Except Fault Paging :=
  biosPages.foldlM (fun s p => s.mapPage p false true) s

/-- A parse whose reads go through the page tables. -/
def throughTables (s : Paging) (r : Except (Fault × Parse) Parse) :
    Except (Fault × Parse) (Parse × Paging) :=
  match r with
  | .ok ps => if ∀ x ∈ ps.reads, s.Readable x.addr then .ok (ps, s) else .error (.pageFault, ps)
  | .error (e, ps) =>
      if ∀ x ∈ ps.reads, s.Readable x.addr then .error (e, ps) else .error (.pageFault, ps)

/-- `Init`. The loop that maps the BIOS area and the heap share the page allocator. -/
def init (m : Bytes) (fuel : Nat) (s : Paging) (ps : Parse) :
    Option (Except (Fault × Parse) (Parse × Paging)) :=
  let heap := ps.acpi.store.heap
  andThen (some (stopAt ps (mapBios { s with pages := heap.pages }))) fun s =>
    let store := { ps.acpi.store with heap := { heap with pages := s.pages } }
    let ps := { ps with acpi := { ps.acpi with store := store } }
    if ∀ x ∈ (search m).reads, s.Readable x then
      (initTables m fuel ps).map (throughTables s)
    else some (.error (.pageFault, ps))

end Acpi

end Chestnut
