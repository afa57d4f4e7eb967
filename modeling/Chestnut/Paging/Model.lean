import Chestnut.Pages.Model
import Chestnut.Paging.Processor

/-!
# Page-table entries and the kernel page table

`page-table.h` and `page-table.cc`: the 64-bit entries, the descent through
`operator[]`, the mapping loop and `InitKernelPageTable`.

## Implementation notes

Physical memory is a table of 64-bit words, indexed by the byte address of
the word: every access of this component is to an aligned entry or clears a
whole page. An entry that the code changes through a C++ reference is named by
an `EntryRef`: the static `kernel_pgt`, the local `kern_entry`, or the word of a
table at `PADDR_TO_KPTR(a)`. The last goes through the tables that `cr3` points
to at the time, and faults where they do not map it. The kernel's image with its
stack, and the records of the page allocator, are taken to stay mapped.
-/

namespace Chestnut

namespace Entry

def setFlag (b : Bool) (bit : Nat) (entry : Entry) : Entry :=
  let flag : BitVec 64 := 1#64 <<< bit
  if b then entry ||| flag else entry &&& ~~~flag

def getFlag (bit : Nat) (entry : Entry) : Bool :=
  let flag : BitVec 64 := 1#64 <<< bit
  (entry &&& flag) != 0#64

def setPresent (present : Bool) : Entry → Entry := setFlag present 0
def isPresent : Entry → Bool := getFlag 0
def setReadWrite (ro : Bool) : Entry → Entry := setFlag ro 1
def isReadWrite : Entry → Bool := getFlag 1
def setWriteThrough (wt : Bool) : Entry → Entry := setFlag wt 3
def isWriteThrough : Entry → Bool := getFlag 3
def setCacheDisabled (cd : Bool) : Entry → Entry := setFlag cd 4
def setHuge (huge : Bool) : Entry → Entry := setFlag huge 7
def isHuge : Entry → Bool := getFlag 7

/-- `physical_address()`: the mask clears the low nine bits. -/
def physicalAddress (entry : Entry) : Nat := (entry &&& ~~~0x1FF#64).toNat

/-- `CommonBaseEntry(paddr)`. -/
def ofPaddr (paddr : Nat) : Entry := setReadWrite true (setPresent true (BitVec.ofNat 64 paddr))

end Entry

/-- The entry a reference of the source denotes. -/
inductive EntryRef
  | pgt
  | kern
  | slot (addr : Nat)
  deriving DecidableEq, Repr

/-- The memory the page-table code works on. `pgt` is `kernel_pgt.entry`, `kern`
the local `kern_entry` of `InitKernelPageTable`. -/
structure Paging where
  pages : MemPages
  mem : Nat → Entry
  pgt : Entry
  kern : Entry
  cr3 : Entry

namespace Paging

def read (s : Paging) : EntryRef → Entry
  | .pgt => s.pgt
  | .kern => s.kern
  | .slot a => s.mem a

def write (s : Paging) : EntryRef → Entry → Paging
  | .pgt, e => { s with pgt := e }
  | .kern, e => { s with kern := e }
  | .slot a, e => { s with mem := Function.update s.mem a e }

/-- The physical page at `base` is set to zero. -/
def clear (s : Paging) (base : Nat) : Paging :=
  { s with mem := fun a => if base ≤ a ∧ a < base + pageSize then 0#64 else s.mem a }

/-- The tables map the byte at a virtual address. -/
def Readable (s : Paging) (x : Int) : Prop := (walk s.mem s.cr3 x.toNat).isSome = true

instance (s : Paging) (x : Int) : Decidable (s.Readable x) :=
  inferInstanceAs (Decidable (_ = true))

/-- The physical address behind `PADDR_TO_KPTR(a)`. -/
def translate (s : Paging) (a : Nat) : Except Fault Nat :=
  match walk s.mem s.cr3 ((kernOffset + a) % u64Size) with
  | some t => .ok t.paddr
  | none => .error .pageFault

/-- The entry that the processor reaches for a reference. -/
def resolve (s : Paging) : EntryRef → Except Fault EntryRef
  | .slot a => do
      let a ← s.translate a
      return .slot a
  | r => .ok r

def load (s : Paging) (r : EntryRef) : Except Fault Entry := do
  let r ← s.resolve r
  return s.read r

def store (s : Paging) (r : EntryRef) (e : Entry) : Except Fault Paging := do
  let r ← s.resolve r
  return s.write r e

/-- `memset(PADDR_TO_KPTR(paddr), 0, PAGESIZE)`. The address of a page is a
multiple of its size, so one translation serves all of it. -/
def clearPage (s : Paging) (paddr : Nat) : Except Fault Paging := do
  let base ← s.translate paddr
  return s.clear base

/-- `CommonBaseEntry::Allocate`: the page that `AllocPage` returns is
dereferenced without a test. -/
def allocate (s : Paging) (r : EntryRef) : Except Fault Paging := do
  let (p, m) ← s.pages.allocPage
  m.deref p
  let s ← { s with pages := m }.store r (BitVec.ofNat 64 (m.page p).phyaddr)
  let entry ← s.load r
  let s ← s.clearPage entry.toNat
  let entry ← s.load r
  let s ← s.store r (Entry.setPresent true entry)
  let entry ← s.load r
  s.store r (Entry.setReadWrite true entry)

/-- `AllocateOrPresent`. -/
def allocateOrPresent (s : Paging) (r : EntryRef) : Except Fault Paging := do
  let entry ← s.load r
  if !Entry.isPresent entry then s.allocate r else return s

/-- The nine bits of a virtual address that `operator[]` of a level picks. -/
def offset (level vaddr : Nat) : Nat := (vaddr >>> (12 + (level - 1) * 9)) &&& 0x1FF

/-- `operator[]` of `CommonEntry<Level>`. Only the last level looks at the
huge bit. -/
def index (s : Paging) (level : Nat) (r : EntryRef) (vaddr : Nat) : Except Fault EntryRef := do
  let entry ← s.load r
  if level = 1 ∧ Entry.isHuge entry = true then
    throw (.panic "Cannot access huge page dir entry")
  kassert (offset level vaddr < 512) "offset < 512"
  return .slot (Entry.physicalAddress entry + 8 * offset level vaddr)

/-- `r.AllocateOrPresent()[vaddr]`. -/
def child (level vaddr : Nat) (r : EntryRef) (s : Paging) : Except Fault (EntryRef × Paging) := do
  let s ← s.allocateOrPresent r
  let r ← s.index level r vaddr
  return (r, s)

/-- The three ways `MapPagesToPageTable` stores a leaf: `kern_entry` is
followed through one, two or three levels. -/
def mapHuge (s : Paging) (vaddr : Nat) (entry : Entry) : Except Fault Paging := do
  let (r, s) ← child 3 vaddr .kern s
  s.store r entry

@[inherit_doc mapHuge]
def mapLarge (s : Paging) (vaddr : Nat) (entry : Entry) : Except Fault Paging := do
  let (r, s) ← child 3 vaddr .kern s
  let (r, s) ← child 2 vaddr r s
  s.store r entry

@[inherit_doc mapHuge]
def mapSmall (s : Paging) (vaddr : Nat) (entry : Entry) : Except Fault Paging := do
  let (r, s) ← child 3 vaddr .kern s
  let (r, s) ← child 2 vaddr r s
  let (r, s) ← child 1 vaddr r s
  s.store r entry

/-- The loop of `MapPagesToPageTable` up to `stop`, with room for `steps`
passes: a pass advances by a page at least. -/
def mapLoop (skip writeThrough : Bool) (stop : Nat) : (steps addr : Nat) → Paging →
    Except Fault Paging
  | 0, _, s => .ok s
  | steps + 1, addr, s =>
      let vaddr := (kernOffset + addr) % u64Size
      if addr < stop then
        if skip ∧ addr % hugePageSize = 0 ∧ addr + hugePageSize ≤ stop then do
          let entry := Entry.setWriteThrough writeThrough (Entry.setHuge true (Entry.ofPaddr addr))
          let s ← s.mapHuge vaddr entry
          mapLoop skip writeThrough stop steps (addr + hugePageSize) s
        else if skip ∧ addr % largePageSize = 0 ∧ addr + largePageSize ≤ stop then do
          let entry := Entry.setWriteThrough writeThrough (Entry.setHuge true (Entry.ofPaddr addr))
          let s ← s.mapLarge vaddr entry
          mapLoop skip writeThrough stop steps (addr + largePageSize) s
        else do
          let entry := Entry.setWriteThrough writeThrough (Entry.ofPaddr addr)
          let s ← s.mapSmall vaddr entry
          mapLoop skip writeThrough stop steps (addr + pageSize) s
      else .ok s

/-- `MapPagesToPageTable` on the range of one memory-map entry. -/
def mapPagesToPageTable (e : MmapEntry) (skip writeThrough : Bool) (s : Paging) :
    Except Fault Paging :=
  mapLoop skip writeThrough e.stop (pageSteps e.addr e.stop) e.addr s

/-- Available memory may use large pages; everything else is mapped page by
page and write-through. -/
def mapEntry (e : MmapEntry) (s : Paging) : Except Fault Paging :=
  if e.available then mapPagesToPageTable e true false s
  else mapPagesToPageTable e false true s

/-- The loop of `InitKernelPageTable` over the memory map. -/
def mapEntries : List MmapEntry → Paging → Except Fault Paging
  | [], s => .ok s
  | e :: es, s =>
      if e.addr % pageSize ≠ 0 then mapEntries es s
      else do
        let s ← mapEntry e s
        mapEntries es s

/-- `kernel_pgt[vaddr] = entry`. -/
def setRoot (s : Paging) (vaddr : Nat) (entry : Entry) : Except Fault Paging := do
  let r ← s.index 4 .pgt vaddr
  s.store r entry

/-- `InitKernelPageTable`. -/
def initKernelPageTable (es : List MmapEntry) (s : Paging) : Except Fault Paging := do
  if s.pages.maxPhy > kernMaxMemory then
    throw (.panic "Cannot support more than 512GB memory!")
  let s ← mapEntries es { s with kern := 0#64 }
  let s ← s.setRoot 0 0#64
  let s ← s.setRoot kernOffset s.kern
  return { s with cr3 := s.pgt }

/-- `PageTable::MapPage`. -/
def mapPage (s : Paging) (paddr : Nat) (writeThrough cacheDisabled : Bool) :
    Except Fault Paging := do
  let vaddr := (kernOffset + paddr) % u64Size
  let entry := Entry.setCacheDisabled cacheDisabled
    (Entry.setWriteThrough writeThrough (Entry.ofPaddr paddr))
  let r ← s.index 4 .pgt vaddr
  let (r, s) ← child 3 vaddr r s
  let (r, s) ← child 2 vaddr r s
  let (r, s) ← child 1 vaddr r s
  s.store r entry

end Paging

end Chestnut
