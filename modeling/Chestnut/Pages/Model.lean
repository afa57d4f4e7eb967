import Chestnut.Base
import Chestnut.Lib.Ring

/-!
# The page allocator

`MemPages` keeps one `Page` record for every physical page and links the free
ones into a circular list through `page_head`. The two link fields of all
records, `page_head` included, are one link table; the other fields are one
record per page.

## Implementation notes

A `Page *` is a `PageRef`: null, the address of `page_head`, or an element of
`page_structs`. Going through a null reference or past `nr_page_structs` is a
fault. The boot-time walk of a memory map is bounded by the number of its
page steps: the assertion on `PGNUM(paddr)` stops the walk before `paddr`
could wrap.
-/

namespace Chestnut

open Lib

/-- An entry of the multiboot memory map. -/
structure MmapEntry where
  addr : Nat
  len : Nat
  type : Nat
  addr_lt : addr < u64Size
  len_lt : len < u64Size
  deriving DecidableEq, Repr

theorem mod_u64Size_lt (n : Nat) : n % u64Size < u64Size := Nat.mod_lt n (by decide)

/-- The entry with the given words in its fields. -/
def MmapEntry.ofWords (addr len type : Nat) : MmapEntry :=
  ⟨addr % u64Size, len % u64Size, type, mod_u64Size_lt addr, mod_u64Size_lt len⟩

def multibootMemoryAvailable : Nat := 1
def multibootMemoryReserved : Nat := 2
def multibootMemoryAcpiReclaimable : Nat := 3

namespace MmapEntry

/-- `entry->addr + entry->len` as the code computes it. -/
def stop (e : MmapEntry) : Nat := (e.addr + e.len) % u64Size

def available (e : MmapEntry) : Bool := e.type == multibootMemoryAvailable

/-- The entries whose pages `CollectAvailable` walks. -/
def collected (e : MmapEntry) : Bool := e.available && e.addr != 0

end MmapEntry

/-- A `Page *`. -/
inductive PageRef
  | null
  | head
  | pg (i : Nat)
  deriving DecidableEq, Repr

/-- A `Page` without its two links. -/
structure Page where
  phyaddr : Nat := 0
  isFree : Bool := false
  isInList : Bool := false
  slabPtr : Nat := 0
  slabObjSize : Int := 0
  deriving DecidableEq, Repr

/-- `sizeof(Page)`. -/
def sizeofPage : Nat := 48

structure MemPages where
  availSize : Nat := 0
  reservedSize : Nat := 0
  acpiSize : Nat := 0
  totSize : Nat := 0
  availLow : Nat := 0
  maxPhy : Nat := 0
  links : Links PageRef := ⟨fun _ => .null, fun _ => .null⟩
  page : PageRef → Page := fun _ => {}
  nrPageStructs : Nat := 0

/-- The linker symbols that delimit the kernel image. -/
structure KernelImage where
  loadStart : Nat
  bssEnd : Nat

namespace KernelImage

def kBootLoaderSkipPages : Nat := 128

def kstartPg (img : KernelImage) : Nat := pg img.loadStart

def kendPg (img : KernelImage) : Nat :=
  (pgAlign img.bssEnd + kBootLoaderSkipPages * pageSize) % u64Size

end KernelImage

namespace MemPages

/-- Following a `Page *`. -/
def deref (m : MemPages) : PageRef → Except Fault Unit
  | .null => .error .nullDeref
  | .head => .ok ()
  | .pg i => if i < m.nrPageStructs then .ok () else .error .outOfBounds

def setNext (m : MemPages) (a b : PageRef) : MemPages := { m with links := m.links.setNext a b }

def setPrev (m : MemPages) (a b : PageRef) : MemPages := { m with links := m.links.setPrev a b }

/-- Overwrite the record of one page. -/
def setPage (m : MemPages) (p : PageRef) (r : Page) : MemPages :=
  { m with page := Function.update m.page p r }

/-- Both flags are always assigned together. -/
def setFlags (m : MemPages) (p : PageRef) (b : Bool) : MemPages :=
  m.setPage p { m.page p with isFree := b, isInList := b }

/-- `page(addr)`. -/
def pageOf (addr : Nat) : PageRef := .pg (pgnum addr)

/-- `AllocPage`. -/
def allocPage (m : MemPages) : Except Fault (PageRef × MemPages) :=
  if m.links.next .head = m.links.prev .head then .ok (.null, m)
  else do
    let p := m.links.next .head
    m.deref p
    let m := m.setNext .head (m.links.next p)
    m.deref (m.links.next .head)
    let m := m.setPrev (m.links.next .head) .head
    return (p, m.setFlags p false)

/-- `FreePage`. -/
def freePage (m : MemPages) (p : PageRef) : Except Fault MemPages := do
  m.deref p
  let m := m.setNext p (m.links.next .head)
  m.deref (m.links.next .head)
  let m := m.setPrev (m.links.next .head) p
  let m := m.setNext .head p
  let m := m.setPrev p .head
  return m.setFlags p true

/-- The search loop of `AllocPages`, from page `i` with `left` pages to go.
`start` is -1 outside a run. The bound on a run's first page is a `u64`. -/
def scanRun (m : MemPages) (n : Int) : (left i : Nat) → (start : Int) → Int
  | 0, _, start => start
  | left + 1, i, start =>
      if !(m.page (.pg i)).isFree then scanRun m n left (i + 1) (-1)
      else if start = -1 ∧ ((m.nrPageStructs : Int) - n) % u64Size < i then start
      else
        let start := if start = -1 then (i : Int) else start
        if (i : Int) = start + n - 1 then start else scanRun m n left (i + 1) start

/-- The unlinking loop of `AllocPages`: `count` pages from page `i`. -/
def unlinkRun : (count i : Nat) → MemPages → Except Fault MemPages
  | 0, _, m => .ok m
  | count + 1, i, m => do
      m.deref (.pg i)
      m.deref (m.links.prev (.pg i))
      let m := m.setNext (m.links.prev (.pg i)) (m.links.next (.pg i))
      m.deref (m.links.next (.pg i))
      let m := m.setPrev (m.links.next (.pg i)) (m.links.prev (.pg i))
      unlinkRun count (i + 1) (m.setFlags (.pg i) false)

/-- `AllocPages`. -/
def allocPages (m : MemPages) (n : Int) : Except Fault (PageRef × MemPages) :=
  if n = 1 then m.allocPage
  else
    let start := m.scanRun n m.nrPageStructs 0 (-1)
    if start = -1 then .ok (.null, m)
    else do
      let m ← unlinkRun n.toNat start.toNat m
      return (.pg start.toNat, m)

/-- The loop of `FreePages`: `count` pages from page `i`. -/
def freeRun : (count i : Nat) → MemPages → Except Fault MemPages
  | 0, _, m => .ok m
  | count + 1, i, m => do
      let m ← m.freePage (.pg i)
      freeRun count (i + 1) m

/-- `FreePages`. -/
def freePages (m : MemPages) (i : Nat) (n : Int) : Except Fault MemPages :=
  if n = 1 then m.freePage (.pg i) else freeRun n.toNat i m

/-- `struct_tot_sz`, the size of the page array. -/
def structTotSz (m : MemPages) : Nat := sizeofPage * m.nrPageStructs % u64Size

/-- The addresses `CollectAvailable` keeps off the free list. -/
def kernelReserved (img : KernelImage) (m : MemPages) (paddr : Nat) : Bool :=
  img.kstartPg ≤ paddr && paddr < (img.kendPg + m.structTotSz) % u64Size

/-- Appending a free page behind `last_page`. -/
def appendFree (m : MemPages) (p last : PageRef) : MemPages :=
  let m := m.setFlags p true
  let m := m.setNext p .head
  let m := m.setPrev p last
  let m := m.setPrev .head p
  m.setNext last p

/-- One pass of the inner loop of `CollectAvailable`; `last` is `last_page`. -/
def collectPage (img : KernelImage) (paddr : Nat) (m : MemPages) (last : PageRef) :
    Except Fault (MemPages × PageRef) := do
  kassert (pgnum paddr < m.nrPageStructs) "PGNUM(paddr) < nr_page_structs"
  let p := pageOf paddr
  let m := m.setPage p { m.page p with phyaddr := Chestnut.pg paddr }
  if m.kernelReserved img paddr then return (m.setFlags p false, last)
  else return (m.appendFree p last, p)

/-- The inner loop of `CollectAvailable`. -/
def collectRange (img : KernelImage) : (steps paddr : Nat) → MemPages → PageRef →
    Except Fault (MemPages × PageRef)
  | 0, _, m, last => .ok (m, last)
  | steps + 1, paddr, m, last => do
      let (m, last) ← collectPage img paddr m last
      collectRange img steps (paddr + pageSize) m last

/-- The outer loop of `CollectAvailable`. -/
def collectEntries (img : KernelImage) : List MmapEntry → MemPages → PageRef →
    Except Fault (MemPages × PageRef)
  | [], m, last => .ok (m, last)
  | e :: es, m, last =>
      if !e.collected then collectEntries img es m last
      else do
        let (m, last) ← collectRange img (pageSteps e.addr e.stop) e.addr m last
        collectEntries img es m last

/-- `memset(page_structs, 0, struct_tot_sz)`. -/
def clearPages (m : MemPages) : MemPages :=
  let keep {α : Type} (f : PageRef → α) (z : α) : PageRef → α
    | .pg _ => z
    | r => f r
  { m with
    page := keep m.page {}
    links := ⟨keep m.links.next .null, keep m.links.prev .null⟩ }

/-- `CollectAvailable`. -/
def collectAvailable (img : KernelImage) (entries : List MmapEntry) (m : MemPages) :
    Except Fault MemPages := do
  let (m, _) ← collectEntries img entries m.clearPages .head
  return m

/-- One pass of the loop of `Init`; the second component is `max_kern_mem`. -/
def initStep : MemPages × Nat → MmapEntry → MemPages × Nat
  | (m, maxKernMem), e =>
      let (m, maxKernMem) :=
        if e.type = multibootMemoryAvailable then
          if e.addr = 0 then ({ m with availLow := e.len }, maxKernMem)
          else ({ m with availSize := (m.availSize + e.len) % u64Size }, max maxKernMem e.stop)
        else if e.type = multibootMemoryReserved then
          ({ m with reservedSize := (m.reservedSize + e.len) % u64Size }, maxKernMem)
        else if e.type = multibootMemoryAcpiReclaimable then
          ({ m with acpiSize := (m.acpiSize + e.len) % u64Size }, maxKernMem)
        else (m, maxKernMem)
      ({ m with
          totSize := (m.totSize + e.len) % u64Size
          maxPhy := max m.maxPhy e.stop
          nrPageStructs := maxKernMem / pageSize }, maxKernMem)

/-- `Init` on a memory map. -/
def init (img : KernelImage) (entries : List MmapEntry) (m : MemPages) : Except Fault MemPages :=
  collectAvailable img entries (entries.foldl initStep (m, 0)).1

end MemPages

end Chestnut
