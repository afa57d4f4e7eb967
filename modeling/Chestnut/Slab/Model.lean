import Chestnut.Pages.Model
import Mathlib.Data.Nat.Log

/-!
# The slab allocator

`MemCache<Slab, ObjSize>` serves objects of one size out of slabs, pages cut
into equal slots. Three slab classes record the free slots in three ways: a
striped bitmap, a stack of slot numbers, and, for the slabs that hold the
headers of all other slabs, a list threaded through the free slots. A cache
keeps its slabs in three queues; `kernel::Alloc` picks a cache by size and
goes to the page allocator above 2048 bytes.

## Implementation notes

An object is named by its physical address, so `PADDR_TO_KPTR` and
`KPTR_TO_PADDR` are not seen. Memory is typed: list nodes are named by the
object and the member that hold them, slab headers by their address, and
`node` is the first member of every slab, so a `ListNode *` and the slab it
heads share one name. The template parameter of `MemCache` is a record of
operations. `slabs` is a history variable: the slabs obtained from
`AllocSlab` and not given back to `FreeSlab`; no operation reads it. The
counters of a cache are natural numbers, as they count distinct objects in
memory.
-/

namespace Chestnut

open Lib

/-- The instances of `MemCache`. -/
inductive CacheKind
  | metaSlab
  | chunk16
  | chunk32
  | chunk64
  | chunk128
  | chunk256
  | chunk512
  | chunk1024
  | chunk2048
  deriving DecidableEq, Repr

/-- The template argument `ObjSize`. -/
def CacheKind.objSize : CacheKind → Nat
  | .metaSlab => 64
  | .chunk16 => 16
  | .chunk32 => 32
  | .chunk64 => 64
  | .chunk128 => 128
  | .chunk256 => 256
  | .chunk512 => 512
  | .chunk1024 => 1024
  | .chunk2048 => 2048

/-- A `MemCacheBase *`: a global cache, or one that `CreateNew` placed at an
address. -/
structure CacheRef where
  kind : CacheKind
  site : Option Nat
  deriving DecidableEq, Repr

/-- The statically allocated cache of a kind. -/
def CacheRef.global (k : CacheKind) : CacheRef := ⟨k, none⟩

/-- The members of `slab_queue`. -/
inductive Queue
  | full
  | half
  | empty
  deriving DecidableEq, Repr

/-- A `ListNode *`. -/
inductive NodeRef
  | queue (c : CacheRef) (q : Queue)
  | node (a : Nat)
  | freeSlab (a : Nat)
  deriving DecidableEq, Repr

/-- A slab header, the members of all classes side by side. -/
structure SlabRec where
  dataPage : PageRef := .null
  bitmap : Nat → BitVec 64 := fun _ => 0
  nrFree : Nat := 0
  nrTotal : Nat := 0
  freeStack : Nat → Nat := fun _ => 0
  nrFreeSlab : Nat := 0

structure Stat where
  allocated : Nat := 0
  slabPg : Nat := 0
  maxPg : Nat := 0
  deriving DecidableEq, Repr

structure Heap where
  pages : MemPages
  nodes : Links NodeRef
  slab : Nat → SlabRec
  stat : CacheRef → Stat
  slabs : List (CacheRef × Nat)

/-- A heap operation that may fault. -/
abbrev HeapM (α : Type) := Heap → Except Fault (α × Heap)

namespace Heap

def setSlab (h : Heap) (a : Nat) (r : SlabRec) : Heap :=
  { h with slab := Function.update h.slab a r }

def setStat (h : Heap) (c : CacheRef) (s : Stat) : Heap :=
  { h with stat := Function.update h.stat c s }

def setNodes (h : Heap) (l : Links NodeRef) : Heap := { h with nodes := l }

def setPages (h : Heap) (m : MemPages) : Heap := { h with pages := m }

/-- Record what a page is used for. -/
def setOwner (h : Heap) (p : PageRef) (slab : Nat) (objSize : Nat) : Heap :=
  h.setPages (h.pages.setPage p { h.pages.page p with slabPtr := slab, slabObjSize := objSize })

/-- `pg->physical_address()`. -/
def physicalAddress (h : Heap) (p : PageRef) : Except Fault Nat := do
  h.pages.deref p
  return (h.pages.page p).phyaddr

end Heap

/-- The interface that `MemCache` expects of its template argument `Slab`. -/
structure SlabClass where
  allocSlab : Nat → HeapM Nat
  freeSlab : Nat → Heap → Except Fault Heap
  init : Nat → Nat → Heap → Except Fault Heap
  alloc : Nat → HeapM Nat
  free : Nat → Nat → Heap → Except Fault Heap
  isEmpty : Heap → Nat → Bool
  isFull : Heap → Nat → Bool
  mem : Heap → Nat → Except Fault Nat

namespace BaseBitmapSlab

/-- `__builtin_ctzl`, with 64 for the zero word. -/
def ctzl (w : BitVec 64) : Nat := w.ctz.toNat

/-- `1 << idx` on `int`, widened to `u64`. -/
def intBit (idx : Nat) : BitVec 64 := ((1#32) <<< (idx % 32)).signExtend 64

/-- The search loop of `AllocFromBitmapArray`: the row with the least index. -/
def lowest (n : Nat) (bitmap : Nat → BitVec 64) : Nat × Nat :=
  (List.range n).foldl (fun (best : Nat × Nat) i =>
    let tempIdx := ctzl (bitmap i)
    if tempIdx < best.1 then (tempIdx, i) else best) (64, 0)

/-- `AllocFromBitmapArray`. -/
def allocFromBitmapArray (n : Nat) (bitmap : Nat → BitVec 64) : Nat × (Nat → BitVec 64) :=
  let (idx, row) := lowest n bitmap
  (idx * n + row, Function.update bitmap row (bitmap row ^^^ intBit idx))

/-- `FreeToBitmapArray`. -/
def freeToBitmapArray (n : Nat) (bitmap : Nat → BitVec 64) (objIdx : Nat) : Nat → BitVec 64 :=
  let row := objIdx % n
  let idx := objIdx / n
  Function.update bitmap row (bitmap row ^^^ intBit idx)

end BaseBitmapSlab

namespace BitmapSlab

/-- `BitmapSlab<n>::Init`. -/
def init (n : Nat) (r : SlabRec) : SlabRec :=
  { r with bitmap := fun i => if i < n then BitVec.allOnes 64 else r.bitmap i }

/-- `BitmapSlab<n>::is_empty`. -/
def isEmpty (n : Nat) (r : SlabRec) : Bool :=
  (List.range' 1 (n - 1)).foldl (fun s i => s &&& r.bitmap i) (r.bitmap 0) == BitVec.allOnes 64

/-- `BitmapSlab<n>::is_full`. -/
def isFull (n : Nat) (r : SlabRec) : Bool :=
  (List.range' 1 (n - 1)).foldl (fun s i => s ||| r.bitmap i) (r.bitmap 0) == 0#64

end BitmapSlab

namespace FreeListSlab

/-- The length of `free_stack`. -/
def stackSize : Nat := 38

/-- `FreeListSlab::Init`. -/
def init (total : Nat) (r : SlabRec) : Except Fault SlabRec :=
  if total ≤ stackSize then
    .ok { r with
      nrFree := total % 256
      nrTotal := total % 256
      freeStack := fun i => if i < total then i % 256 else r.freeStack i }
  else .error .outOfBounds

/-- `FreeListSlab::Alloc`; the counter is a `u8`. -/
def alloc (r : SlabRec) : Except Fault (Nat × SlabRec) :=
  let top := (r.nrFree + 255) % 256
  if top < stackSize then .ok (r.freeStack top, { r with nrFree := top })
  else .error .outOfBounds

/-- `FreeListSlab::Free`. -/
def free (objIdx : Nat) (r : SlabRec) : Except Fault SlabRec :=
  if r.nrFree < stackSize then
    .ok { r with
      freeStack := Function.update r.freeStack r.nrFree (objIdx % 256)
      nrFree := (r.nrFree + 1) % 256 }
  else .error .outOfBounds

def isEmpty (r : SlabRec) : Bool := r.nrFree == r.nrTotal

def isFull (r : SlabRec) : Bool := r.nrFree == 0

end FreeListSlab

namespace MetaSlab

/-- The loop of `MetaSlab::Init`: `count` headers from slot `i`. -/
def pushHeaders (slab : Nat) : (count i : Nat) → Links NodeRef → Links NodeRef
  | 0, _, l => l
  | count + 1, i, l =>
      pushHeaders slab count (i + 1) (l.insertAfter (.node (slab + 64 * i)) (.freeSlab slab))

/-- `MetaSlab::Init`. -/
def init (slab : Nat) (total : Nat) (h : Heap) : Except Fault Heap := do
  let h := h.setNodes (h.nodes.initHead (.freeSlab slab))
  let h := h.setSlab slab { h.slab slab with nrFreeSlab := 63 }
  kassert (total == 64) "total == 64"
  return h.setNodes (pushHeaders slab 63 1 h.nodes)

/-- The byte distance of a node from the slab, where the node lies in a page. -/
def nodeOffset (slab : Nat) : NodeRef → Except Fault Int
  | .node a => .ok ((a : Int) - slab)
  | .freeSlab a => .ok ((a : Int) + 16 - slab)
  | .queue _ _ => .error .outOfBounds

/-- `MetaSlab::Alloc`. -/
def alloc (slab : Nat) (h : Heap) : Except Fault (Nat × Heap) := do
  let node := h.nodes.next (.freeSlab slab)
  let h := h.setNodes (h.nodes.delete node)
  let r := h.slab slab
  kassert (0 < r.nrFreeSlab) "nr_free_slab > 0"
  let h := h.setSlab slab { r with nrFreeSlab := (r.nrFreeSlab + 255) % 256 }
  let offset ← nodeOffset slab node
  let idx := offset.tdiv 64
  kassert (0 < idx && idx < 64) "idx > 0 && idx < 64"
  return (idx.toNat, h)

/-- `MetaSlab::Free`. -/
def free (slab : Nat) (objIdx : Nat) (h : Heap) : Except Fault Heap := do
  kassert (0 < objIdx && objIdx < 64) "obj_idx > 0 && obj_idx < 64"
  let h := h.setNodes (h.nodes.insertAfter (.node (slab + objIdx * 64)) (.freeSlab slab))
  let r := h.slab slab
  return h.setSlab slab { r with nrFreeSlab := (r.nrFreeSlab + 1) % 256 }

/-- `MetaSlab::AllocSlab`. -/
def allocSlab (objSize : Nat) (h : Heap) : Except Fault (Nat × Heap) := do
  let (p, m) ← h.pages.allocPage
  let h := h.setPages m
  let slab ← h.physicalAddress p
  return (slab, h.setOwner p slab objSize)

/-- `MetaSlab::FreeSlab`. -/
def freeSlab (slab : Nat) (h : Heap) : Except Fault Heap := do
  let m ← h.pages.freePage (MemPages.pageOf slab)
  return h.setPages m

/-- The class `MetaSlab`. -/
def slabClass : SlabClass where
  allocSlab := allocSlab
  freeSlab := freeSlab
  init := init
  alloc := alloc
  free := free
  isEmpty h a := (h.slab a).nrFreeSlab == 63
  isFull h a := (h.slab a).nrFreeSlab == 0
  mem _ a := .ok a

end MetaSlab

namespace MemCache

/-- `MemCache::ReclaimEmptySlab`. -/
def reclaimEmptySlab (S : SlabClass) (c : CacheRef) (slab : Nat) (h : Heap) :
    Except Fault (Bool × Heap) :=
  if (h.stat c).slabPg ≤ (h.stat c).maxPg then .ok (false, h)
  else do
    let h := h.setStat c { h.stat c with slabPg := (h.stat c).slabPg - 1 }
    let h := { h with slabs := h.slabs.erase (c, slab) }
    let h ← S.freeSlab slab h
    return (true, h)

/-- Link a slab in behind the head of a queue. -/
def enqueue (c : CacheRef) (q : Queue) (slab : Nat) (h : Heap) : Heap :=
  h.setNodes (h.nodes.insertAfter (.node slab) (.queue c q))

/-- `MemCache::AdjustSlab`. -/
def adjustSlab (S : SlabClass) (c : CacheRef) (slab : Nat) (h : Heap) : Except Fault Heap :=
  if S.isFull h slab then .ok (enqueue c .full slab h)
  else if S.isEmpty h slab then do
    let (gone, h) ← reclaimEmptySlab S c slab h
    return if gone then h else enqueue c .empty slab h
  else .ok (enqueue c .half slab h)

/-- The slab headed by a list node. -/
def slabOfNode : NodeRef → Except Fault Nat
  | .node a => .ok a
  | _ => .error .outOfBounds

/-- What `MemCache::Allocate` does with a slab that `AllocSlab` returned. -/
def openSlab (S : SlabClass) (objSize : Nat) (c : CacheRef) (slab : Nat) (h : Heap) :
    Except Fault Heap := do
  let h := { h with slabs := (c, slab) :: h.slabs }
  let h ← S.init slab (pageSize / objSize) h
  return h.setStat c { h.stat c with slabPg := (h.stat c).slabPg + 1 }

/-- The first half of `MemCache::Allocate`: a slab with a free slot, in no
queue. -/
def takeSlab (S : SlabClass) (objSize : Nat) (c : CacheRef) (h : Heap) :
    Except Fault (Nat × Heap) :=
  if h.nodes.isEmpty (.queue c .half) then
    if h.nodes.isEmpty (.queue c .empty) then do
      let (slab, h) ← S.allocSlab objSize h
      let h ← openSlab S objSize c slab h
      return (slab, h)
    else do
      let node := h.nodes.next (.queue c .empty)
      let slab ← slabOfNode node
      return (slab, h.setNodes (h.nodes.delete node))
  else do
    let node := h.nodes.next (.queue c .half)
    let slab ← slabOfNode node
    return (slab, h.setNodes (h.nodes.delete node))

/-- The second half of `MemCache::Allocate`: a slot of the slab. -/
def serveSlab (S : SlabClass) (objSize : Nat) (c : CacheRef) (slab : Nat) (h : Heap) :
    Except Fault (Nat × Heap) := do
  let (idx, h) ← S.alloc slab h
  let mem ← S.mem h slab
  let h := h.setStat c { h.stat c with allocated := (h.stat c).allocated + 1 }
  let h ← adjustSlab S c slab h
  return (mem + idx * objSize, h)

/-- `MemCache::Allocate`. -/
def allocate (S : SlabClass) (objSize : Nat) (c : CacheRef) (h : Heap) :
    Except Fault (Nat × Heap) := do
  let (slab, h) ← takeSlab S objSize c h
  serveSlab S objSize c slab h

/-- `MemCache::Free`. -/
def free (S : SlabClass) (objSize : Nat) (c : CacheRef) (addr : Nat) (h : Heap) :
    Except Fault Heap := do
  let p := MemPages.pageOf addr
  h.pages.deref p
  let slab := (h.pages.page p).slabPtr
  let h := h.setNodes (h.nodes.delete (.node slab))
  let h ← S.free slab ((addr - pg addr) / objSize) h
  let h := h.setStat c { h.stat c with allocated := (h.stat c).allocated - 1 }
  adjustSlab S c slab h

end MemCache

namespace BaseSlab

/-- `meta_slab_cache`. -/
def metaSlabCache : CacheRef := .global .metaSlab

/-- The part of `BaseSlab::AllocSlab` that gives a header its page. -/
def attachPage (slab objSize : Nat) (h : Heap) : Except Fault Heap := do
  let (p, m) ← h.pages.allocPage
  let h := h.setPages m
  let h := h.setSlab slab { h.slab slab with dataPage := p }
  h.pages.deref p
  return h.setOwner p slab objSize

/-- `BaseSlab::AllocSlab`. -/
def allocSlab (objSize : Nat) (h : Heap) : Except Fault (Nat × Heap) := do
  let (slab, h) ← MemCache.allocate MetaSlab.slabClass 64 metaSlabCache h
  let h ← attachPage slab objSize h
  return (slab, h)

/-- `BaseSlab::FreeSlab`: only the header is given back. -/
def freeSlab (slab : Nat) (h : Heap) : Except Fault Heap :=
  MemCache.free MetaSlab.slabClass 64 metaSlabCache slab h

/-- `BaseSlab::mem`. -/
def mem (h : Heap) (slab : Nat) : Except Fault Nat := h.physicalAddress (h.slab slab).dataPage

end BaseSlab

/-- The class `BitmapSlab<n>`. -/
def BitmapSlab.slabClass (n : Nat) : SlabClass where
  allocSlab := BaseSlab.allocSlab
  freeSlab := BaseSlab.freeSlab
  init a _ h := .ok (h.setSlab a (BitmapSlab.init n (h.slab a)))
  alloc a h :=
    let r := h.slab a
    let (idx, bitmap) := BaseBitmapSlab.allocFromBitmapArray n r.bitmap
    .ok (idx, h.setSlab a { r with bitmap := bitmap })
  free a objIdx h :=
    let r := h.slab a
    .ok (h.setSlab a { r with bitmap := BaseBitmapSlab.freeToBitmapArray n r.bitmap objIdx })
  isEmpty h a := BitmapSlab.isEmpty n (h.slab a)
  isFull h a := BitmapSlab.isFull n (h.slab a)
  mem := BaseSlab.mem

/-- The class `FreeListSlab`. -/
def FreeListSlab.slabClass : SlabClass where
  allocSlab := BaseSlab.allocSlab
  freeSlab := BaseSlab.freeSlab
  init a total h := do
    let r ← FreeListSlab.init total (h.slab a)
    return h.setSlab a r
  alloc a h := do
    let (idx, r) ← FreeListSlab.alloc (h.slab a)
    return (idx, h.setSlab a r)
  free a objIdx h := do
    let r ← FreeListSlab.free objIdx (h.slab a)
    return h.setSlab a r
  isEmpty h a := FreeListSlab.isEmpty (h.slab a)
  isFull h a := FreeListSlab.isFull (h.slab a)
  mem := BaseSlab.mem

/-- The template argument `Slab`. -/
def CacheKind.slabClass : CacheKind → SlabClass
  | .metaSlab => MetaSlab.slabClass
  | .chunk16 => BitmapSlab.slabClass 4
  | .chunk32 => BitmapSlab.slabClass 2
  | .chunk64 => BitmapSlab.slabClass 1
  | _ => FreeListSlab.slabClass

namespace CacheRef

/-- The virtual call `cache->Allocate()`. -/
def allocate (c : CacheRef) (h : Heap) : Except Fault (Nat × Heap) :=
  MemCache.allocate c.kind.slabClass c.kind.objSize c h

/-- The virtual call `cache->Free(ptr)`. -/
def free (c : CacheRef) (addr : Nat) (h : Heap) : Except Fault Heap :=
  MemCache.free c.kind.slabClass c.kind.objSize c addr h

def setMaxPage (c : CacheRef) (maxPage : Nat) (h : Heap) : Heap :=
  h.setStat c { h.stat c with maxPg := maxPage }

/-- The constructor of a cache: counters at zero and three empty queues. -/
def construct (c : CacheRef) (h : Heap) : Heap :=
  let h := h.setStat c {}
  let h := h.setNodes (h.nodes.initHead (.queue c .full))
  let h := h.setNodes (h.nodes.initHead (.queue c .half))
  h.setNodes (h.nodes.initHead (.queue c .empty))

end CacheRef

namespace Kernel

/-- `kGlobalMemCache`. -/
def globalKinds : List CacheKind :=
  [.chunk16, .chunk32, .chunk64, .chunk128, .chunk256, .chunk512, .chunk1024, .chunk2048]

/-- `InitSlab`, on memory of any content. -/
def initSlab (pages : MemPages) (nodes : Links NodeRef) (slab : Nat → SlabRec) : Heap :=
  (CacheKind.metaSlab :: globalKinds).foldl (fun h k => (CacheRef.global k).construct h)
    { pages := pages, nodes := nodes, slab := slab, stat := fun _ => {}, slabs := [] }

/-- `__builtin_clz`, with 32 for zero. -/
def clz (x : Nat) : Nat := if x = 0 then 32 else 31 - Nat.log 2 x

/-- Values of an `int`, as a 32-bit two's complement word. -/
def int32 (x : Int) : Int := Int.bmod x (2 ^ 32)

/-- `FitGlobalMemCache`. -/
def fitGlobalMemCache (objSize : Int) : Except Fault CacheRef := do
  let idx : Int := 32 - clz ((objSize - 1) % 2 ^ 32).toNat - 4
  let idx := if idx < 0 then 0 else idx
  kassert (idx < 8) "idx < 8"
  return .global (globalKinds.getD idx.toNat .chunk16)

/-- `kernel::Alloc`. -/
def alloc (objSize : Int) (h : Heap) : Except Fault (Nat × Heap) :=
  if objSize > 2048 then do
    let nrPage := (objSize - 1).tdiv pageSize + 1
    let (p, m) ← h.pages.allocPages nrPage
    let h := h.setPages m
    h.pages.deref p
    let r := { h.pages.page p with slabObjSize := int32 (nrPage * pageSize) }
    let h := h.setPages (h.pages.setPage p r)
    let addr ← h.physicalAddress p
    return (addr, h)
  else do
    let c ← fitGlobalMemCache objSize
    c.allocate h

/-- `kernel::Free`. -/
def free (ptr : Option Nat) (h : Heap) : Except Fault Heap :=
  match ptr with
  | none => .ok h
  | some addr => do
      let p := MemPages.pageOf addr
      h.pages.deref p
      let size := (h.pages.page p).slabObjSize
      if size > 2048 then do
        let m ← h.pages.freePages (pgnum addr) (size.tdiv pageSize)
        return h.setPages m
      else do
        let c ← fitGlobalMemCache size
        c.free addr h

/-- `sizeof(MemCache<Slab, ObjSize>)`. -/
def sizeofMemCache : Int := 80

end Kernel

/-- The virtual call `cache->CreateNew()`. -/
def CacheRef.createNew (c : CacheRef) (h : Heap) : Except Fault (CacheRef × Heap) := do
  let g ← Kernel.fitGlobalMemCache Kernel.sizeofMemCache
  let (addr, h) ← g.allocate h
  let new : CacheRef := ⟨c.kind, some addr⟩
  return (new, new.construct h)

end Chestnut
