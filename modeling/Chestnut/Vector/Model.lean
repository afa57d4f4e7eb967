import Chestnut.Lib.Copy
import Chestnut.Slab.Model

/-!
# Vectors

`BaseVector` and `Vector<T>` of `libc/vector.h` and `libc/vector.cc`, with the
copy loops of `libc/string.c`, byte by byte. `T` is trivially copyable: an
element is its `sizeof(T)` bytes, a copy of it copies them and its destructor
does nothing.

## Implementation notes

A pointer is null or `KERN_OFFSET` plus a physical address, as the allocator
hands it out. Sizes are `size_t`, the copy loops and `kernel::Alloc` take an
`int`. The functions are written over any pair of `Alloc` and `Free`, of which
the kernel's is one.
-/

namespace Chestnut

open Lib

/-! ### `libc/string.c` -/

/-- How often `while (len--)` runs its body: a negative `int` counts down through all
values below it. -/
def lenTurns (len : Int) : Nat := (len % 2 ^ 32).toNat

def memcpy (dst src len : Int) (b : Bus) : Bus := b.copyUp (lenTurns len) dst src

/-- `memmove` always copies from the last byte downwards. -/
def memmove (dst src len : Int) (b : Bus) : Bus :=
  b.copyDown (lenTurns len) (dst + (len - 1)) (src + (len - 1))

/-! ### `libc/vector.h` -/

/-- `kernel::Alloc` and `kernel::Free` with the state they work on. -/
structure Allocator (σ : Type) where
  alloc : Int → σ → Except Fault (Nat × σ)
  free : Option Nat → σ → Except Fault σ

/-- The kernel's own. -/
def Kernel.allocator : Allocator Heap := ⟨Kernel.alloc, Kernel.free⟩

/-- The allocator's state and the bytes of memory. -/
structure Store (σ : Type) where
  heap : σ
  bus : Bus

/-- The pointer to a block, `PADDR_TO_KPTR(paddr)`. -/
def kptr : Option Nat → Int
  | none => 0
  | some paddr => kernOffset + paddr

/-- Values of a `size_t`. -/
def sizeT (x : Int) : Int := x % 2 ^ 64

/-- An object of a trivially copyable type. -/
abbrev Elem (sz : Nat) : Type := Fin sz → BitVec 8

/-- `BaseVector`; the initial values are those of the default constructor of `Vector`. -/
structure BaseVector where
  capacity : Nat := 0
  len : Nat := 0
  ptr : Option Nat := none
  deriving DecidableEq, Repr

/-- `&arr[i]`. -/
def slotPtr (arr : Int) (sz i : Nat) : Int := arr + (i * sz : Nat)

namespace BaseVector

variable {σ : Type} (A : Allocator σ)

/-- `ResetPtr`. -/
def resetPtr (newCapacity eleSize : Nat) (v : BaseVector) (s : Store σ) :
    Except Fault (BaseVector × Store σ) :=
  if newCapacity = 0 then do
    let heap ← A.free v.ptr s.heap
    return ({ v with ptr := none, capacity := newCapacity }, { s with heap := heap })
  else do
    let (p, heap) ← A.alloc (Kernel.int32 (sizeT (newCapacity * eleSize))) s.heap
    let bus := memcpy (kptr (some p)) (kptr v.ptr) (Kernel.int32 (sizeT (v.len * eleSize))) s.bus
    let heap ← A.free v.ptr heap
    return ({ v with ptr := some p, capacity := newCapacity }, ⟨heap, bus⟩)

/-- `Extend`. -/
def extend (eleSize : Nat) (v : BaseVector) (s : Store σ) : Except Fault (BaseVector × Store σ) :=
  if v.capacity = 0 then v.resetPtr A 16 eleSize s
  else v.resetPtr A (sizeT (v.capacity * 2)).toNat eleSize s

/-- `EnsureSpace`. -/
def ensureSpace (idx eleSize : Nat) (v : BaseVector) (s : Store σ) :
    Except Fault (BaseVector × Store σ) :=
  if idx ≥ v.capacity then v.extend A eleSize s else return (v, s)

/-- `Vector::Insert`; the last step is the placement `new` at `arr[pos]`. -/
def insert {sz : Nat} (pos : Nat) (xref : Elem sz) (v : BaseVector) (s : Store σ) :
    Except Fault (BaseVector × Store σ) := do
  let (v, s) ← v.ensureSpace A v.len sz s
  let arr := kptr v.ptr
  let bus := memmove (slotPtr arr sz (pos + 1)) (slotPtr arr sz pos)
    (Kernel.int32 (sizeT ((v.len - pos) * sz))) s.bus
  let bus := bus.storeAll (slotPtr arr sz pos) (List.ofFn xref)
  return ({ v with len := (sizeT (v.len + 1)).toNat }, { s with bus := bus })

/-- `Vector::PushBack`. -/
def pushBack {sz : Nat} (xref : Elem sz) (v : BaseVector) (s : Store σ) :
    Except Fault (BaseVector × Store σ) :=
  v.insert A v.len xref s

/-- `Vector::Remove`. -/
def remove (sz pos : Nat) (v : BaseVector) (b : Bus) : BaseVector × Bus :=
  let arr := kptr v.ptr
  let b := memmove (slotPtr arr sz pos) (slotPtr arr sz (pos + 1))
    (Kernel.int32 (sizeT ((v.len - pos - 1) * sz))) b
  ({ v with len := (sizeT (v.len - 1)).toNat }, b)

/-- `Vector::PopBack`. -/
def popBack (sz : Nat) (v : BaseVector) (b : Bus) : BaseVector × Bus := v.remove sz v.len b

/-- `Vector(Vector &&rhs)`: the new vector and what is left of `rhs`. -/
def moveFrom (rhs : BaseVector) : BaseVector × BaseVector :=
  (⟨rhs.len, rhs.len, rhs.ptr⟩, { rhs with ptr := none, len := 0 })

/-- The element that memory holds at an index. -/
def elemAt (m : Bytes) (arr : Int) (sz i : Nat) : Elem sz :=
  fun c => m (slotPtr arr sz i + (c : Nat))

/-- The elements of a vector. -/
def elements (sz : Nat) (v : BaseVector) (m : Bytes) : List (Elem sz) :=
  (List.range v.len).map (elemAt m (kptr v.ptr) sz)

/-- The address is one of the `capacity * sizeof(T)` bytes at `ptr`. -/
def InBlock (sz : Nat) (v : BaseVector) (a : Int) : Prop :=
  kptr v.ptr ≤ a ∧ a < kptr v.ptr + (v.capacity * sz : Nat)

end BaseVector

end Chestnut
