import Chestnut.Lib.Bytes
import Chestnut.Lib.Loop
import Chestnut.Paging.Model

/-!
# The multiboot information

`ParseMultibootInfo` of `main.cc`, and the memory map tag as `MemPages::Init`
and `InitKernelPageTable` see it. Pointers are addresses in flat memory; the
boot information lies in kernel memory, far from the ends of the address space.

## Implementation notes

The walk keeps the addresses of the bytes it has read, which the program does
not. `tag->size` is a `u32`, and so is its rounding: a size close to `2^32`
wraps to a small one.
-/

namespace Chestnut

open Lib

/-- `MultibootInfo`, with `none` for a null pointer. -/
structure MultibootInfo where
  bootMemMap : Option Int := none
  bootVbe : Option Int := none
  bootFramebuf : Option Int := none
  deriving DecidableEq, Repr

namespace Multiboot

def tagTypeMmap : Nat := 6
def tagTypeVbe : Nat := 7
def tagTypeFramebuffer : Nat := 8

/-- `(size + 0x07) & (~0x07)` on a `u32`. -/
def roundedSize (size : Nat) : Nat := (size + 7) % 2 ^ 32 / 8 * 8

/-- The locals of the loop of `ParseMultibootInfo`, and the bytes read so far. -/
structure TagWalk where
  tagPtr : Int
  info : MultibootInfo := {}
  reads : List Int
  deriving DecidableEq, Repr

/-- The `if` chain over `tag->type`. -/
def record (type : Nat) (tag : Int) (info : MultibootInfo) : MultibootInfo :=
  if type = tagTypeMmap then { info with bootMemMap := some tag }
  else if type = tagTypeVbe then { info with bootVbe := some tag }
  else if type = tagTypeFramebuffer then { info with bootFramebuf := some tag }
  else info

/-- The body of the loop; `type` and `size` are the two words of a `multiboot_tag`. -/
def visitTag (m : Bytes) (w : TagWalk) : TagWalk where
  tagPtr := w.tagPtr + roundedSize (m.u32 (w.tagPtr + 4))
  info := record (m.u32 w.tagPtr) w.tagPtr w.info
  reads := span w.tagPtr 8 ++ w.reads

/-- `tag_ptr < mbi + info_size`; the first word is read as an `int`. -/
def moreTags (m : Bytes) (mbi : Int) (w : TagWalk) : Bool := w.tagPtr < mbi + m.i32 mbi

/-- `ParseMultibootInfo`, cut off after `fuel` tags. -/
def parseMultibootInfo (m : Bytes) (mbi : Int) (fuel : Nat) : Option (Except Fault TagWalk) :=
  whileLoop (moreTags m mbi) (pureBody (visitTag m)) fuel
    { tagPtr := mbi + 8, reads := span mbi 4 }

/-! ### The memory map tag -/

/-- `sizeof(multiboot_tag_mmap)`. -/
def sizeofTagMmap : Nat := 16

/-- `sizeof(multiboot_mmap_entry)`, the stride of `mm->entries[i]`. -/
def sizeofMmapEntry : Nat := 24

/-- `nr_entries`: the quotient is a `size_t`, the variable an `int`. -/
def nrEntries (m : Bytes) (mm : Int) : Int :=
  Int.bmod ((m.u32 (mm + 4) + u64Size - sizeofTagMmap) % u64Size / m.u32 (mm + 8) : Nat) (2 ^ 32)

/-- The `multiboot_mmap_entry` at an address. -/
def mmapEntryAt (m : Bytes) (a : Int) : MmapEntry where
  addr := m.u64 a
  len := m.u64 (a + 8)
  type := m.u32 (a + 16)
  addr_lt := m.u64_lt a
  len_lt := m.u64_lt (a + 8)

/-- The addresses `&mm->entries[i]` that `for (int i = 0; i < nr_entries; i++)` goes
through, in `Init`, `CollectAvailable` and `InitKernelPageTable` alike. -/
def entryPtrs (m : Bytes) (mm : Int) : List Int :=
  (List.range (nrEntries m mm).toNat).map fun i : Nat =>
    mm + sizeofTagMmap + (sizeofMmapEntry * i : Nat)

/-- The entries that the three loops process. -/
def entries (m : Bytes) (mm : Int) : List MmapEntry := (entryPtrs m mm).map (mmapEntryAt m)

/-- The bytes that the three loops may read: `size` and `entry_size` of the tag, then
`addr`, `len` and `type` of each entry. -/
def mmapReads (m : Bytes) (mm : Int) : List Int :=
  span (mm + 4) 8 ++ (entryPtrs m mm).flatMap fun a => span a 20

/-- `MemPages::Init` on the tag in memory. -/
def initMemPages (img : KernelImage) (m : Bytes) (mm : Int) (pages : MemPages) :
    Except Fault MemPages :=
  MemPages.init img (entries m mm) pages

/-- `InitKernelPageTable` on the tag in memory. -/
def initKernelPageTable (m : Bytes) (mm : Int) (s : Paging) : Except Fault Paging :=
  Paging.initKernelPageTable (entries m mm) s

end Multiboot

end Chestnut
