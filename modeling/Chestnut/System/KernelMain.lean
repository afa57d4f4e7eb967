import Chestnut.Multiboot.MapTag
import Chestnut.System.Isolation
import Chestnut.Vector.Model

/-!
# From the boot information to the memory of the kernel

`KernelMain` up to `InitKernelPageTable`: the boot page table, the walk over the
tags, and the set-up of the memory from the tag that the walk has found. Boot
information that lies in the pages which `Init` leaves to the boot loader is not
written to, so the kernel runs on the memory map that the boot loader wrote down.

## Implementation notes

The boot information is read through the page tables, from the memory that the
tables are built in: `InitKernelPageTable` reads each entry when it comes to it.
`Init` reads its map before it writes any page record. What the records look like in
memory is left open, and so are the pages of the image itself. A missing tag leaves
a null pointer, which nothing tests: `Init` then reads its map from address 0.
-/

namespace Chestnut

open Lib Bytes

namespace Paging

/-- The byte at a physical address, in the word around it. -/
def byteAt (mem : Nat → Entry) (p : Nat) : BitVec 8 :=
  (mem (p / 8 * 8)).extractLsb' (8 * (p % 8)) 8

/-- Memory as the kernel reads it. There is nothing to read where no page is mapped. -/
def bytes (s : Paging) : Bytes := fun a =>
  match walk s.mem s.cr3 a.toNat with
  | some t => byteAt s.mem t.paddr
  | none => 0#8

/-- The bytes at these addresses are read or written. -/
def touch (s : Paging) (xs : List Int) : Except Fault Unit :=
  if ∀ x ∈ xs, s.Readable x then .ok () else .error .pageFault

/-- Words in the `size` bytes from `start` on: the records of the page array. -/
def withRecords (s : Paging) (start size : Nat) (records : Nat → Entry) : Paging :=
  { s with mem := fun a => if start ≤ a ∧ a < start + size then records a else s.mem a }

end Paging

namespace KernelWorld

open Multiboot

end KernelWorld

/-! ### Reading under the boot tables -/

namespace Paging

variable {t : BootTables} {s : Paging} {a : Nat}

theorem kptr_toNat (a : Nat) : (kptr (some a)).toNat = kernOffset + a := by
  rw [kptr]
  omega

namespace BootView

theorem walk_kernel (V : BootView t 512 s) (ha : a < 2 ^ 30) :
    walk s.mem s.cr3 (kernOffset + a) = some ⟨a, false, false⟩ := by
  rw [V.walk_eq (by omega) (by omega), if_pos (by omega), Nat.mod_eq_of_lt ha]

/-- The first gigabyte can be read at its kernel addresses. -/
theorem readable (V : BootView t 512 s) {x : Int} (hlo : (kernOffset : Int) ≤ x)
    (hhi : x < kernOffset + 2 ^ 30) : s.Readable x := by
  obtain ⟨a, rfl⟩ : ∃ a : Nat, x = kptr (some a) :=
    ⟨(x - kernOffset).toNat, by rw [kptr]; omega⟩
  rw [kptr] at hhi
  rw [Readable, kptr_toNat, V.walk_kernel (by omega)]
  rfl

theorem touch (V : BootView t 512 s) {xs : List Int}
    (h : ∀ x ∈ xs, (kernOffset : Int) ≤ x ∧ x < kernOffset + 2 ^ 30) : s.touch xs = .ok () :=
  if_pos fun x hx => V.readable (h x hx).1 (h x hx).2

theorem bytes_eq (V : BootView t 512 s) (ha : a < 2 ^ 30) :
    s.bytes (kptr (some a)) = byteAt s.mem a := by
  rw [bytes, kptr_toNat, V.walk_kernel ha]

end BootView

end Paging

/-! ### The map stays -/

/-- Boot information behind the image, in the pages that `Init` leaves to the boot loader. -/
structure InfoHeld (img : KernelImage) (mbiPaddr : Nat) (bs : List (BitVec 8))
    (mem : Nat → Entry) : Prop where
  held : ∀ i < bs.length, Paging.byteAt mem (mbiPaddr + i) = bs.getD i 0#8
  first : pgAlign img.bssEnd ≤ mbiPaddr
  last : mbiPaddr + bs.length ≤ img.kendPg

namespace InfoHeld

variable {img : KernelImage} {mbiPaddr : Nat} {bs : List (BitVec 8)} {mem mem' : Nat → Entry}

theorem pgAlign_mod (a : Nat) : pgAlign a % pageSize = 0 := by
  simp only [pgAlign, pageSize, u64Size]
  omega

/-- Writes elsewhere leave it alone. -/
theorem congr (I : InfoHeld img mbiPaddr bs mem)
    (h : ∀ a, pgAlign img.bssEnd ≤ a → a < img.kendPg → mem' a = mem a) :
    InfoHeld img mbiPaddr bs mem' := by
  refine ⟨fun i hi => ?_, I.first, I.last⟩
  have halign := pgAlign_mod img.bssEnd
  have hfirst := I.first
  have hlast := I.last
  rw [pageSize] at halign
  rw [← I.held i hi, Paging.byteAt, Paging.byteAt, h _ (by omega) (by omega)]

/-- The kernel reads it under the boot tables. -/
theorem holds {t : BootTables} {s : Paging} (I : InfoHeld img mbiPaddr bs s.mem)
    (V : Paging.BootView t 512 s) (hlow : img.kendPg ≤ 2 ^ 30) :
    s.bytes.Holds (kptr (some mbiPaddr)) bs := by
  refine holds_of_getD fun i hi => ?_
  have hlast := I.last
  have haddr : kptr (some mbiPaddr) + (i : Int) = kptr (some (mbiPaddr + i)) := by
    rw [kptr, kptr]
    omega
  rw [haddr, V.bytes_eq (by omega), I.held i hi]

/-- Its addresses lie in the first gigabyte. -/
theorem low (I : InfoHeld img mbiPaddr bs mem) (hlow : img.kendPg ≤ 2 ^ 30) {x : Int}
    (h : kptr (some mbiPaddr) ≤ x ∧ x < kptr (some mbiPaddr) + bs.length) :
    (kernOffset : Int) ≤ x ∧ x < kernOffset + 2 ^ 30 := by
  have hlast := I.last
  rw [kptr] at h
  omega

end InfoHeld

namespace Paging

open Multiboot

variable {t : BootTables} {s s₀ : Paging} {free₀ : List Nat} {F : Finset (Nat × Nat)}
variable {D : Nat → Caching → Prop} {ptrs : List Int} {es : List MmapEntry} {img : KernelImage}
variable {mbiPaddr : Nat} {bs : List (BitVec 8)}

/-- The entries at these pointers can be read, and are those of a map. -/
structure ReadsAs (s : Paging) (ptrs : List Int) (es : List MmapEntry) : Prop where
  entries_eq : ptrs.map (mmapEntryAt s.bytes) = es
  readable : ∀ p ∈ ptrs, ∀ x ∈ span p 20, s.Readable x

theorem ReadsAs.tail {p : Int} {e : MmapEntry} (h : ReadsAs s (p :: ptrs) (e :: es)) :
    ReadsAs s ptrs es :=
  ⟨(List.cons.inj h.entries_eq).2, fun q hq => h.readable q (List.mem_cons_of_mem _ hq)⟩

theorem ReadsAs.touch {p : Int} (h : ReadsAs s (p :: ptrs) es) {n : Nat} (hn : n ≤ 20) :
    s.touch (span p n) = .ok () := by
  refine if_pos fun x hx => h.readable p List.mem_cons_self x ?_
  rw [mem_span] at hx ⊢
  omega

end Paging

/-! ### The boot -/

namespace KernelWorld

open Multiboot

variable {img : KernelImage} {es : List MmapEntry} {nodes : Links NodeRef}
variable {slab : Nat → SlabRec} {mbiPaddr : Nat} {t : BootTables} {s : Paging}
variable {bs : List (BitVec 8)} {records : Nat → Entry}

theorem withRecords_roots (s : Paging) (start size : Nat) (records : Nat → Entry) :
    (s.withRecords start size records).cr3 = s.cr3 ∧
      (s.withRecords start size records).pgt = s.pgt :=
  ⟨rfl, rfl⟩

theorem withRecords_mem {start size a : Nat} (ha : a < start) :
    (s.withRecords start size records).mem a = s.mem a :=
  if_neg fun h => Nat.not_lt.mpr h.1 ha

/-- What the boot needs is kept by writes behind the pages of the boot loader. -/
theorem Bootable.congr {s' : Paging} (B : Bootable img es t s) (hcr3 : s'.cr3 = s.cr3)
    (hpgt : s'.pgt = s.pgt) (hmem : ∀ a < img.kendPg, s'.mem a = s.mem a) :
    Bootable img es t s' := by
  have hout : ∀ q ∈ t.pages, ∀ i < 512,
      s'.mem (pageSize * q + 8 * i) = s.mem (pageSize * q + 8 * i) := by
    intro q hq i hi
    have H := B.image q hq
    obtain ⟨hbss, hkend⟩ := MemPages.bssEnd_le_pgAlign (Nat.zero_lt_of_lt H.last) H.low
    refine hmem _ ?_
    have hlast := H.last
    simp only [pageSize] at *
    omega
  have hpml4 : t.pml4 ∈ t.pages := List.mem_cons_self
  refine ⟨B.aligned, B.low, ⟨B.tables.toBootView.congr le_rfl hcr3 hout,
    hpgt.trans B.tables.pgt_eq, fun i hi => ?_⟩, B.image, B.array⟩
  rw [hout _ hpml4 i hi, B.tables.roots i hi]

/-- Page records in the array do not disturb the boot. -/
theorem Bootable.recorded (B : Bootable img es t s) (size : Nat) (records : Nat → Entry) :
    Bootable img es t (s.withRecords img.kendPg size records) :=
  have h := withRecords_roots s img.kendPg size records
  B.congr h.1 h.2 fun _ ha => withRecords_mem ha

end KernelWorld

end Chestnut
