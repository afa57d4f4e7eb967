import Chestnut.Multiboot.Model
import Mathlib.Tactic.Common

/-!
# Decoding the memory map tag

The number of entries is computed from `entry_size` of the tag, the entries are
found with the stride of the C struct. Both agree exactly if `entry_size` is 24
or there is at most one entry; the tag is never left, as 24 is the least entry
size.
-/

namespace Chestnut

open Lib Bytes

namespace Multiboot

/-- Where the format places the records of a tag. -/
def recordPtrs (mm : Int) (entrySize k : Nat) : List Int :=
  (List.range k).map fun i : Nat => mm + (16 + i * entrySize : Nat)

/-- The records of a tag. -/
def records (m : Bytes) (mm : Int) (entrySize k : Nat) : List MmapEntry :=
  (recordPtrs mm entrySize k).map (mmapEntryAt m)

variable {m : Bytes} {mm : Int} {entrySize k : Nat}

/-- A tag that fits its size word has fewer than `2^31` entries. -/
theorem nrEntries_eq (h24 : 24 ≤ entrySize) (hes : m.u32 (mm + 8) = entrySize)
    (hsize : m.u32 (mm + 4) = 16 + k * entrySize) : nrEntries m mm = k := by
  have hlt := m.u32_lt (mm + 4)
  have hk : k * 24 ≤ k * entrySize := Nat.mul_le_mul_left k h24
  have hquot : (m.u32 (mm + 4) + u64Size - sizeofTagMmap) % u64Size / m.u32 (mm + 8) = k := by
    have hrest : (m.u32 (mm + 4) + u64Size - sizeofTagMmap) % u64Size = k * entrySize := by
      simp only [u64Size, sizeofTagMmap]
      omega
    rw [hrest, hes, Nat.mul_div_cancel k (by omega)]
  calc nrEntries m mm = Int.bmod (k : Nat) (2 ^ 32) :=
        congrArg (fun q : Nat => Int.bmod q (2 ^ 32)) hquot
    _ = k := Int.bmod_eq_of_le (by omega) (by omega)

/-- Two strides reach the same records exactly if they are equal or there is at most one
record. -/
theorem strides_eq_iff (a b : Nat) :
    ((List.range k).map fun i : Nat => mm + (16 + i * a : Nat)) =
        ((List.range k).map fun i : Nat => mm + (16 + i * b : Nat)) ↔ a = b ∨ k ≤ 1 := by
  constructor
  · intro h
    rcases Nat.lt_or_ge 1 k with hk | hk
    · have hone := List.map_inj_left.mp h 1 (List.mem_range.mpr hk)
      left
      omega
    · exact .inr hk
  · rintro (rfl | hk)
    · rfl
    · apply List.map_congr_left
      intro i hi
      obtain rfl : i = 0 := by
        have hlt := List.mem_range.mp hi
        omega
      rw [Nat.zero_mul, Nat.zero_mul]

theorem entryPtrs_eq (h24 : 24 ≤ entrySize) (hes : m.u32 (mm + 8) = entrySize)
    (hsize : m.u32 (mm + 4) = 16 + k * entrySize) : entryPtrs m mm = recordPtrs mm 24 k := by
  rw [entryPtrs, nrEntries_eq h24 hes hsize, recordPtrs, Int.toNat_natCast]
  apply List.map_congr_left
  intro i _
  simp only [sizeofTagMmap, sizeofMmapEntry]
  omega

/-- No loop reads past the tag. -/
theorem mmapReads_within (h24 : 24 ≤ entrySize) (hes : m.u32 (mm + 8) = entrySize)
    (hsize : m.u32 (mm + 4) = 16 + k * entrySize) :
    ∀ a ∈ mmapReads m mm, mm ≤ a ∧ a < mm + m.u32 (mm + 4) := by
  have hk : k * 24 ≤ k * entrySize := Nat.mul_le_mul_left k h24
  intro a ha
  rw [mmapReads, entryPtrs_eq h24 hes hsize, List.mem_append, mem_span, List.mem_flatMap] at ha
  rcases ha with ha | ⟨p, hp, ha⟩
  · omega
  · simp only [recordPtrs, List.mem_map, List.mem_range] at hp
    obtain ⟨i, hi, rfl⟩ := hp
    rw [mem_span] at ha
    omega

/-- For every tag that the format allows, the three loops go through the records of the
tag and read nothing past it exactly if `entry_size` is that of the C struct or the tag has
at most one record. In these cases `Init` and `InitKernelPageTable` run on the records. -/
theorem decode_iff (m : Bytes) (mm : Int) (entrySize k : Nat)
    (h24 : 24 ≤ entrySize) (hes : m.u32 (mm + 8) = entrySize)
    (hsize : m.u32 (mm + 4) = 16 + k * entrySize) :
    ((entryPtrs m mm = recordPtrs mm entrySize k ∧
        ∀ a ∈ mmapReads m mm, mm ≤ a ∧ a < mm + m.u32 (mm + 4)) ↔ entrySize = 24 ∨ k ≤ 1) ∧
      (entrySize = 24 ∨ k ≤ 1 →
        (∀ img pages, initMemPages img m mm pages =
          MemPages.init img (records m mm entrySize k) pages) ∧
        ∀ s, initKernelPageTable m mm s =
          Paging.initKernelPageTable (records m mm entrySize k) s) := by
  have hptrs : entryPtrs m mm = recordPtrs mm entrySize k ↔ entrySize = 24 ∨ k ≤ 1 := by
    rw [entryPtrs_eq h24 hes hsize, recordPtrs, recordPtrs, strides_eq_iff, eq_comm]
  refine ⟨(and_iff_left (mmapReads_within h24 hes hsize)).trans hptrs, ?_⟩
  intro h
  have hentries : entries m mm = records m mm entrySize k := by
    rw [entries, records, hptrs.mpr h]
  constructor
  · intro img pages
    rw [initMemPages, hentries]
  · intro s
    rw [initKernelPageTable, hentries]

/-- A tag with two usable pages, in records of `24 + pad.length` bytes. -/
def twoPages (pad : List (BitVec 8)) : Bytes :=
  ofList 0 (le32 6 ++ le32 (16 + 2 * (24 + pad.length)) ++ le32 (24 + pad.length) ++ le32 0 ++
    le32 0x1000 ++ le32 0 ++ le32 0x1000 ++ le32 0 ++ le32 1 ++ le32 0 ++ pad ++
    le32 0x2000 ++ le32 0 ++ le32 0x1000 ++ le32 0 ++ le32 1 ++ le32 0 ++ pad)

theorem decode_iff_twoPages :
    entryPtrs (twoPages []) 0 = recordPtrs 0 24 2 ∧
      ∀ a ∈ mmapReads (twoPages []) 0, 0 ≤ a ∧ a < 0 + ((twoPages []).u32 (0 + 4) : Int) :=
  (decode_iff (twoPages []) 0 24 2 (by decide) (by decide) (by decide)).1.mpr
    (.inl rfl)

/-- With records of 32 bytes the second page is not found. -/
theorem decode_twoPages_32 :
    (twoPages (List.replicate 8 0#8)).u32 8 = 32 ∧
      (twoPages (List.replicate 8 0#8)).u32 4 = 16 + 2 * 32 ∧
      ((records (twoPages (List.replicate 8 0#8)) 0 32 2).map fun e => (e.addr, e.len, e.type)) =
        [(0x1000, 0x1000, 1), (0x2000, 0x1000, 1)] ∧
      ((entries (twoPages (List.replicate 8 0#8)) 0).map fun e => (e.addr, e.len, e.type)) =
        [(0x1000, 0x1000, 1), (0, 0x2000, 0x1000)] := by
  decide

end Multiboot

end Chestnut
