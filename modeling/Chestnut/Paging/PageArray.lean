import Chestnut.Pages.Runs
import Chestnut.Paging.BootTable

/-!
# The page array under the boot page table

The page array that `CollectAvailable` zeroes under the boot page table starts 128
pages behind the kernel image, whatever memory is there, and its size follows the
highest available address.
-/

namespace Chestnut

open Lib

namespace MemPages

variable {es : List MmapEntry} {img : KernelImage}

/-- The state in which `Init` calls `CollectAvailable`. -/
def sized (es : List MmapEntry) : MemPages := (es.foldl initStep ({}, 0)).1

/-- The bytes of the page array, which `CollectAvailable` zeroes first. -/
def Zeroes (img : KernelImage) (m : MemPages) (a : Nat) : Prop :=
  img.kendPg ≤ a ∧ a < img.kendPg + m.structTotSz

/-- The byte `a` is available memory. -/
def Available (es : List MmapEntry) (a : Nat) : Prop :=
  ∃ e ∈ es, e.available = true ∧ e.Covers a

instance (es : List MmapEntry) (a : Nat) : Decidable (Available es a) :=
  inferInstanceAs (Decidable (∃ e ∈ es, _ ∧ _))

/-- A range is available if its first byte is, and so is the byte behind every
available entry that ends in it. -/
theorem available_range_iff (es : List MmapEntry) {lo hi : Nat} (hlt : lo < hi) :
    (∀ a, lo ≤ a → a < hi → Available es a) ↔ Available es lo ∧
      ∀ e ∈ es, e.available = true → lo ≤ e.addr + e.len → e.addr + e.len < hi →
        Available es (e.addr + e.len) := by
  constructor
  · intro h
    exact ⟨h lo le_rfl hlt, fun e _ _ => h (e.addr + e.len)⟩
  · rintro ⟨hlo, hends⟩ a hle
    induction a, hle using Nat.le_induction with
    | base => exact fun _ => hlo
    | succ a hle ih =>
        intro ha
        obtain ⟨e, he, hav, hcov⟩ := ih (by omega)
        -- the entry that covers a byte covers the next one or ends there
        by_cases hend : e.addr + e.len = a + 1
        · rw [← hend]
          exact hends e he hav (by omega) (by omega)
        · have hnext : e.Covers (a + 1) := ⟨by have := hcov.1; omega, by have := hcov.2; omega⟩
          exact ⟨e, he, hav, hnext⟩

theorem pgAlign_le {a b : Nat} (ha : a ≤ b) (hb : b % pageSize = 0) (hlt : b < u64Size) :
    pgAlign a ≤ b := by
  simp only [pgAlign, pageSize, u64Size] at *
  omega

theorem maxKernMem_le_of_forall {b : Nat} (h : ∀ e ∈ es, e.addr + e.len ≤ b) :
    maxKernMem es ≤ b :=
  (maxKernMem_le_maxStop es).trans
    (maxStop_le_of_forall fun e he => (Nat.mod_le _ _).trans (h e he))

/-- The page array starts at most 512 KiB behind the memory the kernel supports. -/
theorem kendPg_le (h : img.bssEnd ≤ kernMaxMemory) : img.kendPg ≤ 2 ^ 39 + 2 ^ 19 := by
  have hpg := pgAlign_le h (by decide) (by decide)
  refine (Nat.mod_le _ _).trans ?_
  rw [kernMaxMemory] at hpg
  rw [KernelImage.kBootLoaderSkipPages, pageSize]
  omega

/-- The size of the page array does not wrap. -/
theorem structTotSz_sized (h : maxKernMem es ≤ kernMaxMemory) :
    (sized es).structTotSz = sizeofPage * (maxKernMem es / pageSize) := by
  have hnr : (sized es).nrPageStructs = maxKernMem es / pageSize :=
    (foldl_initStep es {} 0).2.2.2 rfl
  rw [structTotSz, hnr, Nat.mod_eq_of_lt]
  simp only [sizeofPage, pageSize, u64Size, kernMaxMemory] at h ⊢
  omega

/-- The page array of `es` ends below 1 GiB, and every byte of it is available. -/
structure ArrayFits (img : KernelImage) (es : List MmapEntry) : Prop where
  low : img.kendPg + sizeofPage * (maxKernMem es / pageSize) ≤ 2 ^ 30
  first : Available es img.kendPg
  ends : ∀ e ∈ es, e.available = true → img.kendPg ≤ e.addr + e.len →
    e.addr + e.len < img.kendPg + sizeofPage * (maxKernMem es / pageSize) →
    Available es (e.addr + e.len)

/-- The page array is placed on available memory that the boot tables map
exactly if it is empty or fits there. -/
theorem array_placed_iff (img : KernelImage) (es : List MmapEntry) (t : BootTables) {s : Paging}
    (hz : Paging.Unset t s)
    (hlow : ∀ e ∈ es, e.addr + e.len ≤ kernMaxMemory)
    (himg : ∃ e ∈ es, e.available = true ∧ e.addr ≤ img.loadStart ∧
      img.bssEnd ≤ e.addr + e.len) :
    ∃ s', Paging.initBootPageTable (Paging.setupPaging t s) = .ok s' ∧
      ((∀ a, Zeroes img (sized es) a → Available es a ∧ Paging.Reached s' a) ↔
        maxKernMem es < pageSize ∨ ArrayFits img es) := by
  obtain ⟨s', hok, B, -⟩ := Paging.initBootPageTable_held hz
  refine ⟨s', hok, ?_⟩
  have hmax := maxKernMem_le_of_forall hlow
  have hend : img.kendPg ≤ 2 ^ 39 + 2 ^ 19 := by
    obtain ⟨e, he, -, -, hbss⟩ := himg
    exact kendPg_le (hbss.trans (hlow e he))
  have hsmall : sizeofPage * (maxKernMem es / pageSize) ≤ 6 * 2 ^ 30 := by
    simp only [sizeofPage, pageSize, kernMaxMemory] at hmax ⊢
    omega
  have hempty : maxKernMem es < pageSize ↔ sizeofPage * (maxKernMem es / pageSize) = 0 := by
    rw [sizeofPage, pageSize]
    omega
  simp only [Zeroes, structTotSz_sized hmax]
  rw [hempty]
  obtain ⟨size, hsize⟩ : ∃ size, size = sizeofPage * (maxKernMem es / pageSize) := ⟨_, rfl⟩
  rcases Nat.eq_zero_or_pos size with h0 | hpos
  · refine iff_of_true (fun a ha => ?_) (.inl (by omega))
    omega
  · have hlt : img.kendPg < img.kendPg + size := by omega
    have hrange := available_range_iff es hlt
    rw [hsize] at hrange
    rw [or_iff_right (by omega)]
    constructor
    · intro h
      obtain ⟨hfirst, hends⟩ := hrange.mp fun a h₁ h₂ => (h a ⟨h₁, h₂⟩).1
      refine ⟨?_, hfirst, hends⟩
      have hlast := (h (img.kendPg + size - 1) ⟨by omega, by omega⟩).2
      rw [B.reached_iff (by omega)] at hlast
      omega
    · intro F a ha
      refine ⟨hrange.mpr ⟨F.first, F.ends⟩ a ha.1 ha.2, ?_⟩
      rw [B.reached_iff (by omega)]
      have := F.low
      omega

/-- The kernel image at the start of 7 MiB of memory. -/
def roomyMap : List MmapEntry := [.ofWords 0x100000 0x700000 1]

theorem array_placed_iff_roomyMap :
    ∃ s, Paging.initBootPageTable (Paging.setupPaging Paging.bootTables Paging.blank) = .ok s ∧
      ∀ a, Zeroes PageWorld.smallImage (sized roomyMap) a →
        Available roomyMap a ∧ Paging.Reached s a := by
  obtain ⟨s, hs, hiff⟩ := array_placed_iff PageWorld.smallImage roomyMap
    Paging.bootTables (s := Paging.blank) (fun _ _ _ _ => rfl) (by decide)
    ⟨_, List.mem_cons_self, rfl, by decide, by decide⟩
  exact ⟨s, hs, hiff.mpr (.inr ⟨by decide, by decide, by decide⟩)⟩

/-- The only available entry is the kernel image itself. -/
def tightMap : List MmapEntry := [.ofWords 0x100000 0x10000 1]

/-- All memory from 1 MiB to 512 GiB is available. -/
def fullMap : List MmapEntry := [.ofWords 0x100000 0x7FFFF00000 1]

/-- The array is zeroed outside available memory on the one map, and past the
first gigabyte on the other. -/
theorem array_misplaced :
    (Zeroes PageWorld.smallImage (sized tightMap) 0x190000 ∧ ¬ Available tightMap 0x190000) ∧
      Zeroes PageWorld.smallImage (sized fullMap) 0x40000000 ∧
      ∃ s, Paging.initBootPageTable (Paging.setupPaging Paging.bootTables Paging.blank) = .ok s ∧
        ¬ Paging.Reached s 0x40000000 := by
  obtain ⟨s, hs, B, -⟩ := Paging.initBootPageTable_held (t := Paging.bootTables)
    (s := Paging.blank) fun _ _ _ _ => rfl
  refine ⟨⟨⟨by decide, by decide⟩, by decide⟩, ⟨by decide, by decide⟩, s, hs, ?_⟩
  rw [B.reached_iff (by decide)]
  decide

end MemPages

end Chestnut
