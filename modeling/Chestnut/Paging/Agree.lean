import Chestnut.Paging.Walk

/-!
# Free pages and mapped pages

`CollectAvailable` and `InitKernelPageTable` walk the same memory map and
filter it differently: the first rounds an unaligned available entry to whole
pages, the second skips it. The free pages are all mapped exactly when the first of
them suffice for the tables and each of them meets some aligned entry.
-/

namespace Chestnut

open Lib

namespace MemPages

theorem maxStop_le {es : List MmapEntry} (h : LowMap es) : maxStop es ≤ kernMaxMemory := by
  refine maxStop_le_of_forall fun e he => ?_
  rw [h.stop_eq he]
  exact h.low e he

end MemPages

namespace Paging

variable {s : Paging} {es : List MmapEntry} {m : MemPages} {img : KernelImage} {t : BootTables}

/-- Every page on the free list of `m` can be reached at its kernel address. -/
def FreeMapped (m : MemPages) (s : Paging) : Prop :=
  ∀ p, m.OnFreeList p → ∃ t, walk s.mem s.cr3 (kernOffset + pageSize * p) = some t ∧
    t.paddr = pageSize * p

/-- Every page on the free list meets an aligned entry. -/
def FreeAligned (es : List MmapEntry) (m : MemPages) : Prop :=
  ∀ p, m.OnFreeList p → ∃ e ∈ es, e.addr % pageSize = 0 ∧ e.Meets p

/-- Aligned available memory is enough. -/
theorem freeAligned_of_aligned (hinit : MemPages.init img es {} = .ok m)
    (hal : ∀ e ∈ es, e.collected = true → e.addr % pageSize = 0) : FreeAligned es m := by
  obtain ⟨free, -, hon, hvisit, -⟩ := MemPages.init_supply hinit
  intro p hp
  obtain ⟨a, ha, rfl⟩ := hvisit p ((hon p).mp hp)
  obtain ⟨e, he, hc, hv⟩ := MemPages.mem_visits.mp ha
  obtain ⟨k, hk, hlt⟩ := MmapEntry.mem_visits.mp hv
  exact ⟨e, he, hal e he hc, a, rfl, MmapEntry.covers_of_lt_stop (by omega) hlt⟩

/-- After `Init` the kernel page table can be built under the boot tables, if they are
not free and the page array lies in the gigabyte that they map. -/
theorem ready_of_init (h : LowMap es) (hinit : MemPages.init img es {} = .ok s.pages)
    (B : BootHeld t 512 s)
    (harray : img.kendPg + sizeofPage * s.pages.nrPageStructs ≤ 2 ^ 30)
    (hboot : ∀ q ∈ t.pages, ¬ s.pages.OnFreeList q) :
    ∃ free, Ready t free s ∧ ∀ p, s.pages.OnFreeList p ↔ p ∈ free := by
  obtain ⟨free, S, hon, -, -, hmax⟩ := MemPages.init_supply hinit
  refine ⟨free, ⟨B, S, hmax ▸ MemPages.maxStop_le h, ?_, fun q hq hm => ?_⟩, hon⟩
  · rw [sizeofPage] at harray
    omega
  · exact hboot q hq ((hon q).mpr hm)

/-- After `Init` and `InitKernelPageTable` on one map, all pages of the free
list are mapped exactly when `AllocPage` supplies the tables from the first gigabyte
and each page of the list meets an aligned entry; aligned available entries are enough
for the latter. -/
theorem free_mapped_iff (h : LowMap es) (hinit : MemPages.init img es {} = .ok m)
    (hs : s.pages = m) (B : BootHeld t 512 s)
    (harray : img.kendPg + sizeofPage * m.nrPageStructs ≤ 2 ^ 30)
    (hboot : ∀ q ∈ t.pages, ¬ m.OnFreeList q) :
    ((∃ s', initKernelPageTable es s = .ok s' ∧ FreeMapped m s') ↔
      m.Supplies BootView.Low (tableCount es) ∧ FreeAligned es m) ∧
    ((∀ e ∈ es, e.collected = true → e.addr % pageSize = 0) → FreeAligned es m) := by
  refine ⟨?_, freeAligned_of_aligned hinit⟩
  subst hs
  obtain ⟨free, R, hon⟩ := ready_of_init h hinit B harray hboot
  have hroot : t.pml4 < 2 ^ 40 := t.low.1.trans (by norm_num)
  have hlt : ∀ p, s.pages.OnFreeList p → pageSize * p < 2 ^ 39 := by
    intro p hp
    have h₁ := R.supply.bounded p ((hon p).mp hp)
    have h₂ := R.nr_le
    rw [pageSize]
    omega
  have hdiv : ∀ p, pageSize * p / pageSize = p := pgnum_page
  rcases initKernelPageTable_spec h R with ⟨hno, herr⟩ | ⟨hsup, s', hok, M, hcr3⟩
  · refine iff_of_false ?_ fun hw => hno hw.1
    rintro ⟨s', hok, -⟩
    exact herr s' hok
  · have hmapped : ∀ p, s.pages.OnFreeList p →
        ((∃ t, walk s'.mem s'.cr3 (kernOffset + pageSize * p) = some t ∧
          t.paddr = pageSize * p) ↔ ∃ e ∈ es, e.addr % pageSize = 0 ∧ e.Meets p) := by
      intro p hp
      simp only [M.walk_eq_some_iff hroot hcr3 (hlt p hp), hdiv]
      constructor
      · rintro ⟨t, ⟨wt, ⟨e, he, hal, hm, -⟩, -⟩, -⟩
        exact ⟨e, he, hal, hm⟩
      · rintro ⟨e, he, hal, hm⟩
        exact ⟨_, ⟨⟨!e.available, false⟩, ⟨e, he, hal, hm, rfl⟩, rfl⟩, rfl⟩
    have hiff : FreeMapped s.pages s' ↔ FreeAligned es s.pages :=
      forall_congr' fun p => forall_congr' fun hp => hmapped p hp
    simp [hok, hiff, hsup]

/-- Available memory that starts on a page boundary, and a reserved entry. -/
def alignedMap : List MmapEntry :=
  [.ofWords 0x1000 0x6000 1, .ofWords 0x8000 0x800 2]

theorem alignedMap_low : LowMap alignedMap :=
  ⟨MmapEntry.disjoint_of_bounds (by decide), by decide⟩

/-- The kernel image lies above the memory of the small maps. -/
def highImage : KernelImage := ⟨0x100000, 0x110000⟩

/-- What `Init` leaves on that map: pages 1 to 6 are free, enough for three tables. -/
theorem alignedMap_init : ∃ m, MemPages.init highImage alignedMap {} = .ok m ∧
    highImage.kendPg + sizeofPage * m.nrPageStructs ≤ 2 ^ 30 ∧
    (∀ q ∈ bootTables.pages, ¬ m.OnFreeList q) ∧
    m.Supplies BootView.Low (tableCount alignedMap) := by
  obtain ⟨m, hinit, hrun⟩ := exists_of_okAnd (x := MemPages.init highImage alignedMap {})
    (p := fun m => m.nrPageStructs == 7 &&
      okAnd (MemPages.allocMany 3 m) fun r => r.1 == [.pg 1, .pg 2, .pg 3]) (by decide +kernel)
  simp only [Bool.and_eq_true, beq_iff_eq] at hrun
  obtain ⟨hnr, hrun⟩ := hrun
  obtain ⟨⟨ps, m'⟩, halloc, hps⟩ := exists_of_okAnd hrun
  obtain rfl := beq_iff_eq.mp hps
  have hcount : tableCount alignedMap = 3 := by decide +kernel
  refine ⟨m, hinit, by rw [hnr]; decide, ?_, by
    rw [hcount]; exact ⟨[1, 2, 3], m', halloc, by decide⟩⟩
  obtain ⟨free, -, hon, hvisit, -⟩ := MemPages.init_supply hinit
  intro q hq hfree
  obtain ⟨a, ha, rfl⟩ := hvisit q ((hon q).mp hfree)
  have hne : ∀ a ∈ MemPages.visits alignedMap, pgnum a ∉ bootTables.pages := by decide
  exact hne a ha hq

theorem free_mapped_iff_alignedMap :
    ∃ m s', MemPages.init highImage alignedMap {} = .ok m ∧
      initKernelPageTable alignedMap (booted m) = .ok s' ∧ FreeMapped m s' := by
  obtain ⟨m, hinit, hnr, hboot, hsup⟩ := alignedMap_init
  have hiff := free_mapped_iff (s := booted m) alignedMap_low hinit rfl (booted_held m) hnr hboot
  obtain ⟨s', hs', hmapped⟩ := hiff.1.mpr ⟨hsup, hiff.2 (by decide)⟩
  exact ⟨m, s', hinit, hs', hmapped⟩

/-- Available memory that starts in the middle of a page. -/
def unalignedMap : List MmapEntry := [.ofWords 0x1800 0x4000 1]

theorem unaligned_free_page_unmapped :
    LowMap unalignedMap ∧
      ∃ m s', MemPages.init highImage unalignedMap {} = .ok m ∧ m.OnFreeList 2 ∧
        initKernelPageTable unalignedMap (booted m) = .ok s' ∧
        walk s'.mem s'.cr3 (kernOffset + pageSize * 2) = none := by
  refine ⟨⟨List.pairwise_singleton _ _, by decide⟩, ?_⟩
  obtain ⟨m, hinit, hrun⟩ := exists_of_okAnd (x := MemPages.init highImage unalignedMap {})
    (p := fun m => m.links.next .head == .pg 1 && m.links.next (.pg 1) == .pg 2 &&
      okAnd (initKernelPageTable unalignedMap (booted m)) fun s' =>
        walk s'.mem s'.cr3 (kernOffset + pageSize * 2) == none) (by decide +kernel)
  simp only [Bool.and_eq_true, beq_iff_eq] at hrun
  obtain ⟨⟨h₁, h₂⟩, hrun⟩ := hrun
  obtain ⟨s', hok, hwalk⟩ := exists_of_okAnd hrun
  exact ⟨m, s', hinit, .after (.first h₁) h₂, hok, beq_iff_eq.mp hwalk⟩

end Paging

end Chestnut
