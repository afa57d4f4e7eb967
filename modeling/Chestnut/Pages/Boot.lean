import Chestnut.Pages.Collect

/-!
# The page allocator after boot

`Init` sizes the page array by the highest available address and then
collects the free pages. On a map whose available entries are whole pages and
do not overlap, no page is visited twice and none lies past the array, so
`Init` returns with a well-formed free list.
-/

namespace Chestnut

open Lib

/-- Available entries are page-aligned in address and length, and no address
belongs to two of them. -/
structure AlignedMap (es : List MmapEntry) : Prop where
  aligned : ∀ e ∈ es, e.available = true → e.addr % pageSize = 0 ∧ e.len % pageSize = 0
  disjoint : (es.filter MmapEntry.available).Pairwise fun e e' =>
    ∀ a, e.Covers a → ¬ e'.Covers a

namespace MemPages

/-- `max_kern_mem` after the loop of `Init`. -/
def maxKernMem (es : List MmapEntry) : Nat :=
  es.foldl (fun k e => if e.collected then max k e.stop else k) 0

/-- `max_phy_` after the loop of `Init`. -/
def maxStop (es : List MmapEntry) : Nat := es.foldl (fun k e => max k e.stop) 0

theorem initStep_spec (m : MemPages) (k : Nat) (e : MmapEntry) :
    (initStep (m, k) e).1.links = m.links ∧ (initStep (m, k) e).1.page = m.page ∧
      (initStep (m, k) e).1.maxPhy = max m.maxPhy e.stop ∧
      (initStep (m, k) e).2 = (if e.collected then max k e.stop else k) ∧
      (initStep (m, k) e).1.nrPageStructs = (initStep (m, k) e).2 / pageSize := by
  have hc : e.collected = true ↔ e.type = multibootMemoryAvailable ∧ e.addr ≠ 0 := by
    simp [MmapEntry.collected, MmapEntry.available]
  by_cases h₁ : e.type = multibootMemoryAvailable
  · by_cases h₂ : e.addr = 0
    · simp [initStep, h₁, h₂, hc]
    · simp [initStep, h₁, h₂, hc]
  · by_cases h₂ : e.type = multibootMemoryReserved
    · simp only [initStep, if_neg h₁, if_pos h₂]
      simp [hc, h₁]
    · by_cases h₃ : e.type = multibootMemoryAcpiReclaimable
      · simp only [initStep, if_neg h₁, if_neg h₂, if_pos h₃]
        simp [hc, h₁]
      · simp only [initStep, if_neg h₁, if_neg h₂, if_neg h₃]
        simp [hc, h₁]

theorem foldl_initStep (es : List MmapEntry) (m : MemPages) (k : Nat) :
    (es.foldl initStep (m, k)).1.links = m.links ∧
      (es.foldl initStep (m, k)).1.page = m.page ∧
      (es.foldl initStep (m, k)).1.maxPhy = es.foldl (fun k e => max k e.stop) m.maxPhy ∧
      (m.nrPageStructs = k / pageSize → (es.foldl initStep (m, k)).1.nrPageStructs =
        es.foldl (fun k e => if e.collected then max k e.stop else k) k / pageSize) := by
  induction es generalizing m k with
  | nil => exact ⟨rfl, rfl, rfl, fun h => h⟩
  | cons e es ih =>
      obtain ⟨h₁, h₂, h₃, h₄, h₅⟩ := initStep_spec m k e
      obtain ⟨g₁, g₂, g₃, g₄⟩ := ih (initStep (m, k) e).1 (initStep (m, k) e).2
      simp only [List.foldl_cons]
      refine ⟨g₁.trans h₁, g₂.trans h₂, by rw [g₃, h₃], fun _ => ?_⟩
      rw [g₄ h₅, h₄]

/-- The state in which `Init` starts to collect. -/
theorem init_eq (img : KernelImage) (es : List MmapEntry) :
    ∃ m : MemPages, init img es {} =
        (collectFold img (visits es) m.clearPages .head >>= fun r => .ok r.1) ∧
      m.nrPageStructs = maxKernMem es / pageSize ∧ m.maxPhy = maxStop es ∧
      m.links = ({} : MemPages).links := by
  obtain ⟨h₁, _, h₃, h₄⟩ := foldl_initStep es {} 0
  refine ⟨(es.foldl initStep ({}, 0)).1, ?_, h₄ rfl, h₃, h₁⟩
  rw [init, collectAvailable, collectEntries_eq_fold]
  rfl

theorem foldl_collected_ge (es : List MmapEntry) (k : Nat) :
    k ≤ es.foldl (fun k e => if e.collected then max k e.stop else k) k ∧
      ∀ e ∈ es, e.collected = true →
        e.stop ≤ es.foldl (fun k e => if e.collected then max k e.stop else k) k := by
  induction es generalizing k with
  | nil => simp
  | cons e es ih =>
      simp only [List.foldl_cons]
      obtain ⟨hk, hes⟩ := ih (if e.collected then max k e.stop else k)
      refine ⟨le_trans ?_ hk, ?_⟩
      · split
        · exact le_max_left _ _
        · exact le_rfl
      · intro e' he' hc
        rcases List.mem_cons.mp he' with rfl | he'
        · refine le_trans ?_ hk
          simp [hc]
        · exact hes e' he' hc

theorem stop_le_maxKernMem {es : List MmapEntry} {e : MmapEntry} (he : e ∈ es)
    (hc : e.collected = true) : e.stop ≤ maxKernMem es :=
  (foldl_collected_ge es 0).2 e he hc

theorem maxKernMem_lt (es : List MmapEntry) : maxKernMem es < u64Size := by
  have key : ∀ k < u64Size,
      es.foldl (fun k e => if e.collected then max k e.stop else k) k < u64Size := by
    induction es with
    | nil => exact fun k hk => hk
    | cons e es ih =>
        intro k hk
        have he : e.stop < u64Size := Nat.mod_lt _ (by decide)
        simp only [List.foldl_cons]
        apply ih
        split
        · exact max_lt hk he
        · exact hk
  exact key 0 (by decide)

/-- Whole-page entries that do not overlap are walked without a repeated page. -/
theorem visits_pages_nodup {es : List MmapEntry} (h : AlignedMap es) :
    ((visits es).map pgnum).Nodup := by
  have hcol : es.filter MmapEntry.collected =
      (es.filter MmapEntry.available).filter fun e => e.addr != 0 := by
    rw [List.filter_filter]
    congr 1
    funext e
    simp [MmapEntry.collected, Bool.and_comm]
  have hpair : (es.filter MmapEntry.collected).Pairwise fun e e' =>
      ∀ a, e.Covers a → ¬ e'.Covers a := by
    rw [hcol]
    exact h.disjoint.filter _
  have halign : ∀ p ∈ visits es, p % pageSize = 0 := by
    intro p hp
    obtain ⟨e, he, hc, hv⟩ := mem_visits.mp hp
    obtain ⟨k, rfl, _⟩ := MmapEntry.mem_visits.mp hv
    have hav : e.available = true := by
      simp only [MmapEntry.collected, Bool.and_eq_true] at hc
      exact hc.1
    have := (h.aligned e he hav).1
    simp only [pageSize] at this ⊢
    omega
  refine List.Nodup.map_on ?_ ?_
  · intro p hp q hq hpq
    have h₁ := halign p hp
    have h₂ := halign q hq
    simp only [pgnum, pageSize] at h₁ h₂ hpq
    omega
  · rw [visits, List.nodup_flatMap]
    refine ⟨fun e _ => e.visits_nodup, hpair.imp ?_⟩
    intro e e' hdis p hp hp'
    obtain ⟨k, hk, hlt⟩ := MmapEntry.mem_visits.mp hp
    obtain ⟨k', hk', hlt'⟩ := MmapEntry.mem_visits.mp hp'
    exact hdis p (MmapEntry.covers_of_lt_stop (by omega) hlt)
      (MmapEntry.covers_of_lt_stop (by omega) hlt')

/-- An entry that ends on a page boundary keeps its pages inside the array. -/
theorem pgnum_lt_of_visit {es : List MmapEntry} (h : AlignedMap es) {p : Nat}
    (hp : p ∈ visits es) : pgnum p < maxKernMem es / pageSize := by
  obtain ⟨e, he, hc, hv⟩ := mem_visits.mp hp
  obtain ⟨k, rfl, hlt⟩ := MmapEntry.mem_visits.mp hv
  have hav : e.available = true := by
    simp only [MmapEntry.collected, Bool.and_eq_true] at hc
    exact hc.1
  obtain ⟨ha, hl⟩ := h.aligned e he hav
  have hmax := stop_le_maxKernMem he hc
  have hs : e.stop % pageSize = 0 := by
    simp only [MmapEntry.stop, pageSize, u64Size] at ha hl ⊢
    omega
  simp only [pgnum, pageSize] at ha hs hlt hmax ⊢
  omega

/-- `Init` on a map of whole pages returns, and its free list is the visited
pages outside the kernel's range. -/
theorem init_aligned (img : KernelImage) {es : List MmapEntry} (h : AlignedMap es) :
    ∃ m free last, init img es {} = .ok m ∧ Collecting m free last ∧
      m.nrPageStructs = maxKernMem es / pageSize := by
  obtain ⟨m₀, hinit, hnr, _⟩ := init_eq img es
  have hnr' : m₀.clearPages.nrPageStructs = maxKernMem es / pageSize := hnr
  obtain ⟨m, last, hfold, C, hnr₁, _⟩ :=
    collectFold_spec (clearPages_collecting m₀) img (visits es)
      (fun p hp => by rw [hnr']; exact pgnum_lt_of_visit h hp) (visits_pages_nodup h)
      (fun p _ => by simp)
  refine ⟨m, _, last, ?_, C, hnr₁.trans hnr'⟩
  rw [hinit, hfold]
  rfl

/-- With a page to give out, that list is a free list. -/
theorem init_aligned_freeList (img : KernelImage) {es : List MmapEntry} (h : AlignedMap es) :
    ∃ m, init img es {} = .ok m ∧
      ((∃ i, (m.page (.pg i)).isFree = true) → ∃ free, FreeList m free) := by
  obtain ⟨m, free, last, hinit, C, hnr⟩ := init_aligned img h
  refine ⟨m, hinit, ?_⟩
  rintro ⟨i, hi⟩
  refine ⟨free, C.freeList ?_ ?_⟩
  · exact List.ne_nil_of_mem ((C.isFree_iff i).mp hi)
  · have := maxKernMem_lt es
    simp only [hnr, pageSize, u64Size] at this ⊢
    omega

end MemPages

end Chestnut
