import Chestnut.Pages.FreeList

/-!
# Boot-time collection of free pages

`CollectAvailable` walks the available entries of the memory map page by page
and appends every page outside the kernel's own range to the free list. The
walk is one fold over the list of visited addresses. As long as it visits no
page twice, the list it leaves behind is exactly the visited pages outside
the reserved range, in order.
-/

namespace Chestnut

open Lib

namespace MmapEntry

/-- The addresses of an entry. -/
def Covers (e : MmapEntry) (a : Nat) : Prop := e.addr ≤ a ∧ a < e.addr + e.len

instance (e : MmapEntry) (a : Nat) : Decidable (e.Covers a) :=
  inferInstanceAs (Decidable (_ ∧ _))

/-- Entries of which one ends before the other starts share no address. -/
theorem disjoint_of_bounds {es : List MmapEntry}
    (h : es.Pairwise fun e e' => e.addr + e.len ≤ e'.addr ∨ e'.addr + e'.len ≤ e.addr) :
    es.Pairwise fun e e' => ∀ a, e.Covers a → ¬ e'.Covers a := by
  refine h.imp fun hor a hc hc' => ?_
  simp only [Covers] at hc hc'
  omega

/-- The addresses the inner loop of `CollectAvailable` visits for one entry. -/
def visits (e : MmapEntry) : List Nat :=
  (List.range (pageSteps e.addr e.stop)).map fun k => e.addr + pageSize * k

theorem mem_visits {e : MmapEntry} {p : Nat} :
    p ∈ e.visits ↔ ∃ k, p = e.addr + pageSize * k ∧ p < e.stop := by
  have key : ∀ k, k < pageSteps e.addr e.stop ↔ e.addr + pageSize * k < e.stop := by
    intro k
    simp only [pageSteps, pageSize]
    omega
  simp only [visits, List.mem_map, List.mem_range]
  constructor
  · rintro ⟨k, hk, rfl⟩
    exact ⟨k, rfl, (key k).mp hk⟩
  · rintro ⟨k, rfl, hk⟩
    exact ⟨k, (key k).mpr hk, rfl⟩

/-- An entry that runs past the last address is not walked at all. -/
theorem covers_of_lt_stop {e : MmapEntry} {p : Nat} (h₁ : e.addr ≤ p) (h₂ : p < e.stop) :
    e.Covers p := by
  have ha := e.addr_lt
  have hl := e.len_lt
  simp only [stop, u64Size] at *
  exact ⟨h₁, by omega⟩

theorem visits_nodup (e : MmapEntry) : e.visits.Nodup := by
  refine List.Nodup.map ?_ List.nodup_range
  intro a b hab
  simp only [pageSize] at hab
  omega

end MmapEntry

namespace MemPages

/-- All addresses `CollectAvailable` visits, in order. -/
def visits (es : List MmapEntry) : List Nat :=
  (es.filter MmapEntry.collected).flatMap MmapEntry.visits

theorem mem_visits {es : List MmapEntry} {p : Nat} :
    p ∈ visits es ↔ ∃ e ∈ es, e.collected = true ∧ p ∈ e.visits := by
  simp [visits, List.mem_flatMap, and_assoc]

/-- The walk as one fold over the visited addresses. -/
def collectFold (img : KernelImage) : List Nat → MemPages → PageRef →
    Except Fault (MemPages × PageRef)
  | [], m, last => .ok (m, last)
  | p :: ps, m, last => do
      let (m, last) ← collectPage img p m last
      collectFold img ps m last

theorem collectFold_append (img : KernelImage) (ps qs : List Nat) (m : MemPages)
    (last : PageRef) : collectFold img (ps ++ qs) m last =
      (collectFold img ps m last >>= fun r => collectFold img qs r.1 r.2) := by
  induction ps generalizing m last with
  | nil => rfl
  | cons p ps ih =>
      simp only [List.cons_append, collectFold]
      cases collectPage img p m last with
      | error e => rfl
      | ok r => exact ih r.1 r.2

theorem collectRange_eq_fold (img : KernelImage) (steps paddr : Nat) (m : MemPages)
    (last : PageRef) : collectRange img steps paddr m last =
      collectFold img ((List.range steps).map fun k => paddr + pageSize * k) m last := by
  induction steps generalizing paddr m last with
  | zero => rfl
  | succ steps ih =>
      rw [List.range_succ_eq_map, List.map_cons, List.map_map]
      simp only [collectRange, collectFold, Nat.mul_zero, Nat.add_zero]
      cases collectPage img paddr m last with
      | error e => rfl
      | ok r =>
          simp only [ok_bind]
          rw [ih]
          congr 1
          apply List.map_congr_left
          intro k _
          simp only [Function.comp, pageSize]
          omega

theorem collectEntries_eq_fold (img : KernelImage) (es : List MmapEntry) (m : MemPages)
    (last : PageRef) : collectEntries img es m last = collectFold img (visits es) m last := by
  induction es generalizing m last with
  | nil => rfl
  | cons e es ih =>
      cases hc : e.collected with
      | false => simp [collectEntries, visits, hc, ih]
      | true =>
          have hv : visits (e :: es) = e.visits ++ visits es := by simp [visits, hc]
          rw [hv, collectFold_append]
          simp only [collectEntries, hc, Bool.not_true, Bool.false_eq_true, if_false,
            collectRange_eq_fold, MmapEntry.visits]
          cases collectFold img _ m last with
          | error e => rfl
          | ok r => exact ih r.1 r.2

/-- The list while it is being built: it is closed only once a page is on it. -/
structure Collecting (m : MemPages) (free : List Nat) (last : PageRef) : Prop where
  nodup : free.Nodup
  chain : (PageRef.head :: free.map .pg).IsChain (Linked m.links)
  last_eq : last = (PageRef.head :: free.map .pg).getLast (by simp)
  close : free ≠ [] → Linked m.links last .head
  bounded : ∀ i ∈ free, i < m.nrPageStructs
  isFree_iff : ∀ i, (m.page (.pg i)).isFree = true ↔ i ∈ free
  isInList_eq : ∀ i, (m.page (.pg i)).isInList = (m.page (.pg i)).isFree
  phyaddr_eq : ∀ i ∈ free, (m.page (.pg i)).phyaddr = pageSize * i

theorem Collecting.nodup_cons {m : MemPages} {free : List Nat} {last : PageRef}
    (C : Collecting m free last) : (PageRef.head :: free.map .pg).Nodup := by
  refine List.nodup_cons.mpr ⟨by simp, C.nodup.map ?_⟩
  intro a b hab
  exact PageRef.pg.inj hab

theorem Collecting.exists_concat {m : MemPages} {free : List Nat} {last : PageRef}
    (C : Collecting m free last) : ∃ l, PageRef.head :: free.map .pg = l ++ [last] := by
  obtain ⟨l, x, hl⟩ :=
    (List.eq_nil_or_concat' (PageRef.head :: free.map PageRef.pg)).resolve_left (by simp)
  have hlast : last = x := by
    rw [C.last_eq]
    simp [hl]
  exact ⟨l, hlast ▸ hl⟩

/-- With a page on it the built list is a free list. -/
theorem Collecting.freeList {m : MemPages} {free : List Nat} {last : PageRef}
    (C : Collecting m free last) (hne : free ≠ []) (hlt : m.nrPageStructs < u64Size) :
    FreeList m free := by
  refine ⟨⟨C.nodup_cons, ?_⟩, C.bounded, fun i _ => C.isFree_iff i, fun i _ => C.isInList_eq i,
    C.phyaddr_eq, hlt⟩
  obtain ⟨l, hl⟩ := C.exists_concat
  have hchain := C.chain
  rw [hl] at hchain ⊢
  rw [List.append_assoc, List.singleton_append]
  exact List.isChain_append_cons_cons.mpr ⟨hchain, C.close hne, List.isChain_singleton _⟩

theorem appendFree_next (m : MemPages) (p last : PageRef) : (m.appendFree p last).links.next =
    Function.update (Function.update m.links.next p .head) last p := rfl

theorem appendFree_prev (m : MemPages) (p last : PageRef) : (m.appendFree p last).links.prev =
    Function.update (Function.update m.links.prev p last) .head p := rfl

theorem appendFree_page (m : MemPages) (p last q : PageRef) : (m.appendFree p last).page q =
    if q = p then { m.page p with isFree := true, isInList := true } else m.page q := by
  rw [← setFlags_page]
  rfl

@[simp] theorem appendFree_nr (m : MemPages) (p last : PageRef) :
    (m.appendFree p last).nrPageStructs = m.nrPageStructs := by
  simp [appendFree]

@[simp] theorem appendFree_maxPhy (m : MemPages) (p last : PageRef) :
    (m.appendFree p last).maxPhy = m.maxPhy := by
  simp [appendFree]

/-- Appending extends the chain by one node and moves its closing links. -/
theorem Collecting.append_chain {m : MemPages} {free : List Nat} {last q : PageRef}
    (C : Collecting m free last) (hq : q ∉ PageRef.head :: free.map .pg) :
    ((PageRef.head :: free.map .pg) ++ [q]).IsChain (Linked (m.appendFree q last).links) ∧
      Linked (m.appendFree q last).links q .head := by
  obtain ⟨l, hl⟩ := C.exists_concat
  have hnd := C.nodup_cons
  have hql : q ≠ last := by
    rintro rfl
    exact hq (by simp [hl])
  have hqh : q ≠ PageRef.head := by
    rintro rfl
    exact hq (by simp)
  refine ⟨?_, by simp [appendFree_next, hql], by simp [appendFree_prev]⟩
  have hchain := C.chain
  have hhead : PageRef.head ∉ (l ++ [last]).tail := by
    rw [← hl]
    exact (List.nodup_cons.mp hnd).1
  rw [hl] at hchain hnd hq ⊢
  rw [List.append_assoc, List.singleton_append]
  refine List.isChain_append_cons_cons.mpr ⟨linked_transport hchain ?_ ?_, ⟨?_, ?_⟩,
    List.isChain_singleton _⟩
  · intro a ha
    rw [List.dropLast_concat] at ha
    have hal : a ≠ last := fun e => List.disjoint_of_nodup_append hnd ha (by simp [e])
    have haq : a ≠ q := by
      rintro rfl
      exact hq (by simp [ha])
    simp [appendFree_next, hal, haq]
  · intro b hb
    have hbh : b ≠ PageRef.head := fun e => hhead (e ▸ hb)
    have hbq : b ≠ q := by
      rintro rfl
      exact hq (List.mem_of_mem_tail hb)
    simp [appendFree_prev, hbh, hbq]
  · simp [appendFree_next]
  · simp [appendFree_prev, hqh]

/-- The record of a page that is on no list may change, as long as it says so. -/
theorem Collecting.setPage {m : MemPages} {free : List Nat} {last : PageRef}
    (C : Collecting m free last) {i : Nat} (hnew : i ∉ free) {r : Page} (hf : r.isFree = false)
    (hl : r.isInList = false) : Collecting (m.setPage (.pg i) r) free last := by
  have hpage : ∀ k, (m.setPage (.pg i) r).page (.pg k) = if k = i then r else m.page (.pg k) := by
    intro k
    simp [MemPages.setPage, Function.update_apply]
  refine ⟨C.nodup, C.chain, C.last_eq, C.close, C.bounded, ?_, ?_, ?_⟩
  · intro k
    rw [hpage]
    by_cases hk : k = i
    · simp [hk, hf, hnew]
    · simpa [hk] using C.isFree_iff k
  · intro k
    rw [hpage]
    split
    · rw [hf, hl]
    · exact C.isInList_eq k
  · intro k hk
    rw [hpage, if_neg fun e : k = i => hnew (e ▸ hk)]
    exact C.phyaddr_eq k hk

/-- A page that knows its address is put at the end of the list. -/
theorem Collecting.append {m : MemPages} {free : List Nat} {last : PageRef}
    (C : Collecting m free last) {i : Nat} (hi : i < m.nrPageStructs) (hnew : i ∉ free)
    (hphy : (m.page (.pg i)).phyaddr = pageSize * i) :
    Collecting (m.appendFree (.pg i) last) (free ++ [i]) (.pg i) := by
  have hq : PageRef.pg i ∉ PageRef.head :: free.map .pg := by simpa using hnew
  obtain ⟨hchain, hclose⟩ := C.append_chain hq
  have hfree : PageRef.head :: (free ++ [i]).map .pg =
      (PageRef.head :: free.map .pg) ++ [.pg i] := by simp
  refine ⟨?_, by rw [hfree]; exact hchain, by simp, fun _ => hclose, ?_, ?_, ?_, ?_⟩
  · exact (List.perm_append_singleton _ _).nodup_iff.mpr (List.nodup_cons.mpr ⟨hnew, C.nodup⟩)
  · intro k hk
    rw [appendFree_nr]
    rcases List.mem_append.mp hk with h | h
    · exact C.bounded k h
    · rw [List.mem_singleton.mp h]
      exact hi
  · intro k
    rw [appendFree_page]
    by_cases hk : k = i
    · simp [hk]
    · simpa [hk] using C.isFree_iff k
  · intro k
    rw [appendFree_page]
    by_cases hk : k = i
    · simp [hk]
    · simpa [hk] using C.isInList_eq k
  · intro k hk
    rw [appendFree_page]
    by_cases he : k = i
    · simp [he, hphy]
    · have hkf : k ∈ free := by simpa [he] using hk
      simpa [he] using C.phyaddr_eq k hkf

/-- One visit of a page that was not visited before. -/
theorem collectPage_spec {m : MemPages} {free : List Nat} {last : PageRef}
    (C : Collecting m free last) (img : KernelImage) {p : Nat}
    (hp : pgnum p < m.nrPageStructs) (hnew : pgnum p ∉ free) :
    ∃ m' last', collectPage img p m last = .ok (m', last') ∧
      Collecting m' (if m.kernelReserved img p then free else free ++ [pgnum p]) last' ∧
      m'.nrPageStructs = m.nrPageStructs ∧ m'.maxPhy = m.maxPhy := by
  have hnot : (m.page (.pg (pgnum p))).isFree = false :=
    Bool.eq_false_iff.mpr fun h => hnew ((C.isFree_iff _).mp h)
  -- the address is recorded first; it changes no link and no flag
  obtain ⟨m₁, hm₁⟩ : ∃ m₁, m₁ =
    m.setPage (pageOf p) { m.page (pageOf p) with phyaddr := Chestnut.pg p } := ⟨_, rfl⟩
  have hnr : m₁.nrPageStructs = m.nrPageStructs := by simp [hm₁]
  have hmax : m₁.maxPhy = m.maxPhy := by simp [hm₁]
  have hphy : (m₁.page (.pg (pgnum p))).phyaddr = pageSize * pgnum p := by
    simp [hm₁, setPage, pageOf, Chestnut.pg, Nat.mul_comm]
  have hres : m₁.kernelReserved img p = m.kernelReserved img p := by
    simp [kernelReserved, structTotSz, hnr]
  have C₁ : Collecting m₁ free last :=
    hm₁ ▸ C.setPage hnew hnot ((C.isInList_eq _).trans hnot)
  cases hr : m.kernelReserved img p with
  | true =>
      refine ⟨m₁.setFlags (pageOf p) false, last, ?_, ?_, by simp [hnr], by simp [hmax]⟩
      · simp [collectPage, hp, ← hm₁, hres, hr]
      · exact C₁.setPage hnew rfl rfl
  | false =>
      refine ⟨m₁.appendFree (pageOf p) last, pageOf p, ?_, ?_, by simp [hnr], by simp [hmax]⟩
      · simp [collectPage, hp, ← hm₁, hres, hr]
      · exact C₁.append (hp.trans_eq hnr.symm) hnew hphy

/-- The pages a walk puts on the list. -/
def freed (img : KernelImage) (m : MemPages) (ps : List Nat) : List Nat :=
  (ps.filter fun p => !m.kernelReserved img p).map pgnum

/-- The reserved addresses depend on the size of the page array only. -/
theorem freed_congr {m m' : MemPages} (h : m'.nrPageStructs = m.nrPageStructs) (img : KernelImage)
    (ps : List Nat) : freed img m' ps = freed img m ps := by
  simp [freed, kernelReserved, structTotSz, h]

theorem mem_freed {img : KernelImage} {m : MemPages} {ps : List Nat} {i : Nat} :
    i ∈ freed img m ps ↔ ∃ p ∈ ps, m.kernelReserved img p = false ∧ pgnum p = i := by
  simp [freed, and_assoc]

/-- A walk that visits no page twice and stays inside the page array. -/
theorem collectFold_spec {m : MemPages} {free : List Nat} {last : PageRef}
    (C : Collecting m free last) (img : KernelImage) (ps : List Nat)
    (hin : ∀ p ∈ ps, pgnum p < m.nrPageStructs)
    (hnd : (ps.map pgnum).Nodup) (hnew : ∀ p ∈ ps, pgnum p ∉ free) :
    ∃ m' last', collectFold img ps m last = .ok (m', last') ∧
      Collecting m' (free ++ freed img m ps) last' ∧
      m'.nrPageStructs = m.nrPageStructs ∧ m'.maxPhy = m.maxPhy := by
  induction ps generalizing m free last with
  | nil => exact ⟨m, last, rfl, by simpa [freed] using C, rfl, rfl⟩
  | cons p ps ih =>
      obtain ⟨m₁, last₁, hstep, C₁, hnr, hmax⟩ :=
        collectPage_spec C img (hin p (by simp)) (hnew p (by simp))
      rw [List.map_cons, List.nodup_cons] at hnd
      have hfreed : freed img m (p :: ps) =
          (if m.kernelReserved img p then [] else [pgnum p]) ++ freed img m ps := by
        cases h : m.kernelReserved img p <;> simp [freed, h]
      have hsame := freed_congr hnr img ps
      obtain ⟨m₂, last₂, hrest, C₂, hnr₂, hmax₂⟩ := ih C₁
        (fun q hq => by rw [hnr]; exact hin q (by simp [hq])) hnd.2 (by
          intro q hq hmem
          have hqp : pgnum q ≠ pgnum p := fun e => hnd.1 (e ▸ List.mem_map_of_mem hq)
          have hqf := hnew q (by simp [hq])
          split at hmem
          · exact hqf hmem
          · simp [hqf, hqp] at hmem)
      refine ⟨m₂, last₂, by simp [collectFold, hstep, hrest], ?_, hnr₂.trans hnr,
        hmax₂.trans hmax⟩
      rw [hfreed]
      rw [hsame] at C₂
      cases h : m.kernelReserved img p <;> simpa [h] using C₂

/-- A walk that returns has passed the assertion on every visited page. -/
theorem collectFold_bounded {m m' : MemPages} {last last' : PageRef} {img : KernelImage}
    {ps : List Nat} (h : collectFold img ps m last = .ok (m', last')) :
    (∀ p ∈ ps, pgnum p < m.nrPageStructs) ∧ m'.nrPageStructs = m.nrPageStructs ∧
      m'.maxPhy = m.maxPhy := by
  induction ps generalizing m last with
  | nil =>
      cases h
      simp
  | cons p ps ih =>
      obtain ⟨⟨m₁, last₁⟩, hstep, hrest⟩ := bind_ok h
      have hp : pgnum p < m.nrPageStructs := by
        obtain ⟨⟨⟩, hk, _⟩ := bind_ok hstep
        simpa [kassert_ok_iff] using hk
      have hnr : m₁.nrPageStructs = m.nrPageStructs ∧ m₁.maxPhy = m.maxPhy := by
        simp only [collectPage, decide_eq_true hp, kassert_true, ok_bind] at hstep
        split at hstep
        · obtain ⟨rfl, _⟩ := Prod.mk.inj (Except.ok.inj hstep)
          simp
        · obtain ⟨rfl, _⟩ := Prod.mk.inj (Except.ok.inj hstep)
          simp
      obtain ⟨hall, hnr', hmax'⟩ := ih hrest
      refine ⟨?_, hnr'.trans hnr.1, hmax'.trans hnr.2⟩
      intro q hq
      rcases List.mem_cons.mp hq with rfl | hq
      · exact hp
      · rw [← hnr.1]
        exact hall q hq

/-- The list before the walk: `page_structs` was just zeroed. -/
theorem clearPages_collecting (m : MemPages) : Collecting m.clearPages [] .head := by
  refine ⟨List.nodup_nil, List.isChain_singleton _, rfl, fun h => absurd rfl h, ?_, ?_, ?_, ?_⟩
  · intro i hi
    cases hi
  · intro i
    simp [clearPages]
  · intro i
    simp [clearPages]
  · intro i hi
    cases hi

end MemPages

end Chestnut
