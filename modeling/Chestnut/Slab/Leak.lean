import Chestnut.Slab.Accounting

/-!
# Where the pages are

A page that left the free list belongs to a slab in a queue or to a block,
unless some `Free` emptied a slab with a separate header while its cache was
above its limit: `BaseSlab::FreeSlab` returns the header and forgets the
page. From then on the page is lost.
-/

namespace Chestnut

open Lib

namespace HeapWorld

/-- A slab is linked into one of the queues of a cache. -/
def InQueue (w : HeapWorld) (c : CacheRef) (a : Nat) : Prop :=
  ∃ (q : Queue) (xs : List Nat), Ring w.heap.nodes (.queue c q) (xs.map .node) ∧ a ∈ xs

/-- Someone knows the page: it is the data page of a queued slab, a queued
meta slab, or part of a multi-page block. -/
def Accounted (w : HeapWorld) (p : Nat) : Prop :=
  (∃ c ∈ w.caches, c.kind ≠ .metaSlab ∧ ∃ a, w.InQueue c a ∧
      (w.heap.slab a).dataPage = .pg p) ∨
    (∃ c ∈ w.caches, c.kind = .metaSlab ∧ ∃ a, w.InQueue c a ∧ a = pageSize * p) ∨
    ∃ s n, .pages s n ∈ w.blocks ∧ s ≤ p ∧ p < s + n

variable {G : Ghost} {w : HeapWorld} {c : CacheRef} {a p : Nat}

theorem inQueue_iff (I : HeapInv G w.heap w.caches w.blocks) (hh : G.hand = none)
    (hc : c ∈ w.caches) : w.InQueue c a ↔ (c, a) ∈ w.heap.slabs := by
  have F := filed_of_inv I hh hc
  constructor
  · rintro ⟨q, xs, hr, ha⟩
    have he := hr.unique (I.queues.rings.ring (.queue c q) hc)
    have hxs : xs = G.seq (.queue c q) :=
      List.map_injective_iff.mpr (fun x y h => NodeRef.node.inj h) he
    exact I.queues.queue_mem c a q hc (hxs ▸ ha)
  · intro hs
    have hm := (F.mem_iff a).mp hs
    rw [List.mem_append, List.mem_append] at hm
    rcases hm with (hm | hm) | hm
    · exact ⟨.full, _, F.full_ring, hm⟩
    · exact ⟨.half, _, F.half_ring, hm⟩
    · exact ⟨.empty, _, F.empty_ring, hm⟩

/-- The accounted pages are those of slabs and blocks. -/
theorem accounted_iff_use (I : HeapInv G w.heap w.caches w.blocks) (hh : G.hand = none) :
    w.Accounted p ↔ (∃ c a, G.use p = .slab c a) ∨ ∃ s n, G.use p = .big s n := by
  constructor
  · rintro (⟨c, hc, hk, a, hq, hd⟩ | ⟨c, hc, hk, a, hq, ha⟩ | ⟨s, n, hb, h₁, h₂⟩)
    · have hs := (inQueue_iff I hh hc).mp hq
      rw [I.headers.data_page c a hs hk] at hd
      cases hd
      exact Or.inl ⟨c, a, I.use_page hs⟩
    · have hs := (inQueue_iff I hh hc).mp hq
      have hpage : G.page a = p := by
        have := I.slabs.meta_addr c a hs hk
        rw [pageSize] at this ha
        omega
      exact Or.inl ⟨c, a, hpage ▸ I.use_page hs⟩
    · exact Or.inr ⟨s, n, (I.blocks.big_use s n hb).2 p h₁ h₂⟩
  · rintro (⟨c, a, huse⟩ | ⟨s, n, huse⟩)
    · obtain ⟨hs, hpage⟩ := (I.slabs.use_iff p c a).mp huse
      have hc := I.slabs.cache_mem c a hs
      have hq := (inQueue_iff I hh hc).mpr hs
      by_cases hk : c.kind = .metaSlab
      · exact Or.inr (Or.inl ⟨c, hc, hk, a, hq, hpage ▸ I.slabs.meta_addr c a hs hk⟩)
      · exact Or.inl ⟨c, hc, hk, a, hq, hpage ▸ I.headers.data_page c a hs hk⟩
    · obtain ⟨hb, h₁, h₂⟩ := I.blocks.of_big p s n huse
      exact Or.inr (Or.inr ⟨s, n, hb, h₁, h₂⟩)

/-- Under a limit of 0 everywhere and without blocks there is no slab. -/
theorem no_slab (I : HeapInv G w.heap w.caches w.blocks) (hh : G.hand = none)
    (ht : Tight G w) (hb : w.blocks = []) : w.heap.slabs = [] := by
  -- An empty slab would be queued, and a live slot would be held or a header.
  have hlive : ∀ c a, (c, a) ∈ w.heap.slabs → ∃ i, i ∈ G.live a := by
    intro c a hs
    by_contra hno
    have hcard : (G.live a).card = 0 := by
      rw [Finset.card_eq_zero, Finset.eq_empty_iff_forall_notMem]
      exact fun i hi => hno ⟨i, hi⟩
    have hm := (I.queues.placed c a .empty hs).mpr ⟨by simp [hh], hcard⟩
    rw [(ht c (I.slabs.cache_mem c a hs)).2] at hm
    cases hm
  have hheld : ∀ c a, (c, a) ∈ w.heap.slabs →
      ∃ c' a', c'.kind ≠ .metaSlab ∧ (c', a') ∈ w.heap.slabs ∧ c = BaseSlab.metaSlabCache := by
    intro c a hs
    obtain ⟨i, hi⟩ := hlive c a hs
    rcases (I.blocks.held_iff c _).mpr ⟨a, i, hs, hi, rfl⟩ with hm | ⟨hc, c', hk, hs'⟩
    · rw [hb] at hm
      cases hm
    · exact ⟨c', _, hk, hs', hc⟩
  rw [List.eq_nil_iff_forall_not_mem]
  rintro ⟨c, a⟩ hs
  obtain ⟨c', a', hk, hs', -⟩ := hheld c a hs
  obtain ⟨-, -, -, -, rfl⟩ := hheld c' a' hs'
  exact hk rfl

/-- What the history of a run says about the pages. -/
theorem trace_inv {m : MemPages} {free : List Nat} {nodes : Links NodeRef}
    {slab : Nat → SlabRec} {tr : List (HeapWorld × HeapOp)} (F : MemPages.FreeList m free)
    (hw : Steps step Allowed (initial m nodes slab) tr w) :
    ∃ G, HeapInv G w.heap w.caches w.blocks ∧ G.hand = none ∧
      (∀ p, G.use p = .unmanaged ↔ p ∉ free) ∧
      ((∃ p, G.use p = .lost) ↔ ∃ x ∈ tr, x.1.DropsPage x.2) ∧
      ((∀ x ∈ tr, ∀ c n, x.2 ≠ .setMaxPage c n) → Tight G w) := by
  refine Steps.inv (I := fun tr w => ∃ G, HeapInv G w.heap w.caches w.blocks ∧
    G.hand = none ∧ (∀ p, G.use p = .unmanaged ↔ p ∉ free) ∧
    ((∃ p, G.use p = .lost) ↔ ∃ x ∈ tr, x.1.DropsPage x.2) ∧
    ((∀ x ∈ tr, ∀ c n, x.2 ≠ .setMaxPage c n) → Tight G w)) ?_ ?_ hw
  · obtain ⟨I, hstat⟩ := initSlab_inv F nodes slab
    refine ⟨_, I, rfl, ?_, ?_, ?_⟩
    · intro p
      by_cases hp : p ∈ free <;> simp [Ghost.initial, hp]
    · constructor
      · rintro ⟨p, hp⟩
        by_cases hm : p ∈ free <;> simp [Ghost.initial, hm] at hp
      · rintro ⟨x, hx, -⟩
        cases hx
    · intro _ c hc
      exact ⟨by rw [show (initial m nodes slab).heap.stat c = {} from hstat c hc], rfl⟩
  · rintro tr w op w' ⟨G, I, hh, hman, hlost, htight⟩ ha hs
    rcases step_spec I hh ha with he | ⟨w'', G', hs', I', hh', A⟩
    · rw [he] at hs
      cases hs
    · rw [hs'] at hs
      cases hs
      refine ⟨G', I', hh', fun p => (A.unmanaged p).trans (hman p), ?_, ?_⟩
      · rw [A.lost, hlost]
        simp [or_comm]
      · intro hset
        refine A.tight (hset (w, op) (by simp)) (htight fun x hx => ?_)
        exact hset x (List.mem_cons_of_mem _ hx)

/-- Where the pages are after a run: every page that left the free list since
`InitSlab` is accounted for exactly when no call of the run dropped a slab
with a separate header; and when all limits stayed at 0 and no block is held
any more, the free pages are those of the start under the same condition. -/
theorem accounted_iff_no_drop {m : MemPages} {free : List Nat} (F : MemPages.FreeList m free)
    (nodes : Links NodeRef) (slab : Nat → SlabRec) (tr : List (HeapWorld × HeapOp))
    (w : HeapWorld) (hw : Steps step Allowed (initial m nodes slab) tr w) :
    ∃ free', MemPages.FreeList w.heap.pages free' ∧
      ((∀ p ∈ free, p ∉ free' → w.Accounted p) ↔ ∀ x ∈ tr, ¬ x.1.DropsPage x.2) ∧
      ((∀ x ∈ tr, ∀ c n, x.2 ≠ .setMaxPage c n) → w.blocks = [] →
        ((∀ p, p ∈ free' ↔ p ∈ free) ↔ ∀ x ∈ tr, ¬ x.1.DropsPage x.2)) := by
  obtain ⟨G, I, hh, hman, hlost, htight⟩ := trace_inv F hw
  have hdrop : (∀ x ∈ tr, ¬ x.1.DropsPage x.2) ↔ ∀ p, G.use p ≠ .lost := by
    rw [← not_exists, hlost]
    simp
  have hfree : ∀ p, p ∈ G.free ↔ G.use p = .free := fun p => (I.pages.free_iff p).symm
  refine ⟨G.free, I.pages.list, ?_, ?_⟩
  · rw [hdrop]
    constructor
    · intro hall p hp
      have hin : p ∈ free := by
        by_contra hno
        rw [(hman p).mpr hno] at hp
        cases hp
      have hacc := (accounted_iff_use I hh).mp (hall p hin (by simp [hfree, hp]))
      rcases hacc with ⟨c, a, huse⟩ | ⟨s, n, huse⟩ <;> rw [hp] at huse <;> cases huse
    · intro hno p hin hnf
      rw [accounted_iff_use I hh]
      have hnf' : G.use p ≠ .free := fun hp => hnf ((hfree p).mpr hp)
      have hun : G.use p ≠ .unmanaged := fun hp => (hman p).mp hp hin
      cases huse : G.use p with
      | unmanaged => exact absurd huse hun
      | free => exact absurd huse hnf'
      | slab c a => exact Or.inl ⟨c, a, rfl⟩
      | big s n => exact Or.inr ⟨s, n, rfl⟩
      | lost => exact absurd huse (hno p)
  · intro hset hb
    have hnone := no_slab I hh (htight hset) hb
    rw [hdrop]
    constructor
    · intro hsame p hp
      have hnf : p ∉ free := by
        rw [← hsame, hfree, hp]
        simp
      rw [(hman p).mpr hnf] at hp
      cases hp
    · intro hno p
      rw [hfree]
      constructor
      · intro hp
        by_contra hnf
        rw [(hman p).mpr hnf] at hp
        cases hp
      · intro hin
        have hun : G.use p ≠ .unmanaged := fun hp => (hman p).mp hp hin
        cases huse : G.use p with
        | unmanaged => exact absurd huse hun
        | free => rfl
        | slab c a =>
            have hs := ((I.slabs.use_iff p c a).mp huse).1
            rw [hnone] at hs
            cases hs
        | big s n =>
            have hm := (I.blocks.of_big p s n huse).1
            rw [hb] at hm
            cases hm
        | lost => exact absurd huse (hno p)

/-- `Alloc(16)` and `Free` of its block on a machine with four free pages. -/
theorem alloc_free_run : ∃ (addr : Nat) (w₁ w₂ : HeapWorld),
    (machine 4).Allowed (.alloc 16) ∧ (machine 4).step (.alloc 16) = .ok w₁ ∧
      w₁.blocks = [block 16 addr] ∧ w₁.Allowed (.free (some (block 16 addr))) ∧
      w₁.step (.free (some (block 16 addr))) = .ok w₂ ∧ w₂.blocks = [] ∧
      w₂.heap.slabs = [] ∧ (w₂.heap.pages.page (.pg 3)).isFree = false := by
  obtain ⟨w₁, h₁, hfacts⟩ := exists_of_okAnd (x := (machine 4).step (.alloc 16))
    (p := fun w₁ => okAnd (w₁.step (.free w₁.blocks.head?)) fun w₂ =>
      w₂.blocks.isEmpty && w₂.heap.slabs.isEmpty && !(w₂.heap.pages.page (.pg 3)).isFree)
    (by decide +kernel)
  have hall : (machine 4).Allowed (.alloc 16) := ⟨by decide, by decide, by decide⟩
  obtain ⟨⟨addr, h'⟩, -, hret⟩ := bind_ok h₁
  have hb₁ : w₁.blocks = [block 16 addr] := by
    cases hret
    rfl
  have hc₁ : w₁.caches = globalCaches := by
    cases hret
    rfl
  rw [hb₁, List.head?_cons] at hfacts
  obtain ⟨w₂, h₂, hfacts⟩ := exists_of_okAnd hfacts
  simp only [Bool.and_eq_true, List.isEmpty_iff, Bool.not_eq_true'] at hfacts
  refine ⟨addr, w₁, w₂, hall, h₁, hb₁, ?_, h₂, hfacts.1.1, hfacts.1.2, hfacts.2⟩
  refine ⟨by simp [hb₁, block], ?_, Kernel.chunkOf 16, Kernel.chunkOf_ne 16, rfl⟩
  have hsite : ∀ c ∈ globalCaches, c.site = none := by decide
  intro c hc
  rw [hsite c (hc₁ ▸ hc)]
  simp

/-- After `Alloc(16)` and `Free` no block is held, page 3 was free at the
start, and it is now neither free nor accounted for. -/
theorem page_lost_by_free : ∃ (addr : Nat) (w₁ w₂ : HeapWorld),
    (machine 4).Allowed (.alloc 16) ∧ (machine 4).step (.alloc 16) = .ok w₁ ∧
      w₁.blocks = [block 16 addr] ∧ w₁.Allowed (.free (some (block 16 addr))) ∧
      w₁.step (.free (some (block 16 addr))) = .ok w₂ ∧ w₂.blocks = [] ∧
      ((machine 4).heap.pages.page (.pg 3)).isFree = true ∧
      (w₂.heap.pages.page (.pg 3)).isFree = false ∧ ¬ w₂.Accounted 3 := by
  obtain ⟨addr, w₁, w₂, ha₁, h₁, hb₁, ha₂, h₂, hb₂, hs₂, hf₂⟩ := alloc_free_run
  refine ⟨addr, w₁, w₂, ha₁, h₁, hb₁, ha₂, h₂, hb₂, by decide +kernel, hf₂, ?_⟩
  obtain ⟨G, I, hh⟩ := Reachable.inv (MemPages.line_freeList (n := 4) (by decide))
    (.next (.next .start ha₁ h₁) ha₂ h₂)
  rw [accounted_iff_use I hh]
  rintro (⟨c, a, huse⟩ | ⟨s, n, huse⟩)
  · have hm := ((I.slabs.use_iff 3 c a).mp huse).1
    rw [hs₂] at hm
    cases hm
  · have hm := (I.blocks.of_big 3 s n huse).1
    rw [hb₂] at hm
    cases hm

/-- A run of the condition's other side: a block of two pages is handed out and comes back. -/
theorem accounted_iff_no_drop_machine :
    ∃ tr w, Steps step Allowed (machine 4) tr w ∧
      tr.map Prod.snd = [.free (some (.pages 1 2)), .alloc 8192] ∧
      ∃ free', MemPages.FreeList w.heap.pages free' ∧
        ∀ p ∈ (List.range' 1 4).reverse, p ∉ free' → w.Accounted p := by
  obtain ⟨tr, w, hrun, hlast⟩ := exists_of_runAnd step Allowed
    [.alloc 8192, .free (some (.pages 1 2))] (machine 4)
    (fun tr _ => decide (tr.map Prod.snd = [.free (some (.pages 1 2)), .alloc 8192]))
    (by decide +kernel)
  have hops := of_decide_eq_true hlast
  obtain ⟨free', F', hacc, -⟩ := accounted_iff_no_drop
    (MemPages.line_freeList (n := 4) (by decide)) ⟨fun x => x, fun x => x⟩ (fun _ => {}) tr w hrun
  refine ⟨tr, w, hrun, hops, free', F', hacc.mpr fun x hx hdrop => ?_⟩
  have hmem : x.2 ∈ tr.map Prod.snd := List.mem_map_of_mem hx
  simp only [hops, List.mem_cons, List.not_mem_nil, or_false] at hmem
  rcases hmem with hop | hop
  all_goals
    rw [hop] at hdrop
    exact hdrop

end HeapWorld

end Chestnut
