import Chestnut.Slab.Exhaustion

/-!
# How many empty slabs a cache keeps

`ReclaimEmptySlab` compares the number of all slabs with the limit, and only at
the moment a slab becomes empty. A slab is opened only while none is empty, so
the comparison is never outdated: as long as the limit stays, an empty slab
means that the cache has no more slabs than the limit.
-/

namespace Chestnut

open Lib

namespace MemCache

/-- While a slab waits, `Allocate` does not come to call `AllocSlab`. -/
theorem takeSlab_of_waits (S : SlabClass) (objSize : Nat) {c : CacheRef} {h : Heap}
    (hw : HeapWorld.Waits h c) (f : Nat → HeapM Nat) :
    takeSlab { S with allocSlab := f } objSize c h = takeSlab S objSize c h := by
  rcases hw with hhalf | hempty
  · rw [takeSlab, takeSlab, hhalf]
    rfl
  · rw [takeSlab, takeSlab, hempty]
    rfl

end MemCache

namespace HeapInv

variable {G : Ghost} {h : Heap} {caches : List CacheRef} {blocks : List Block} {c : CacheRef}

/-- A slab in no hand is in the queue of its number of live slots. -/
theorem exists_queue (I : HeapInv G h caches blocks) (hh : G.hand = none) {a : Nat}
    (hs : (c, a) ∈ h.slabs) :
    ∃ q : Queue, q.Holds c.kind.cap (G.live a).card ∧ a ∈ G.seq (.queue c q) := by
  obtain ⟨q, hq⟩ := Queue.exists_holds c.kind.cap (G.live a).card
  exact ⟨q, hq, (I.queues.placed c a q hs).mpr ⟨by simp [hh], hq⟩⟩

/-- When no slab waits, all are full. -/
theorem full_of_not_waiting (I : HeapInv G h caches blocks) (hh : G.hand = none)
    (hw : ¬ Waiting G c) {a : Nat} (hs : (c, a) ∈ h.slabs) :
    c.kind.slabClass.isFull h a = true := by
  obtain ⟨q, hq, ha⟩ := I.exists_queue hh hs
  rw [Waiting, not_or, not_not, not_not] at hw
  cases q with
  | full => exact (I.headers.rep c a hs).isFull_iff.mpr hq
  | half => simp [hw.1] at ha
  | empty => simp [hw.2] at ha

/-- Without a live object every slab is in the queue of empty slabs. -/
theorem empty_of_no_object (I : HeapInv G h caches blocks) (hh : G.hand = none)
    (hno : ∀ o, ¬ HeldAt h.slabs blocks c o) {a : Nat} (hs : (c, a) ∈ h.slabs) :
    a ∈ G.seq (.queue c .empty) := by
  have hlive : G.live a = ∅ := by
    refine Finset.eq_empty_iff_forall_notMem.mpr fun i hi => ?_
    exact hno _ ((I.blocks.held_iff c (slotAddr G.page c a i)).mpr ⟨a, i, hs, hi, rfl⟩)
  exact (I.queues.placed c a .empty hs).mpr ⟨by simp [hh], by simp [Queue.Holds, hlive]⟩

end HeapInv

namespace HeapWorld

/-- The bound on empty slabs, along calls that leave the limit alone. -/
def Bounded (c : CacheRef) (limit : Nat) (w : HeapWorld) : Prop :=
  ∃ G, HeapInv G w.heap w.caches w.blocks ∧ G.hand = none ∧ c ∈ w.caches ∧
    (w.heap.stat c).maxPg = limit ∧ Retained G w.heap c

variable {c : CacheRef} {limit : Nat} {w w' : HeapWorld}

theorem Bounded.step (B : Bounded c limit w) {op : HeapOp} (ha : w.Allowed op)
    (hl : w.KeepsLimit c op) (hs : w.step op = .ok w') : Bounded c limit w' := by
  obtain ⟨G, I, hh, hc, hmax, hr⟩ := B
  rcases step_spec I hh ha with he | ⟨w₁, G', hs', I', hh', M⟩
  · rw [he] at hs
    cases hs
  · rw [hs'] at hs
    cases hs
    exact ⟨G', I', hh', M.caches c hc, (M.maxPg c hc hl).trans hmax, M.retained c hc hl hr⟩

/-- From the construction of a cache on, as long as its limit stays: an empty
slab means that the cache has at most `limit` slabs; without a live object at
most `limit` slabs are left; and `AllocSlab` is called only when all slabs are
full. -/
theorem retention {m : MemPages} {free : List Nat} {nodes : Links NodeRef}
    {slab : Nat → SlabRec} {w₀ : HeapWorld} (F : MemPages.FreeList m free)
    (hw₀ : Reachable m nodes slab w₀) (hc : c ∈ w₀.caches)
    (hnew : (w₀.heap.stat c).slabPg = 0) (hmax : (w₀.heap.stat c).maxPg = limit)
    (hrun : Reach HeapWorld.step (fun w op => w.Allowed op ∧ w.KeepsLimit c op) w₀ w) :
    (w.heap.nodes.isEmpty (.queue c .empty) = false → (w.heap.stat c).slabPg ≤ limit) ∧
      ((∀ o, ¬ HeldAt w.heap.slabs w.blocks c o) →
        (w.heap.slabs.filter (·.1 = c)).length ≤ limit) ∧
      ((∃ f, MemCache.takeSlab { c.kind.slabClass with allocSlab := f } c.kind.objSize c w.heap ≠
          MemCache.takeSlab c.kind.slabClass c.kind.objSize c w.heap) →
        ∀ a, (c, a) ∈ w.heap.slabs → c.kind.slabClass.isFull w.heap a = true) := by
  obtain ⟨G₀, I₀, hh₀⟩ := hw₀.inv F
  have hstart : Bounded c limit w₀ :=
    ⟨G₀, I₀, hh₀, hc, hmax, .inr (by rw [hnew]; exact Nat.zero_le _)⟩
  obtain ⟨G, I, hh, hc, hmax, hr⟩ : Bounded c limit w :=
    hrun.inv hstart fun _ _ _ B ha hs => B.step ha.1 ha.2 hs
  have hbound : G.seq (.queue c .empty) ≠ [] → (w.heap.stat c).slabPg ≤ limit :=
    fun hne => (hr.resolve_left hne).trans_eq hmax
  refine ⟨fun he => hbound ?_, fun hno => ?_, ?_⟩
  · rwa [ne_eq, ← I.isEmpty_iff hc, Bool.not_eq_true]
  · rw [← List.countP_eq_length_filter, ← I.stats.slabPg c hc]
    rcases Nat.eq_zero_or_pos (w.heap.stat c).slabPg with h0 | hpos
    · rw [h0]
      exact Nat.zero_le _
    · apply hbound
      rw [I.stats.slabPg c hc] at hpos
      obtain ⟨⟨c', a⟩, hs, he⟩ := List.countP_pos_iff.mp hpos
      obtain rfl : c' = c := by simpa using he
      exact List.ne_nil_of_mem (I.empty_of_no_object hh hno hs)
  · rintro ⟨f, hne⟩ a hs
    refine I.full_of_not_waiting hh (fun hw => hne ?_) hs
    exact MemCache.takeSlab_of_waits _ _ ((I.waits_iff hc).mpr hw) f

/-- The limit of `chunk16_cache` is set to 1 and its only object is given back: the empty slab
is kept, and it is the only one. -/
theorem retention_machine :
    ∃ w₀ w, (machine 4).step (.setMaxPage (.global .chunk16) 1) = .ok w₀ ∧
      Reach step (fun w op => w.Allowed op ∧ w.KeepsLimit (.global .chunk16) op) w₀ w ∧
      w.blocks = [] ∧ w.heap.nodes.isEmpty (.queue (.global .chunk16) .empty) = false ∧
      (w.heap.stat (.global .chunk16)).slabPg ≤ 1 ∧
      (w.heap.slabs.filter (·.1 = .global .chunk16)).length ≤ 1 := by
  obtain ⟨w₀, hs₀, hrun⟩ := exists_of_okAnd
    (x := (machine 4).step (.setMaxPage (.global .chunk16) 1))
    (p := fun w₀ => decide (.global .chunk16 ∈ w₀.caches) &&
      (w₀.heap.stat (.global .chunk16)).slabPg == 0 &&
      (w₀.heap.stat (.global .chunk16)).maxPg == 1 &&
      okAnd (w₀.step (.allocate (.global .chunk16))) fun w₁ =>
        decide (w₁.Allowed (.release (.global .chunk16) 12288)) &&
        okAnd (w₁.step (.release (.global .chunk16) 12288)) fun w =>
          w.blocks == [] && !w.heap.nodes.isEmpty (.queue (.global .chunk16) .empty))
    (by decide +kernel)
  simp only [Bool.and_eq_true, beq_iff_eq, decide_eq_true_eq] at hrun
  obtain ⟨⟨⟨hmem, hnew⟩, hmax⟩, hrun⟩ := hrun
  obtain ⟨w₁, hs₁, hrun⟩ := exists_of_okAnd hrun
  simp only [Bool.and_eq_true, decide_eq_true_eq] at hrun
  obtain ⟨hheld, hrun⟩ := hrun
  obtain ⟨w, hs₂, hlast⟩ := exists_of_okAnd hrun
  simp only [Bool.and_eq_true, beq_iff_eq, Bool.not_eq_true'] at hlast
  obtain ⟨hblocks, hempty⟩ := hlast
  have hw₀ : Reachable (MemPages.line 4) ⟨fun x => x, fun x => x⟩ (fun _ => {}) w₀ :=
    .next (o := .setMaxPage (.global .chunk16) 1) .start (by decide) hs₀
  have hsteps : Reach step (fun w op => w.Allowed op ∧ w.KeepsLimit (.global .chunk16) op) w₀ w :=
    .next (.next .start (o := .allocate (.global .chunk16)) ⟨hmem, nofun⟩ hs₁)
      (o := .release (.global .chunk16) 12288) ⟨hheld, nofun⟩ hs₂
  obtain ⟨hbound, hidle, -⟩ := retention (MemPages.line_freeList (n := 4) (by decide)) hw₀ hmem
    hnew hmax hsteps
  refine ⟨w₀, w, hs₀, hsteps, hblocks, hempty, hbound hempty, hidle fun o ho => ?_⟩
  rcases ho with ho | ⟨he, -⟩
  · rw [hblocks] at ho
    cases ho
  · cases he

end HeapWorld

end Chestnut
