import Chestnut.Slab.Safety

/-!
# Queues and counters

Every slab of a cache is in exactly one of its three queues, the one that its
number of live objects names, and the two counters of the cache count its
slabs and its live objects. The live objects of `meta_slab_cache` are the
headers of the slabs of the other caches, and what callers took from it
directly.
-/

namespace Chestnut

open Lib

/-- The address of a block that is an object of the cache. -/
def Block.objOf (c : CacheRef) : Block → Option Nat
  | .obj c' o => if c' = c then some o else none
  | .pages _ _ => none

@[simp] theorem Block.objOf_eq_some {c : CacheRef} {b : Block} {o : Nat} :
    b.objOf c = some o ↔ b = .obj c o := by
  cases b with
  | obj c' o' =>
      by_cases he : c' = c
      · simp [objOf, he]
      · simp [objOf, he]
  | pages s n => simp [objOf]

theorem Block.length_filterMap_objOf (c : CacheRef) (blocks : List Block) :
    (blocks.filterMap (Block.objOf c)).length = blocks.countP (·.isObj c) := by
  induction blocks with
  | nil => rfl
  | cons b blocks ih =>
      rw [List.filterMap_cons, List.countP_cons, ← ih]
      cases b with
      | obj c' o =>
          by_cases he : c' = c
          · simp [Block.objOf, Block.isObj, he]
          · simp [Block.objOf, Block.isObj, he]
      | pages s n => simp [Block.objOf, Block.isObj]

namespace HeapWorld

/-- The live objects of a cache. -/
def objects (w : HeapWorld) (c : CacheRef) : List Nat :=
  w.blocks.filterMap (Block.objOf c) ++
    if c = BaseSlab.metaSlabCache then
      (w.heap.slabs.filter (·.1.kind ≠ .metaSlab)).map Prod.snd
    else []

/-- The slab that a page record names for an object. -/
def slabOf (w : HeapWorld) (o : Nat) : Nat := (w.heap.pages.page (MemPages.pageOf o)).slabPtr

/-- The slabs of a cache are filed and counted. -/
structure Filed (w : HeapWorld) (c : CacheRef) (full half empty : List Nat) : Prop where
  full_ring : Ring w.heap.nodes (.queue c .full) (full.map .node)
  half_ring : Ring w.heap.nodes (.queue c .half) (half.map .node)
  empty_ring : Ring w.heap.nodes (.queue c .empty) (empty.map .node)
  nodup : (full ++ half ++ empty).Nodup
  mem_iff : ∀ a, (c, a) ∈ w.heap.slabs ↔ a ∈ full ++ half ++ empty
  full_iff : ∀ a, (c, a) ∈ w.heap.slabs →
    (a ∈ full ↔ c.kind.slabClass.isFull w.heap a = true)
  half_iff : ∀ a, (c, a) ∈ w.heap.slabs → (a ∈ half ↔
    ¬ c.kind.slabClass.isFull w.heap a = true ∧ ∃ o ∈ w.objects c, w.slabOf o = a)
  empty_iff : ∀ a, (c, a) ∈ w.heap.slabs → (a ∈ empty ↔ ∀ o ∈ w.objects c, w.slabOf o ≠ a)
  slabPg : (w.heap.stat c).slabPg = full.length + half.length + empty.length
  allocated : (w.heap.stat c).allocated = (w.objects c).length
  objects_nodup : (w.objects c).Nodup

variable {G : Ghost} {w : HeapWorld} {c : CacheRef} {a o : Nat}

theorem mem_objects : o ∈ w.objects c ↔ HeldAt w.heap.slabs w.blocks c o := by
  rw [objects, List.mem_append, HeldAt, List.mem_filterMap]
  refine or_congr ?_ ?_
  · simp
  · by_cases hc : c = BaseSlab.metaSlabCache
    · simp [hc, and_comm]
    · simp [hc]

/-- The page record of a live object names its slab. -/
theorem slabOf_slot (I : HeapInv G w.heap w.caches w.blocks) (hs : (c, a) ∈ w.heap.slabs)
    {i : Nat} (hi : i ∈ G.live a) : w.slabOf (slotAddr G.page c a i) = a := by
  have hpos := c.kind.objSize_pos
  have hp := (slotAddr_div (I.slot_le hs hi) le_rfl
    (show slotAddr G.page c a i < slotAddr G.page c a i + c.kind.objSize by omega)).1
  rw [slabOf, MemPages.pageOf, pgnum, hp]
  exact (I.pages.slab_page _ _ _ (I.use_page hs)).1

/-- A slab has a live object exactly when it has a live slot. -/
theorem exists_object_iff (I : HeapInv G w.heap w.caches w.blocks)
    (hs : (c, a) ∈ w.heap.slabs) :
    (∃ o ∈ w.objects c, w.slabOf o = a) ↔ (G.live a).card ≠ 0 := by
  rw [ne_eq, Finset.card_eq_zero, ← ne_eq, ← Finset.nonempty_iff_ne_empty]
  constructor
  · rintro ⟨o, ho, rfl⟩
    obtain ⟨a', i, hs', hi, rfl⟩ := (I.blocks.held_iff c o).mp (mem_objects.mp ho)
    rw [slabOf_slot I hs' hi]
    exact ⟨i, hi⟩
  · rintro ⟨i, hi⟩
    refine ⟨slotAddr G.page c a i, ?_, slabOf_slot I hs hi⟩
    exact mem_objects.mpr ((I.blocks.held_iff c _).mpr ⟨a, i, hs, hi, rfl⟩)

theorem objects_nodup (I : HeapInv G w.heap w.caches w.blocks) (c : CacheRef) :
    (w.objects c).Nodup := by
  rw [objects, List.nodup_append]
  refine ⟨?_, ?_, ?_⟩
  · refine List.Nodup.filterMap ?_ I.blocks.nodup
    intro b b' o hb hb'
    rw [Option.mem_def, Block.objOf_eq_some] at hb hb'
    rw [hb, hb']
  · split
    · refine (List.nodup_map_iff_inj_on (I.slabs.nodup.filter _)).mpr ?_
      rintro ⟨c₁, a₁⟩ h₁ ⟨c₂, a₂⟩ h₂ he
      cases he
      rw [I.cache_unique (List.mem_of_mem_filter h₁) (List.mem_of_mem_filter h₂)]
    · exact List.nodup_nil
  · intro o ho o' ho' he
    subst he
    obtain ⟨b, hb, hbo⟩ := List.mem_filterMap.mp ho
    rw [Block.objOf_eq_some] at hbo
    subst hbo
    split at ho'
    · rename_i hc
      subst hc
      obtain ⟨⟨c', a'⟩, hs, rfl⟩ := List.mem_map.mp ho'
      obtain ⟨hs, hk⟩ := List.mem_filter.mp hs
      exact I.blocks.not_header a' hb c' (by simpa using hk) hs
    · cases ho'

theorem length_objects (I : HeapInv G w.heap w.caches w.blocks) (hc : c ∈ w.caches) :
    (w.heap.stat c).allocated = (w.objects c).length := by
  rw [I.stats.allocated c hc, objects, List.length_append, Block.length_filterMap_objOf]
  congr 1
  split
  · rw [List.length_map, List.countP_eq_length_filter]
  · rfl

/-- The lists of the invariant file the slabs. -/
theorem filed_of_inv (I : HeapInv G w.heap w.caches w.blocks) (hh : G.hand = none)
    (hc : c ∈ w.caches) :
    Filed w c (G.seq (.queue c .full)) (G.seq (.queue c .half)) (G.seq (.queue c .empty)) := by
  have hring : ∀ q, Ring w.heap.nodes (.queue c q) ((G.seq (.queue c q)).map .node) := fun q =>
    I.queues.rings.ring _ hc
  have hnd : ∀ q, (G.seq (.queue c q)).Nodup := fun q =>
    (List.nodup_cons.mp (hring q).nodup).2.of_map _
  have hplaced : ∀ a q, (c, a) ∈ w.heap.slabs →
      (a ∈ G.seq (.queue c q) ↔ q.Holds c.kind.cap (G.live a).card) := by
    intro a q hs
    rw [I.queues.placed c a q hs, hh]
    simp
  have hdisj : ∀ q q', q ≠ q' → List.Disjoint (G.seq (.queue c q)) (G.seq (.queue c q')) := by
    intro q q' hne a ha ha'
    have hs := I.queues.queue_mem c a q hc ha
    exact hne (Queue.holds_inj c.kind.two_le_cap ((hplaced a q hs).mp ha)
      ((hplaced a q' hs).mp ha'))
  have hnodup : (G.seq (.queue c .full) ++ G.seq (.queue c .half) ++
      G.seq (.queue c .empty)).Nodup := by
    refine ((hnd _).append (hnd _) (hdisj _ _ (by simp))).append (hnd _) ?_
    rw [List.disjoint_append_left]
    exact ⟨hdisj _ _ (by simp), hdisj _ _ (by simp)⟩
  have hmem : ∀ a, (c, a) ∈ w.heap.slabs ↔ a ∈ G.seq (.queue c .full) ++
      G.seq (.queue c .half) ++ G.seq (.queue c .empty) := by
    intro a
    rw [List.mem_append, List.mem_append]
    constructor
    · intro hs
      obtain ⟨q, hq⟩ := Queue.exists_holds c.kind.cap (G.live a).card
      have := (hplaced a q hs).mpr hq
      cases q with
      | full => exact Or.inl (Or.inl this)
      | half => exact Or.inl (Or.inr this)
      | empty => exact Or.inr this
    · rintro ((h | h) | h)
      · exact I.queues.queue_mem c a _ hc h
      · exact I.queues.queue_mem c a _ hc h
      · exact I.queues.queue_mem c a _ hc h
  refine ⟨hring _, hring _, hring _, hnodup, hmem, ?_, ?_, ?_, ?_, length_objects I hc,
    objects_nodup I c⟩
  · intro a hs
    rw [hplaced a .full hs, (I.headers.rep c a hs).isFull_iff]
    rfl
  · intro a hs
    rw [hplaced a .half hs, (I.headers.rep c a hs).isFull_iff, exists_object_iff I hs]
    exact and_comm
  · intro a hs
    have hno : (∀ o ∈ w.objects c, w.slabOf o ≠ a) ↔ ¬ ∃ o ∈ w.objects c, w.slabOf o = a := by
      simp
    rw [hplaced a .empty hs, hno, exists_object_iff I hs, not_not]
    rfl
  · rw [I.stats.slabPg c hc, List.countP_eq_length_filter, ← List.length_append,
      ← List.length_append, ← List.length_map (f := Prod.snd)]
    refine List.Perm.length_eq ((List.perm_ext_iff_of_nodup ?_ hnodup).mpr ?_)
    · refine (List.nodup_map_iff_inj_on (I.slabs.nodup.filter _)).mpr ?_
      rintro ⟨c₁, a₁⟩ h₁ ⟨c₂, a₂⟩ h₂ he
      cases he
      rw [I.cache_unique (List.mem_of_mem_filter h₁) (List.mem_of_mem_filter h₂)]
    · intro a
      rw [← hmem]
      simp

/-- Queues and counters over whole runs: for the nine global caches and every
cache made by `CreateNew`, after any sequence of completed calls, each slab
is in exactly one queue, by its number of live objects, and the counters are
the numbers of slabs and of live objects; no assertion fires. -/
theorem filed_of_reachable {m : MemPages} {free : List Nat} (F : MemPages.FreeList m free)
    (nodes : Links NodeRef) (slab : Nat → SlabRec) (w : HeapWorld)
    (hw : Reachable m nodes slab w) :
    (∀ k, .global k ∈ w.caches) ∧
      (∀ c ∈ w.caches, ∃ full half empty, w.Filed c full half empty) ∧
      ∀ op, w.Allowed op → ∀ msg, w.step op ≠ .error (.panic msg) := by
  obtain ⟨G, I, hh⟩ := hw.inv F
  refine ⟨I.blocks.globals, fun c hc => ⟨_, _, _, filed_of_inv I hh hc⟩, ?_⟩
  intro op ha msg he
  rcases step_spec I hh ha with hs | ⟨w', -, hs, -⟩
  · rw [hs] at he
    cases he
  · rw [hs] at he
    cases he

/-- `CreateNew` on a machine with four free pages adds a tenth cache. -/
theorem filed_of_reachable_createNew :
    ∃ w, (machine 4).step (.createNew (.global .chunk16)) = .ok w ∧ w.caches.length = 10 ∧
      ∀ c ∈ w.caches, ∃ full half empty, w.Filed c full half empty := by
  obtain ⟨w, hs, hlen⟩ := exists_of_okAnd
    (x := (machine 4).step (.createNew (.global .chunk16))) (p := fun w => w.caches.length == 10)
    (by decide +kernel)
  have hall : (machine 4).Allowed (.createNew (.global .chunk16)) := by
    simp [Allowed, machine, initial, globalCaches, Kernel.globalKinds]
  exact ⟨w, hs, beq_iff_eq.mp hlen,
    (filed_of_reachable (MemPages.line_freeList (n := 4) (by decide)) ⟨fun x => x, fun x => x⟩
      (fun _ => {}) w (.next .start hall hs)).2.1⟩

end HeapWorld

end Chestnut
