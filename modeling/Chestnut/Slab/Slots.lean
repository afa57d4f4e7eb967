import Chestnut.Slab.Invariant
import Mathlib.Order.Interval.Finset.Nat

/-!
# Filing slabs and moving slots

The steps that do not change the set of slabs: a slab is unlinked from its
queue, one of its slots changes hands, and the slab is filed again under its
new number of live slots.
-/

namespace Chestnut

open Lib

/-- Nodes and their addresses under a change of one list. -/
theorem map_node_update (seq : NodeRef → List Nat) (hd : NodeRef) (l : List Nat) :
    (fun x => (Function.update seq hd l x).map NodeRef.node) =
      Function.update (fun x => (seq x).map NodeRef.node) hd (l.map .node) := by
  funext x
  by_cases hx : x = hd
  · subst hx
    simp
  · simp [hx]

namespace HeapInv

variable {G : Ghost} {h : Heap} {caches : List CacheRef} {blocks : List Block}
variable {c c' : CacheRef} {a a' : Nat} {i j o : Nat} {q : Queue}

/-- Unlinking a slab from its queue. -/
theorem detach (I : HeapInv G h caches blocks) (hh : G.hand = none) (hs : (c, a) ∈ h.slabs) :
    ∃ seq', (∀ hd x, x ∈ seq' hd → x ∈ G.seq hd) ∧
      HeapInv { G with seq := seq', hand := some (c, a) }
        (h.setNodes (h.nodes.delete (.node a))) caches blocks := by
  have hcap := c.kind.two_le_cap
  obtain ⟨q, hq⟩ := Queue.exists_holds c.kind.cap (G.live a).card
  have hmem : a ∈ G.seq (.queue c q) :=
    (I.queues.placed c a q hs).mpr ⟨by simp [hh], hq⟩
  obtain ⟨l, t, hlt⟩ := List.append_of_mem hmem
  have hmap : (G.seq (.queue c q)).map NodeRef.node = l.map .node ++ .node a :: t.map .node := by
    rw [hlt]
    simp
  have hhd : NodeRef.queue c q ∈ listHeads caches h.slabs := I.slabs.cache_mem c a hs
  have hnd : (G.seq (.queue c q)).Nodup :=
    (List.nodup_cons.mp (I.queues.rings.ring _ hhd).nodup).2.of_map _
  rw [hlt] at hnd
  have hout : a ∉ l ++ t :=
    (List.nodup_cons.mp ((List.perm_middle (a := a)).nodup_iff.mp hnd)).1
  have hsub : ∀ x, x ∈ l ++ t ↔ x ∈ G.seq (.queue c q) ∧ x ≠ a := by
    intro x
    rw [hlt]
    by_cases hx : x = a
    · subst hx
      simpa using hout
    · simp [hx]
  refine ⟨Function.update G.seq (.queue c q) (l ++ t), ?_, I.pages, I.slabs, I.headers, ?_,
    I.stats, I.blocks⟩
  · intro hd x hx
    by_cases he : hd = .queue c q
    · subst he
      rw [Function.update_self] at hx
      exact ((hsub x).mp hx).1
    · rwa [Function.update_of_ne he] at hx
  change QueuesOk _ (Function.update G.seq (.queue c q) (l ++ t)) G.live (some (c, a)) h.slabs
    caches
  constructor
  · rw [map_node_update, List.map_append]
    exact I.queues.rings.delete hhd hmap
  · intro c' a' q' hs'
    have hold := I.queues.placed c' a' q' hs'
    by_cases he : NodeRef.queue c' q' = .queue c q
    · cases he
      rw [Function.update_self, hsub, hold, hh]
      simp [and_comm, eq_comm]
    · rw [Function.update_of_ne he, hold, hh]
      simp only [ne_eq, reduceCtorEq, not_false_eq_true, true_and, Option.some.injEq,
        Prod.mk.injEq, not_and]
      refine ⟨fun hq' => ⟨?_, hq'⟩, fun hq' => hq'.2⟩
      rintro rfl rfl
      exact he (by rw [Queue.holds_inj hcap hq' hq])
  · intro c' a' q' hc' hm
    refine I.queues.queue_mem c' a' q' hc' ?_
    by_cases he : NodeRef.queue c' q' = .queue c q
    · cases he
      rw [Function.update_self] at hm
      exact ((hsub a').mp hm).1
    · rwa [Function.update_of_ne he] at hm
  · intro c' m x hm hk
    rw [Function.update_of_ne (by simp)]
    exact I.queues.header_iff c' m x hm hk
  · intro c' a' he
    cases he
    exact hs

/-- Filing the slab in hand. -/
theorem enqueue (I : HeapInv G h caches blocks) (hh : G.hand = some (c, a))
    (hq : q.Holds c.kind.cap (G.live a).card) :
    HeapInv { G with
        seq := Function.update G.seq (.queue c q) (a :: G.seq (.queue c q)), hand := none }
      (MemCache.enqueue c q a h) caches blocks := by
  have hcap := c.kind.two_le_cap
  have hs := I.queues.hand_mem c a hh
  have hhd : NodeRef.queue c q ∈ listHeads caches h.slabs := I.slabs.cache_mem c a hs
  refine ⟨I.pages, I.slabs, I.headers, ?_, I.stats, I.blocks⟩
  change QueuesOk _ (Function.update G.seq (.queue c q) (a :: G.seq (.queue c q))) G.live none
    h.slabs caches
  constructor
  · rw [map_node_update, List.map_cons]
    exact I.queues.rings.push hhd (I.hand_loose hh)
  · intro c' a' q' hs'
    have hold := I.queues.placed c' a' q' hs'
    rw [hh] at hold
    simp only [ne_eq, reduceCtorEq, not_false_eq_true, true_and]
    by_cases ha : a' = a
    · subst ha
      obtain rfl := I.cache_unique hs hs'
      have hnot : a' ∉ G.seq (.queue c q') := fun hm => (hold.mp hm).1 rfl
      by_cases he : q' = q
      · subst he
        simpa using hq
      · rw [Function.update_of_ne (by simpa using he)]
        exact ⟨fun hm => absurd hm hnot, fun hq' => absurd (Queue.holds_inj hcap hq' hq) he⟩
    · have hne : ¬ (some (c, a) = some (c', a')) := by
        intro he
        cases he
        exact ha rfl
      simp only [ne_eq, hne, not_false_eq_true, true_and] at hold
      by_cases he : NodeRef.queue c' q' = .queue c q
      · cases he
        rw [Function.update_self, List.mem_cons]
        simp [ha, hold]
      · rw [Function.update_of_ne he, hold]
  · intro c' a' q' hc' hm
    by_cases he : NodeRef.queue c' q' = .queue c q
    · cases he
      rw [Function.update_self] at hm
      rcases List.mem_cons.mp hm with rfl | hm
      · exact hs
      · exact I.queues.queue_mem c a' q hc' hm
    · rw [Function.update_of_ne he] at hm
      exact I.queues.queue_mem c' a' q' hc' hm
  · intro c' m x hm hk
    rw [Function.update_of_ne (by simp)]
    exact I.queues.header_iff c' m x hm hk
  · intro c' a' he
    cases he

/-- A slot that is not live is not held. -/
theorem not_liveAt (I : HeapInv G h caches blocks) (hs : (c, a) ∈ h.slabs)
    (hle : (i + 1) * c.kind.objSize ≤ pageSize) (hi : i ∉ G.live a) :
    ¬ LiveAt G.page G.live h.slabs c (slotAddr G.page c a i) := by
  rintro ⟨a', j, hs', hj, he⟩
  obtain ⟨-, rfl, rfl⟩ := I.slotAddr_inj hs hle hs' (I.slot_le hs' hj) he
  exact hi hj

/-- A caller receives a slot. -/
theorem blocks_take (I : HeapInv G h caches blocks) (hs : (c, a) ∈ h.slabs)
    (hle : (i + 1) * c.kind.objSize ≤ pageSize) (hi : i ∉ G.live a) :
    BlocksOk G.use G.page (Function.update G.live a (insert i (G.live a))) h.slabs
      (.obj c (slotAddr G.page c a i) :: blocks) caches := by
  have hfresh := I.not_liveAt hs hle hi
  have hnew : ¬ HeldAt h.slabs blocks c (slotAddr G.page c a i) := fun hh =>
    hfresh ((I.blocks.held_iff _ _).mp hh)
  constructor
  · exact List.nodup_cons.mpr ⟨fun hm => hnew (Or.inl hm), I.blocks.nodup⟩
  · intro c' o'
    have hheld : HeldAt h.slabs (.obj c (slotAddr G.page c a i) :: blocks) c' o' ↔
        (c' = c ∧ o' = slotAddr G.page c a i) ∨ HeldAt h.slabs blocks c' o' := by
      simp [HeldAt, or_assoc]
    rw [hheld, I.blocks.held_iff]
    constructor
    · rintro (⟨rfl, rfl⟩ | ⟨a', j, hs', hj, he⟩)
      · exact ⟨a, i, hs, by simp, rfl⟩
      · refine ⟨a', j, hs', ?_, he⟩
        by_cases ha : a' = a
        · subst ha
          simp [hj]
        · rwa [Function.update_of_ne ha]
    · rintro ⟨a', j, hs', hj, he⟩
      by_cases ha : a' = a
      · subst ha
        obtain rfl := I.cache_unique hs hs'
        rw [Function.update_self, Finset.mem_insert] at hj
        rcases hj with rfl | hj
        · exact Or.inl ⟨rfl, he⟩
        · exact Or.inr ⟨a', j, hs', hj, he⟩
      · rw [Function.update_of_ne ha] at hj
        exact Or.inr ⟨a', j, hs', hj, he⟩
  · intro o' hm c' hk hs'
    rcases List.mem_cons.mp hm with he | hm
    · cases he
      exact hnew (Or.inr ⟨rfl, c', hk, hs'⟩)
    · exact I.blocks.not_header o' hm c' hk hs'
  · intro s n hm
    exact I.blocks.big_use s n (by simpa using hm)
  · intro p s n hp
    obtain ⟨h₁, h₂⟩ := I.blocks.of_big p s n hp
    exact ⟨List.mem_cons_of_mem _ h₁, h₂⟩
  · exact I.blocks.globals
  · intro c' hc' o' ho'
    exact List.mem_cons_of_mem _ (I.blocks.site c' hc' o' ho')

/-- A caller returns an object. -/
theorem blocks_give (I : HeapInv G h caches blocks) (hs : (c, a) ∈ h.slabs)
    (hi : i ∈ G.live a) (hb : .obj c (slotAddr G.page c a i) ∈ blocks)
    (hsite : ∀ c' ∈ caches, c'.site = some (slotAddr G.page c a i) → c ≠ .global .chunk128) :
    BlocksOk G.use G.page (Function.update G.live a ((G.live a).erase i)) h.slabs
      (blocks.erase (.obj c (slotAddr G.page c a i))) caches := by
  have hmem : ∀ b, b ∈ blocks.erase (.obj c (slotAddr G.page c a i)) ↔
      b ≠ .obj c (slotAddr G.page c a i) ∧ b ∈ blocks :=
    fun b => I.blocks.nodup.mem_erase_iff
  constructor
  · exact I.blocks.nodup.erase _
  · intro c' o'
    have hheld : HeldAt h.slabs (blocks.erase (.obj c (slotAddr G.page c a i))) c' o' ↔
        ¬ (c' = c ∧ o' = slotAddr G.page c a i) ∧ HeldAt h.slabs blocks c' o' := by
      constructor
      · rintro (hm | ⟨rfl, c₁, hk, hs₁⟩)
        · obtain ⟨hne, hm⟩ := (hmem _).mp hm
          exact ⟨fun he => hne (by rw [he.1, he.2]), Or.inl hm⟩
        · refine ⟨?_, Or.inr ⟨rfl, c₁, hk, hs₁⟩⟩
          rintro ⟨rfl, rfl⟩
          exact I.blocks.not_header _ hb c₁ hk hs₁
      · rintro ⟨hne, hm | hm⟩
        · refine Or.inl ((hmem _).mpr ⟨fun he => hne ?_, hm⟩)
          cases he
          exact ⟨rfl, rfl⟩
        · exact Or.inr hm
    rw [hheld, I.blocks.held_iff]
    constructor
    · rintro ⟨hne, a', j, hs', hj, rfl⟩
      refine ⟨a', j, hs', ?_, rfl⟩
      by_cases ha : a' = a
      · subst ha
        obtain rfl := I.cache_unique hs hs'
        rw [Function.update_self, Finset.mem_erase]
        refine ⟨?_, hj⟩
        rintro rfl
        exact hne ⟨rfl, rfl⟩
      · rwa [Function.update_of_ne ha]
    · rintro ⟨a', j, hs', hj, rfl⟩
      by_cases ha : a' = a
      · subst ha
        obtain rfl := I.cache_unique hs hs'
        rw [Function.update_self, Finset.mem_erase] at hj
        refine ⟨?_, a', j, hs', hj.2, rfl⟩
        rintro ⟨-, he⟩
        exact hj.1 (I.slotAddr_inj hs (I.slot_le hs hj.2) hs (I.slot_le hs hi) he).2.2
      · rw [Function.update_of_ne ha] at hj
        refine ⟨?_, a', j, hs', hj, rfl⟩
        rintro ⟨-, he⟩
        exact ha (I.slotAddr_inj hs' (I.slot_le hs' hj) hs (I.slot_le hs hi) he).2.1
  · intro o' hm c' hk
    exact I.blocks.not_header o' ((hmem _).mp hm).2 c' hk
  · intro s n hm
    exact I.blocks.big_use s n ((hmem _).mp hm).2
  · intro p s n hp
    obtain ⟨h₁, h₂⟩ := I.blocks.of_big p s n hp
    exact ⟨(hmem _).mpr ⟨by simp, h₁⟩, h₂⟩
  · exact I.blocks.globals
  · intro c' hc' o' ho'
    refine (hmem _).mpr ⟨?_, I.blocks.site c' hc' o' ho'⟩
    intro he
    cases he
    exact hsite c' hc' ho' rfl

/-- The slab counters when another counter of one cache changes. -/
theorem slabPg_update (I : HeapInv G h caches blocks) {r : Stat}
    (hr : r.slabPg = (h.stat c).slabPg) :
    ∀ c' ∈ caches, (Function.update h.stat c r c').slabPg = h.slabs.countP (·.1 = c') := by
  intro c' hc'
  by_cases he : c' = c
  · subst he
    rw [Function.update_self, hr]
    exact I.stats.slabPg c' hc'
  · rw [Function.update_of_ne he]
    exact I.stats.slabPg c' hc'

theorem stats_take (I : HeapInv G h caches blocks) (o : Nat) :
    StatsOk (Function.update h.stat c
      { h.stat c with allocated := (h.stat c).allocated + 1 }) h.slabs (.obj c o :: blocks)
      caches := by
  refine ⟨I.slabPg_update rfl, fun c' hc' => ?_⟩
  have hold := I.stats.allocated c' hc'
  by_cases he : c' = c
  · subst he
    rw [Function.update_self, List.countP_cons_of_pos (by simp [Block.isObj])]
    simp only
    omega
  · rw [Function.update_of_ne he,
      List.countP_cons_of_neg (by simpa [Block.isObj] using Ne.symm he)]
    exact hold

theorem stats_give (I : HeapInv G h caches blocks) (hb : .obj c o ∈ blocks) :
    StatsOk (Function.update h.stat c
      { h.stat c with allocated := (h.stat c).allocated - 1 }) h.slabs
      (blocks.erase (.obj c o)) caches := by
  refine ⟨I.slabPg_update rfl, fun c' hc' => ?_⟩
  have hold := I.stats.allocated c' hc'
  rw [List.countP_erase]
  by_cases he : c' = c
  · subst he
    have hpos : 0 < blocks.countP (·.isObj c') :=
      List.countP_pos_iff.mpr ⟨_, hb, by simp [Block.isObj]⟩
    rw [Function.update_self, if_pos ⟨hb, by simp [Block.isObj]⟩]
    simp only
    omega
  · rw [Function.update_of_ne he, if_neg (by simp [Block.isObj, Ne.symm he])]
    exact hold

/-- The headers after a change of one slab. -/
theorem headers_update (I : HeapInv G h caches blocks) (hs : (c, a) ∈ h.slabs) {r : SlabRec}
    {live : Finset Nat} (hd : r.dataPage = (h.slab a).dataPage) (hr : c.kind.Rep r live) :
    HeadersOk (Function.update h.slab a r) G.page (Function.update G.live a live) h.slabs := by
  constructor
  · intro c' a' hs' hk
    by_cases ha : a' = a
    · subst ha
      rw [Function.update_self, hd]
      exact I.headers.data_page c' a' hs' hk
    · rw [Function.update_of_ne ha]
      exact I.headers.data_page c' a' hs' hk
  · intro c' a' hs'
    by_cases ha : a' = a
    · subst ha
      obtain rfl := I.cache_unique hs hs'
      simpa using hr
    · rw [Function.update_of_ne ha, Function.update_of_ne ha]
      exact I.headers.rep c' a' hs'

/-- The lists after the slab in hand changed its slots, and its list of free
headers with them. -/
theorem queues_update (I : HeapInv G h caches blocks) (hh : G.hand = some (c, a))
    {nodes : Links NodeRef} {seq : NodeRef → List Nat} {live : Finset Nat}
    (hrings : Rings nodes (listHeads caches h.slabs) fun hd => (seq hd).map .node)
    (hq : ∀ c q, seq (.queue c q) = G.seq (.queue c q))
    (hf : ∀ m, m ≠ a → seq (.freeSlab m) = G.seq (.freeSlab m))
    (ha : c.kind = .metaSlab → ∀ x, x ∈ seq (.freeSlab a) ↔
      ∃ i, 1 ≤ i ∧ i < 64 ∧ i ∉ live ∧ x = a + 64 * i) :
    QueuesOk nodes seq (Function.update G.live a live) G.hand h.slabs caches := by
  have hs := I.queues.hand_mem c a hh
  constructor
  · exact hrings
  · intro c' a' q' hs'
    rw [hq, I.queues.placed c' a' q' hs']
    by_cases he : a' = a
    · subst he
      obtain rfl := I.cache_unique hs hs'
      simp [hh]
    · rw [Function.update_of_ne he]
  · intro c' a' q' hc' hm
    rw [hq] at hm
    exact I.queues.queue_mem c' a' q' hc' hm
  · intro c' m x hm hk
    by_cases he : m = a
    · subst he
      obtain rfl := I.cache_unique hs hm
      rw [Function.update_self]
      exact ha hk x
    · rw [hf m he, Function.update_of_ne he]
      exact I.queues.header_iff c' m x hm hk
  · exact I.queues.hand_mem

/-- The memory of a slab is its page. -/
theorem mem_eq (I : HeapInv G h caches blocks) (hs : (c, a) ∈ h.slabs) {h₁ : Heap}
    (hp : h₁.pages = h.pages) (hd : (h₁.slab a).dataPage = (h.slab a).dataPage) :
    c.kind.slabClass.mem h₁ a = .ok (pageSize * G.page a) := by
  by_cases hk : c.kind = .metaSlab
  · rw [hk, ← I.slabs.meta_addr c a hs hk]
    rfl
  · obtain ⟨hlt, hphy⟩ := I.pages.managed (G.page a) (by simp [I.use_page hs])
    rw [(CacheKind.Rep.base_eq hk).2.2, BaseSlab.mem, hd, I.headers.data_page c a hs hk,
      Heap.physicalAddress, hp, MemPages.deref_pg hlt, ok_bind, hphy]
    rfl

/-- Some header of a meta slab that is not full is free. -/
theorem exists_free_header (I : HeapInv G h caches blocks) (hs : (c, a) ∈ h.slabs)
    (hk : c.kind = .metaSlab) (hlt : (G.live a).card < 63) :
    ∃ x t, G.seq (.freeSlab a) = x :: t := by
  cases hseq : G.seq (.freeSlab a) with
  | cons x t => exact ⟨x, t, rfl⟩
  | nil =>
      have hsub : Finset.Ico 1 64 ⊆ G.live a := by
        intro i hi
        obtain ⟨h₁, h₂⟩ := Finset.mem_Ico.mp hi
        by_contra hni
        have hm := (I.queues.header_iff c a _ hs hk).mpr ⟨i, h₁, h₂, hni, rfl⟩
        simp [hseq] at hm
      have hcard := Finset.card_le_card hsub
      simp at hcard
      omega

/-- `MetaSlab::Alloc` on a slab that is not full unlinks a free header. -/
theorem meta_alloc (I : HeapInv G h caches blocks) (hh : G.hand = some (c, a))
    (hk : c.kind = .metaSlab) (hlt : (G.live a).card < 63) :
    ∃ idx r t, MetaSlab.alloc a h =
        .ok (idx, (h.setNodes (h.nodes.delete (.node (a + 64 * idx)))).setSlab a r) ∧
      r.dataPage = (h.slab a).dataPage ∧ idx ∉ G.live a ∧
      CacheKind.metaSlab.Rep r (insert idx (G.live a)) ∧
      QueuesOk (h.nodes.delete (.node (a + 64 * idx)))
        (Function.update G.seq (.freeSlab a) t)
        (Function.update G.live a (insert idx (G.live a))) G.hand h.slabs caches := by
  have hs := I.queues.hand_mem c a hh
  obtain ⟨hsum, hbound⟩ : CacheKind.metaSlab.Rep (h.slab a) (G.live a) :=
    hk ▸ I.headers.rep c a hs
  obtain ⟨x, t, hseq⟩ := I.exists_free_header hs hk hlt
  obtain ⟨i, hi1, hi64, hil, rfl⟩ := (I.queues.header_iff c a x hs hk).mp (by simp [hseq])
  have hhd : NodeRef.freeSlab a ∈ listHeads caches h.slabs := ⟨c, hs, hk⟩
  have hring := I.queues.rings.ring _ hhd
  have hnext : h.nodes.next (.freeSlab a) = .node (a + 64 * i) := by
    simpa [hseq] using hring.next_head
  have hnd : (G.seq (.freeSlab a)).Nodup := (List.nodup_cons.mp hring.nodup).2.of_map _
  rw [hseq] at hnd
  have hoff : Int.tdiv (((a + 64 * i : Nat) : Int) - a) 64 = i := by
    have : (((a + 64 * i : Nat) : Int) - a) = i * 64 := by push_cast; omega
    rw [this, Int.mul_tdiv_cancel _ (by decide)]
  have hnr : ((h.slab a).nrFreeSlab + 255) % 256 = (h.slab a).nrFreeSlab - 1 := by omega
  refine ⟨i, { h.slab a with nrFreeSlab := (h.slab a).nrFreeSlab - 1 }, t, ?_, rfl, hil, ?_, ?_⟩
  · have hpos : decide (0 < (h.slab a).nrFreeSlab) = true := decide_eq_true (by omega)
    have hidx : (decide (0 < (i : Int)) && decide ((i : Int) < 64)) = true := by
      simp only [Bool.and_eq_true, decide_eq_true_eq]
      omega
    simp only [MetaSlab.alloc, hnext, Heap.setNodes, hpos, kassert_true, ok_bind,
      MetaSlab.nodeOffset, hoff, hidx, hnr]
    rfl
  · refine ⟨?_, ?_⟩
    · rw [Finset.card_insert_of_notMem hil]
      simp only
      omega
    · intro s hs'
      rcases Finset.mem_insert.mp hs' with rfl | hs'
      · exact ⟨hi1, hi64⟩
      · exact hbound s hs'
  · apply I.queues_update hh
    · rw [map_node_update]
      exact I.queues.rings.delete hhd (l := []) (by simp [hseq])
    · intro c' q
      rw [Function.update_of_ne (by simp)]
    · intro m hm
      rw [Function.update_of_ne (by simpa using hm)]
    · intro _ x
      rw [Function.update_self]
      have hold := I.queues.header_iff c a x hs hk
      rw [hseq, List.mem_cons] at hold
      constructor
      · intro hx
        obtain ⟨j, hj1, hj64, hjl, rfl⟩ := hold.mp (Or.inr hx)
        refine ⟨j, hj1, hj64, ?_, rfl⟩
        rw [Finset.mem_insert, not_or]
        refine ⟨?_, hjl⟩
        rintro rfl
        exact (List.nodup_cons.mp hnd).1 hx
      · rintro ⟨j, hj1, hj64, hjl, rfl⟩
        rw [Finset.mem_insert, not_or] at hjl
        rcases hold.mpr ⟨j, hj1, hj64, hjl.2, rfl⟩ with he | hx
        · exact absurd (by omega) hjl.1
        · exact hx

/-- A slot of the slab in hand goes to a caller. -/
theorem takeSlot (I : HeapInv G h caches blocks) (hh : G.hand = some (c, a))
    (hlt : (G.live a).card < c.kind.cap) :
    ∃ idx h₁ seq', c.kind.slabClass.alloc a h = .ok (idx, h₁) ∧
      c.kind.slabClass.mem h₁ a = .ok (pageSize * G.page a) ∧ h₁.stat = h.stat ∧
      idx ∉ G.live a ∧ (∀ c q, seq' (.queue c q) = G.seq (.queue c q)) ∧
      HeapInv { G with live := Function.update G.live a (insert idx (G.live a)), seq := seq' }
        (h₁.setStat c { h₁.stat c with allocated := (h₁.stat c).allocated + 1 }) caches
        (.obj c (slotAddr G.page c a idx) :: blocks) := by
  have hs := I.queues.hand_mem c a hh
  by_cases hk : c.kind = .metaSlab
  · obtain ⟨idx, r, t, hal, hd, hidx, hrep, hqueues⟩ :=
      I.meta_alloc hh hk (by simpa [hk, CacheKind.cap] using hlt)
    have hrep' : c.kind.Rep r (insert idx (G.live a)) := hk ▸ hrep
    have hcls : c.kind.slabClass.alloc = MetaSlab.alloc := by rw [hk]; rfl
    rw [← hcls] at hal
    refine ⟨idx, _, Function.update G.seq (.freeSlab a) t, hal, ?_, rfl, hidx, ?_, I.pages, I.slabs,
      I.headers_update hs hd hrep', hqueues, I.stats_take _,
      I.blocks_take hs (hrep'.slot_le (by simp)) hidx⟩
    · refine I.mem_eq hs rfl ?_
      simpa [Heap.setSlab] using hd
    · exact fun c' q => Function.update_of_ne (by simp) _ _
  · obtain ⟨idx, r, hal, hd, hidx, hrep⟩ := (I.headers.rep c a hs).alloc hk hlt
    refine ⟨idx, _, G.seq, hal, ?_, rfl, hidx, fun _ _ => rfl, I.pages, I.slabs,
      I.headers_update hs hd hrep, ?_, I.stats_take _,
      I.blocks_take hs (hrep.slot_le (by simp)) hidx⟩
    · refine I.mem_eq hs rfl ?_
      simpa [Heap.setSlab] using hd
    · exact I.queues_update hh I.queues.rings (fun _ _ => rfl) (fun _ _ => rfl)
        fun hm => absurd hm hk

/-- The node of a held object of a meta slab is in no list. -/
theorem block_loose (I : HeapInv G h caches blocks) (hs : (c, a) ∈ h.slabs)
    (hk : c.kind = .metaSlab) (hi : i ∈ G.live a) (hb : .obj c (a + 64 * i) ∈ blocks) :
    Loose (listHeads caches h.slabs) (fun hd => (G.seq hd).map .node)
      (.node (a + 64 * i)) := by
  have hbound : 1 ≤ i ∧ i < 64 := by
    have hrep := I.headers.rep c a hs
    rw [hk] at hrep
    exact hrep.2 i hi
  apply loose
  · intro c' q hc' hm
    have hs' := I.queues.queue_mem c' _ q hc' hm
    obtain ⟨c₁, m₁, i₁, hm₁, hk₁, ha₁, hi₁, hcase⟩ := I.header_slot hs'
    obtain ⟨rfl, rfl, rfl⟩ := I.header_inj hs hk hm₁ hk₁ hbound.2 hi₁ ha₁
    rcases hcase with ⟨-, h0⟩ | ⟨-, -, rfl, hk'⟩
    · omega
    · exact I.blocks.not_header _ hb c' hk' hs'
  · intro c' m hm hk' hmem
    obtain ⟨j, hj1, hj64, hjl, he⟩ := (I.queues.header_iff c' m _ hm hk').mp hmem
    obtain ⟨-, rfl, rfl⟩ := I.header_inj hs hk hm hk' hbound.2 hj64 he
    exact hjl hi

/-- `MetaSlab::Free` of a held object links its header in again. -/
theorem meta_free (I : HeapInv G h caches blocks) (hh : G.hand = some (c, a))
    (hk : c.kind = .metaSlab) (hi : i ∈ G.live a) (hb : .obj c (a + 64 * i) ∈ blocks) :
    ∃ r, MetaSlab.free a i h =
        .ok ((h.setNodes (h.nodes.insertAfter (.node (a + 64 * i)) (.freeSlab a))).setSlab a r) ∧
      r.dataPage = (h.slab a).dataPage ∧
      CacheKind.metaSlab.Rep r ((G.live a).erase i) ∧
      QueuesOk (h.nodes.insertAfter (.node (a + 64 * i)) (.freeSlab a))
        (Function.update G.seq (.freeSlab a) ((a + 64 * i) :: G.seq (.freeSlab a)))
        (Function.update G.live a ((G.live a).erase i)) G.hand h.slabs caches := by
  have hs := I.queues.hand_mem c a hh
  obtain ⟨hsum, hbound⟩ : CacheKind.metaSlab.Rep (h.slab a) (G.live a) :=
    hk ▸ I.headers.rep c a hs
  obtain ⟨hi1, hi64⟩ := hbound i hi
  have hcard : 0 < (G.live a).card := Finset.card_pos.mpr ⟨i, hi⟩
  have hhd : NodeRef.freeSlab a ∈ listHeads caches h.slabs := ⟨c, hs, hk⟩
  have hnr : ((h.slab a).nrFreeSlab + 1) % 256 = (h.slab a).nrFreeSlab + 1 := by omega
  refine ⟨{ h.slab a with nrFreeSlab := (h.slab a).nrFreeSlab + 1 }, ?_, rfl, ?_, ?_⟩
  · have hidx : (decide (0 < i) && decide (i < 64)) = true := by
      simp only [Bool.and_eq_true, decide_eq_true_eq]
      omega
    simp only [MetaSlab.free, hidx, kassert_true, ok_bind, Heap.setNodes, hnr, Nat.mul_comm i]
    rfl
  · refine ⟨?_, ?_⟩
    · rw [Finset.card_erase_of_mem hi]
      simp only
      omega
    · intro s hs'
      exact hbound s (Finset.mem_of_mem_erase hs')
  · apply I.queues_update hh
    · rw [map_node_update, List.map_cons]
      exact I.queues.rings.push hhd (I.block_loose hs hk hi hb)
    · intro c' q
      rw [Function.update_of_ne (by simp)]
    · intro m hm
      rw [Function.update_of_ne (by simpa using hm)]
    · intro _ x
      rw [Function.update_self, List.mem_cons, I.queues.header_iff c a x hs hk]
      constructor
      · rintro (rfl | ⟨j, hj1, hj64, hjl, rfl⟩)
        · exact ⟨i, hi1, hi64, by simp, rfl⟩
        · exact ⟨j, hj1, hj64, fun hm => hjl (Finset.mem_of_mem_erase hm), rfl⟩
      · rintro ⟨j, hj1, hj64, hjl, rfl⟩
        by_cases he : j = i
        · exact Or.inl (by rw [he])
        · exact Or.inr ⟨j, hj1, hj64, fun hm => hjl (Finset.mem_erase.mpr ⟨he, hm⟩), rfl⟩

/-- A held object returns to the slab in hand. -/
theorem giveSlot (I : HeapInv G h caches blocks) (hh : G.hand = some (c, a))
    (hi : i ∈ G.live a) (hb : .obj c (slotAddr G.page c a i) ∈ blocks)
    (hsite : ∀ c' ∈ caches, c'.site = some (slotAddr G.page c a i) → c ≠ .global .chunk128) :
    ∃ h₁ seq', c.kind.slabClass.free a i h = .ok h₁ ∧ h₁.stat = h.stat ∧
      (∀ c q, seq' (.queue c q) = G.seq (.queue c q)) ∧
      HeapInv { G with live := Function.update G.live a ((G.live a).erase i), seq := seq' }
        (h₁.setStat c { h₁.stat c with allocated := (h₁.stat c).allocated - 1 }) caches
        (blocks.erase (.obj c (slotAddr G.page c a i))) := by
  have hs := I.queues.hand_mem c a hh
  by_cases hk : c.kind = .metaSlab
  · have haddr : slotAddr G.page c a i = a + 64 * i := by
      rw [slotAddr, ← I.slabs.meta_addr c a hs hk, hk, Nat.mul_comm i]
      rfl
    obtain ⟨r, hfr, hd, hrep, hqueues⟩ := I.meta_free hh hk hi (haddr ▸ hb)
    have hrep' : c.kind.Rep r ((G.live a).erase i) := hk ▸ hrep
    have hcls : c.kind.slabClass.free = MetaSlab.free := by rw [hk]; rfl
    rw [← hcls] at hfr
    exact ⟨_, _, hfr, rfl, fun c' q => Function.update_of_ne (by simp) _ _, I.pages, I.slabs,
      I.headers_update hs hd hrep', hqueues, I.stats_give hb, I.blocks_give hs hi hb hsite⟩
  · obtain ⟨r, hfr, hd, hrep⟩ := (I.headers.rep c a hs).free hk hi
    exact ⟨_, G.seq, hfr, rfl, fun _ _ => rfl, I.pages, I.slabs, I.headers_update hs hd hrep,
      I.queues_update hh I.queues.rings (fun _ _ => rfl) (fun _ _ => rfl)
        (fun hm => absurd hm hk), I.stats_give hb, I.blocks_give hs hi hb hsite⟩

end HeapInv

end Chestnut
