import Chestnut.Slab.Ops
import Mathlib.Tactic.IntervalCases

/-!
# `kernel::Alloc`, `kernel::Free`, `InitSlab` and `CreateNew`

Requests of up to 2048 bytes go to the global cache with the smallest object
size that fits, larger ones to the page allocator. `Free` finds its way back
by the object size that the page record carries.
-/

namespace Chestnut

open Lib

namespace Kernel

/-- The cache that serves a request of at most 2048 bytes. -/
def chunkOf (s : Nat) : CacheKind := globalKinds.getD (Nat.clog 2 s - 4) .chunk16

theorem objSize_getD {j : Nat} (hj : j < 8) :
    (globalKinds.getD j .chunk16).objSize = 2 ^ (j + 4) := by
  interval_cases j <;> rfl

theorem exists_getD {k : CacheKind} (hk : k ≠ .metaSlab) :
    ∃ j < 8, k = globalKinds.getD j .chunk16 := by
  cases k with
  | metaSlab => exact absurd rfl hk
  | chunk16 => exact ⟨0, by omega, rfl⟩
  | chunk32 => exact ⟨1, by omega, rfl⟩
  | chunk64 => exact ⟨2, by omega, rfl⟩
  | chunk128 => exact ⟨3, by omega, rfl⟩
  | chunk256 => exact ⟨4, by omega, rfl⟩
  | chunk512 => exact ⟨5, by omega, rfl⟩
  | chunk1024 => exact ⟨6, by omega, rfl⟩
  | chunk2048 => exact ⟨7, by omega, rfl⟩

theorem clog_le {s : Nat} (hs : s ≤ 2048) : Nat.clog 2 s ≤ 11 :=
  (Nat.clog_le_iff_le_pow (by decide)).mpr (by simpa using hs)

theorem chunkOf_ne (s : Nat) : chunkOf s ≠ .metaSlab := by
  have hall : ∀ k ∈ globalKinds, k ≠ .metaSlab := by decide
  rw [chunkOf, List.getD_eq_getElem?_getD]
  cases hget : globalKinds[Nat.clog 2 s - 4]? with
  | none => simp
  | some k => exact hall k (List.mem_of_getElem? hget)

theorem le_objSize_chunkOf {s : Nat} (hs : s ≤ 2048) : s ≤ (chunkOf s).objSize := by
  have hlog := clog_le hs
  rw [chunkOf, objSize_getD (by omega)]
  exact (Nat.le_pow_clog (by decide) s).trans (Nat.pow_le_pow_right (by decide) (by omega))

/-- No smaller object size fits. -/
theorem objSize_chunkOf_le {s : Nat} {k : CacheKind} (hk : k ≠ .metaSlab)
    (hs : s ≤ k.objSize) : (chunkOf s).objSize ≤ k.objSize := by
  have hlog := clog_le (hs.trans k.objSize_le)
  obtain ⟨j, hj, rfl⟩ := exists_getD hk
  rw [objSize_getD hj, ← Nat.clog_le_iff_le_pow (by decide)] at hs
  rw [chunkOf, objSize_getD (by omega), objSize_getD hj]
  exact Nat.pow_le_pow_right (by decide) (by omega)

theorem chunkOf_objSize {k : CacheKind} (hk : k ≠ .metaSlab) : chunkOf k.objSize = k := by
  obtain ⟨j, hj, rfl⟩ := exists_getD hk
  rw [chunkOf, objSize_getD hj, Nat.clog_pow 2 _ (by decide), Nat.add_sub_cancel]

/-- `FitGlobalMemCache` on the sizes it is asked for. -/
theorem fitGlobalMemCache_eq {s : Nat} (h1 : 1 ≤ s) (hs : s ≤ 2048) :
    fitGlobalMemCache s = .ok (.global (chunkOf s)) := by
  obtain ⟨x, rfl⟩ : ∃ x, s = x + 1 := ⟨s - 1, by omega⟩
  have hx : (((x + 1 : Nat) : Int) - 1) % 2 ^ 32 = (x : Int) := by omega
  rw [fitGlobalMemCache, hx, Int.toNat_natCast]
  by_cases h0 : x = 0
  · subst h0
    rw [chunkOf, Nat.clog_one_right]
    rfl
  have hlog : Nat.clog 2 (x + 1) = Nat.log 2 x + 1 := by
    refine eq_of_forall_ge_iff fun n => ?_
    rw [Nat.clog_le_iff_le_pow (by decide), Nat.succ_le_iff, Nat.succ_le_iff,
      Nat.log_lt_iff_lt_pow (by decide) h0]
  have hle := clog_le hs
  obtain ⟨k, hk⟩ : ∃ k, k = Nat.log 2 x := ⟨_, rfl⟩
  rw [chunkOf, hlog, clz, if_neg h0]
  rw [hlog] at hle
  rw [← hk] at hle ⊢
  have hk10 : k ≤ 10 := by omega
  clear hk hle
  interval_cases k <;> rfl

/-- The number of pages of a large request. -/
def nrPages (s : Nat) : Nat := (s - 1) / pageSize + 1

theorem nrPages_eq {s : Nat} (h1 : 1 ≤ s) :
    ((s : Int) - 1).tdiv pageSize + 1 = (nrPages s : Int) := by
  obtain ⟨x, rfl⟩ : ∃ x, s = x + 1 := ⟨s - 1, by omega⟩
  have hx : ((x + 1 : Nat) : Int) - 1 = (x : Int) := by omega
  rw [hx, nrPages, Nat.add_sub_cancel, ← Int.ofNat_tdiv]
  rfl

/-- Large requests end in the page allocator. -/
theorem alloc_large {s : Nat} (hs : 2048 < s) (h : Heap) :
    alloc s h = (do
      let (p, m) ← h.pages.allocPages (nrPages s)
      let h := h.setPages m
      h.pages.deref p
      let r := { h.pages.page p with slabObjSize := int32 (nrPages s * pageSize) }
      let h := h.setPages (h.pages.setPage p r)
      let addr ← h.physicalAddress p
      return (addr, h)) := by
  rw [alloc, if_pos (by omega)]
  simp only [nrPages_eq (show 1 ≤ s by omega)]

/-- Small requests end in a global cache. -/
theorem alloc_small {s : Nat} (h1 : 1 ≤ s) (hs : s ≤ 2048) (h : Heap) :
    alloc s h = (CacheRef.global (chunkOf s)).allocate h := by
  rw [alloc, if_neg (by omega), fitGlobalMemCache_eq h1 hs]
  rfl

theorem int32_of_lt {n : Nat} (hn : n < 2 ^ 31) : int32 n = n := by
  rw [int32, Int.bmod_eq_of_le] <;> omega

end Kernel

/-- Pages outside the slabs may change their use. -/
theorem SlabsOk.reassign {use : Nat → PageUse} {page : Nat → Nat}
    {slabs : List (CacheRef × Nat)} {caches : List CacheRef} {s : List Nat} {u : PageUse}
    (S : SlabsOk use page slabs caches) (hs : ∀ p ∈ s, ∀ c a, use p ≠ .slab c a)
    (hu : ∀ c a, u ≠ .slab c a) : SlabsOk (assign use s u) page slabs caches := by
  refine ⟨S.nodup, ?_, S.cache_mem, S.meta_addr⟩
  intro p c a
  rw [← S.use_iff]
  by_cases hm : p ∈ s
  · rw [assign_of_mem hm]
    exact ⟨fun he => absurd he (hu c a), fun he => absurd he (hs p hm c a)⟩
  · rw [assign_of_not_mem hm]

namespace HeapInv

variable {G : Ghost} {h : Heap} {caches : List CacheRef} {blocks : List Block}
variable {c : CacheRef} {o s n : Nat}

/-- Free pages become a block. -/
theorem blocks_addPages (B : BlocksOk G.use G.page G.live h.slabs blocks caches) (hn : 1 ≤ n)
    (hfree : ∀ p ∈ List.range' s n, G.use p = .free) :
    BlocksOk (assign G.use (List.range' s n) (.big s n)) G.page G.live h.slabs
      (.pages s n :: blocks) caches := by
  constructor
  · refine List.nodup_cons.mpr ⟨fun hm => ?_, B.nodup⟩
    have hbig := (B.big_use s n hm).2 s le_rfl (by omega)
    rw [hfree s (List.mem_range'_1.mpr ⟨le_rfl, by omega⟩)] at hbig
    cases hbig
  · intro c o
    rw [← B.held_iff]
    simp [HeldAt]
  · intro o hm
    exact B.not_header o (by simpa using hm)
  · intro t k hm
    rcases List.mem_cons.mp hm with he | hm
    · cases he
      exact ⟨hn, fun p h₁ h₂ => assign_of_mem (List.mem_range'_1.mpr ⟨h₁, h₂⟩)⟩
    · obtain ⟨hk, huse⟩ := B.big_use t k hm
      refine ⟨hk, fun p h₁ h₂ => ?_⟩
      have hbig := huse p h₁ h₂
      rw [assign_of_not_mem, hbig]
      intro hp
      rw [hfree p hp] at hbig
      cases hbig
  · intro p t k hp
    by_cases hm : p ∈ List.range' s n
    · rw [assign_of_mem hm] at hp
      cases hp
      obtain ⟨h₁, h₂⟩ := List.mem_range'_1.mp hm
      exact ⟨by simp, h₁, h₂⟩
    · rw [assign_of_not_mem hm] at hp
      obtain ⟨h₁, h₂⟩ := B.of_big p t k hp
      exact ⟨List.mem_cons_of_mem _ h₁, h₂⟩
  · exact B.globals
  · exact fun c hc o ho => List.mem_cons_of_mem _ (B.site c hc o ho)

/-- A block returns to the free pages. -/
theorem blocks_removePages (B : BlocksOk G.use G.page G.live h.slabs blocks caches)
    (hb : .pages s n ∈ blocks) :
    BlocksOk (assign G.use (List.range' s n) .free) G.page G.live h.slabs
      (blocks.erase (.pages s n)) caches := by
  have hmem : ∀ b, b ∈ blocks.erase (.pages s n) ↔ b ≠ .pages s n ∧ b ∈ blocks :=
    fun b => B.nodup.mem_erase_iff
  have hobj : ∀ c o, Block.obj c o ∈ blocks.erase (.pages s n) ↔ .obj c o ∈ blocks := by
    intro c o
    simp [hmem]
  have huse := (B.big_use s n hb).2
  constructor
  · exact B.nodup.erase _
  · intro c o
    rw [← B.held_iff, HeldAt, HeldAt, hobj]
  · intro o hm
    exact B.not_header o ((hobj _ o).mp hm)
  · intro t k hm
    obtain ⟨hne, hm⟩ := (hmem _).mp hm
    obtain ⟨hk, huse'⟩ := B.big_use t k hm
    refine ⟨hk, fun p h₁ h₂ => ?_⟩
    rw [assign_of_not_mem]
    · exact huse' p h₁ h₂
    · intro hp
      obtain ⟨h₃, h₄⟩ := List.mem_range'_1.mp hp
      have he := (huse' p h₁ h₂).symm.trans (huse p h₃ h₄)
      cases he
      exact hne rfl
  · intro p t k hp
    by_cases hm : p ∈ List.range' s n
    · rw [assign_of_mem hm] at hp
      cases hp
    · rw [assign_of_not_mem hm] at hp
      obtain ⟨h₁, h₂, h₃⟩ := B.of_big p t k hp
      refine ⟨(hmem _).mpr ⟨?_, h₁⟩, h₂, h₃⟩
      intro he
      cases he
      exact hm (List.mem_range'_1.mpr ⟨h₂, h₃⟩)
  · exact B.globals
  · exact fun c hc o ho => (hobj _ _).mpr (B.site c hc o ho)

theorem stats_pages {stat : CacheRef → Stat} {slabs : List (CacheRef × Nat)}
    {blocks' : List Block} (T : StatsOk stat slabs blocks caches)
    (hcount : ∀ c, blocks'.countP (·.isObj c) = blocks.countP (·.isObj c)) :
    StatsOk stat slabs blocks' caches := by
  refine ⟨T.slabPg, ?_⟩
  intro c hc
  rw [hcount]
  exact T.allocated c hc

/-- A large request that the page allocator serves. -/
theorem alloc_pages (I : HeapInv G h caches blocks) (hs : 2048 < s) (hs' : s ≤ 2 ^ 31 - pageSize)
    (hle : Kernel.nrPages s ≤ h.pages.nrPageStructs)
    (hok : PagesOk.Served h.pages G.free (Kernel.nrPages s)) :
    ∃ i h' G', Kernel.alloc s h = .ok (pageSize * i, h') ∧
      HeapInv G' h' caches (.pages i (Kernel.nrPages s) :: blocks) ∧ G'.hand = G.hand ∧
      (∀ p, G'.use p = .lost → G.use p = .lost) ∧ Settled G h G' h' := by
  obtain ⟨n, hn⟩ : ∃ n, n = Kernel.nrPages s := ⟨_, rfl⟩
  have hn1 : 1 ≤ n := hn ▸ Nat.le_add_left 1 _
  have hint : Kernel.int32 ((n : Int) * pageSize) = (n : Int) * pageSize := by
    have hlt : n * pageSize < 2 ^ 31 := by
      simp only [pageSize] at hs'
      simp only [hn, Kernel.nrPages, pageSize]
      omega
    exact_mod_cast Kernel.int32_of_lt hlt
  rw [← hn] at hle hok ⊢
  obtain ⟨i, m', free', hal, hfree, P⟩ := I.pages.allocPages hle hok
  have hmem : i ∈ List.range' i n := List.mem_range'_1.mpr ⟨le_rfl, by omega⟩
  have P' := P.ownRun hn1 fun p hp => assign_of_mem hp
  rw [assign_assign] at P'
  obtain ⟨hlt, hphy⟩ := P'.managed i (by simp [assign_of_mem hmem])
  obtain ⟨m'', hm''⟩ : ∃ m'', m'' = m'.setPage (.pg i)
    { m'.page (.pg i) with slabObjSize := (n : Int) * pageSize } := ⟨_, rfl⟩
  rw [← hm''] at P' hlt hphy
  refine ⟨i, h.setPages m'', { G with
    use := assign G.use (List.range' i n) (.big i n)
    free := free' }, ?_, ⟨P', ?_, I.headers, I.queues, ?_, ?_⟩, rfl, ?_, ?_⟩
  · have hderef : m'.deref (.pg i) = .ok () :=
      P.deref (by simp [assign_of_mem hmem])
    rw [Kernel.alloc_large hs, ← hn, hal]
    simp only [ok_bind, Heap.setPages, hderef, hint, ← hm'', Heap.physicalAddress,
      MemPages.deref_pg hlt, hphy]
    rfl
  · exact I.slabs.reassign (fun p hp c a => by simp [hfree p hp]) (by simp)
  · exact stats_pages I.stats fun c => List.countP_cons_of_neg (by simp [Block.isObj])
  · exact blocks_addPages I.blocks hn1 hfree
  · exact fun p hp => lost_of_assign (by simp) hp
  · exact Settled.of_pages rfl (fun p hp => by simp [hfree p hp]) (by simp) rfl rfl

/-- `Free` of a multi-page block. -/
theorem free_pages (I : HeapInv G h caches blocks) (hb : .pages s n ∈ blocks) :
    ∃ h' G', Kernel.free (some (pageSize * s)) h = .ok h' ∧
      HeapInv G' h' caches (blocks.erase (.pages s n)) ∧ G'.hand = G.hand ∧
      (∀ p, G'.use p = .lost → G.use p = .lost) ∧ Settled G h G' h' ∧
      MemPages.Flagged h.pages h'.pages (List.range' s n) true := by
  obtain ⟨hn, huse⟩ := I.blocks.big_use s n hb
  have hbig := huse s le_rfl (by omega)
  have hrange : ∀ p ∈ List.range' s n, G.use p = .big s n := by
    intro p hp
    obtain ⟨h₁, h₂⟩ := List.mem_range'_1.mp hp
    exact huse p h₁ h₂
  have P := I.pages.lose (s := List.range' s n) fun p hp => by simp [hrange p hp]
  obtain ⟨m', free', hfr, P', hf⟩ := P.freePages (i := s) (n := n) fun p hp => assign_of_mem hp
  rw [assign_assign] at P'
  refine ⟨h.setPages m', { G with
    use := assign G.use (List.range' s n) .free
    free := free' }, ?_, ⟨P', ?_, I.headers, I.queues, ?_, ?_⟩, rfl, ?_, ?_, hf⟩
  · have hlt := (I.pages.managed s (by simp [hbig])).1
    have hsize := I.pages.big_page s n hbig
    have hdiv : ((n : Int) * pageSize).tdiv pageSize = n := Int.mul_tdiv_cancel _ (by decide)
    have hgt : (n : Int) * pageSize > 2048 := by
      rw [pageSize]
      push_cast
      omega
    simp only [Kernel.free, MemPages.pageOf, pgnum_page, MemPages.deref_pg hlt, ok_bind, hsize,
      if_pos hgt, hdiv, hfr]
    rfl
  · exact I.slabs.reassign (fun p hp c a => by simp [hrange p hp]) (by simp)
  · refine stats_pages I.stats fun c => ?_
    rw [List.countP_erase]
    simp [Block.isObj]
  · exact blocks_removePages I.blocks hb
  · exact fun p hp => lost_of_assign (by simp) hp
  · exact Settled.of_pages rfl (fun p hp => by simp [hrange p hp]) (by simp) rfl rfl

/-- `Free` sends an object of a global cache back to that cache. -/
theorem free_obj (I : HeapInv G h caches blocks) {k : CacheKind} (hk : k ≠ .metaSlab)
    (hb : .obj (.global k) o ∈ blocks) :
    Kernel.free (some o) h = (CacheRef.global k).free o h := by
  obtain ⟨a, i, hs, hi, ho⟩ := I.block_live hb
  have hpos := k.objSize_pos
  have hpage := (slotAddr_div (c := .global k) (p := G.page) (a := a) (x := o)
    (I.slot_le hs hi) (by omega)
    (by simp only [CacheRef.global] at ho ⊢; omega)).1
  have huse := I.use_page hs
  have hlt := (I.pages.managed (G.page a) (by simp [huse])).1
  have hsize := (I.pages.slab_page _ _ _ huse).2
  have hle : ¬ ((k.objSize : Int) > 2048) := by
    have := k.objSize_le
    omega
  simp only [Kernel.free, MemPages.pageOf, pgnum, hpage, MemPages.deref_pg hlt, ok_bind, hsize,
    CacheRef.global, if_neg hle]
  rw [Kernel.fitGlobalMemCache_eq hpos k.objSize_le, Kernel.chunkOf_objSize hk]
  rfl

end HeapInv

/-- The lists after the three queues of a cache are set up. -/
def clearQueues (seq : NodeRef → List Nat) (c : CacheRef) : NodeRef → List Nat :=
  Function.update (Function.update (Function.update seq (.queue c .full) []) (.queue c .half) [])
    (.queue c .empty) []

@[simp] theorem clearQueues_self (seq : NodeRef → List Nat) (c : CacheRef) (q : Queue) :
    clearQueues seq c (.queue c q) = [] := by
  cases q <;> simp [clearQueues]

theorem clearQueues_of_ne {seq : NodeRef → List Nat} {c : CacheRef} {hd : NodeRef}
    (hne : ∀ q, hd ≠ .queue c q) : clearQueues seq c hd = seq hd := by
  rw [clearQueues, Function.update_of_ne (hne _), Function.update_of_ne (hne _),
    Function.update_of_ne (hne _)]

/-- A queue head that is no head yet is in no list. -/
theorem loose_queue {heads : Set NodeRef} {seq : NodeRef → List Nat} {c : CacheRef} {q : Queue}
    (hnew : .queue c q ∉ heads) :
    Loose heads (fun hd => (seq hd).map .node) (.queue c q) := by
  intro hd hh hm
  rcases List.mem_cons.mp hm with he | hm
  · subst he
    exact hnew hh
  · obtain ⟨y, -, he⟩ := List.mem_map.mp hm
    cases he

/-- The constructor of a cache adds three empty lists. -/
theorem construct_rings {h : Heap} {caches : List CacheRef} {slabs : List (CacheRef × Nat)}
    (seq : NodeRef → List Nat) {c : CacheRef} (hnew : c ∉ caches)
    (R : Rings h.nodes (listHeads caches slabs) fun hd => (seq hd).map .node) :
    Rings (c.construct h).nodes (listHeads (c :: caches) slabs) fun hd =>
      (clearQueues seq c hd).map .node := by
  have step : ∀ {nodes : Links NodeRef} {heads : Set NodeRef} {seq : NodeRef → List Nat}
      (q : Queue), .queue c q ∉ heads → Rings nodes heads (fun hd => (seq hd).map .node) →
      Rings (nodes.initHead (.queue c q)) (insert (.queue c q) heads) fun hd =>
        (Function.update seq (.queue c q) [] hd).map .node := by
    intro nodes heads seq q hq R
    rw [map_node_update]
    exact R.initHead (loose_queue hq)
  have hout : ∀ q, NodeRef.queue c q ∉ listHeads caches slabs := fun q hm => hnew hm
  have R₁ := step .full (hout _) R
  have R₂ := step .half (by simpa using hout _) R₁
  have R₃ := step .empty (by simpa using hout _) R₂
  refine R₃.mono ?_
  intro hd hh
  match hd, hh with
  | .queue c' q, hh =>
      rcases List.mem_cons.mp hh with rfl | hh
      · cases q with
        | full => exact Or.inr (Or.inr (Or.inl rfl))
        | half => exact Or.inr (Or.inl rfl)
        | empty => exact Or.inl rfl
      · exact Or.inr (Or.inr (Or.inr hh))
  | .freeSlab m, hh => exact Or.inr (Or.inr (Or.inr hh))

namespace HeapInv

variable {G : Ghost} {h : Heap} {caches : List CacheRef} {blocks : List Block}
variable {c : CacheRef} {o : Nat}

/-- The object of a cache names an existing cache. -/
theorem cache_of_block (I : HeapInv G h caches blocks) (hb : .obj c o ∈ blocks) :
    c ∈ caches := by
  obtain ⟨a, -, hs, -⟩ := I.block_live hb
  exact I.slabs.cache_mem c a hs

/-- A cache constructed in a held object. -/
theorem construct (I : HeapInv G h caches blocks) (hnew : c ∉ caches) (hsite : c.site = some o)
    (hb : .obj (.global .chunk128) o ∈ blocks) :
    HeapInv { G with seq := clearQueues G.seq c } (c.construct h) (c :: caches) blocks := by
  have hne : ∀ c' a, (c', a) ∈ h.slabs → c' ≠ c := by
    rintro c' a hs rfl
    exact hnew (I.slabs.cache_mem _ a hs)
  have hmeta : c ≠ BaseSlab.metaSlabCache := by
    rintro rfl
    cases hsite
  refine ⟨I.pages, ?_, I.headers, ?_, ?_, ?_⟩
  · exact ⟨I.slabs.nodup, I.slabs.use_iff,
      fun c' a hs => List.mem_cons_of_mem _ (I.slabs.cache_mem c' a hs), I.slabs.meta_addr⟩
  · change QueuesOk _ (clearQueues G.seq c) G.live G.hand h.slabs (c :: caches)
    refine ⟨construct_rings G.seq hnew I.queues.rings, ?_, ?_, ?_, I.queues.hand_mem⟩
    · intro c' a q hs
      rw [clearQueues_of_ne (by simp [hne c' a hs])]
      exact I.queues.placed c' a q hs
    · intro c' a q hc' hm
      by_cases he : c' = c
      · subst he
        simp at hm
      · rw [clearQueues_of_ne (by simp [he])] at hm
        exact I.queues.queue_mem c' a q ((List.mem_cons.mp hc').resolve_left he) hm
    · intro c' m x hs hk
      rw [clearQueues_of_ne (by simp)]
      exact I.queues.header_iff c' m x hs hk
  · change StatsOk (Function.update h.stat c {}) h.slabs blocks (c :: caches)
    constructor
    · intro c' hc'
      by_cases he : c' = c
      · subst he
        rw [Function.update_self]
        symm
        rw [List.countP_eq_zero]
        rintro ⟨c₁, a⟩ hs
        simpa using hne c₁ a hs
      · rw [Function.update_of_ne he]
        exact I.stats.slabPg c' ((List.mem_cons.mp hc').resolve_left he)
    · intro c' hc'
      by_cases he : c' = c
      · subst he
        rw [Function.update_self, if_neg hmeta]
        symm
        rw [Nat.add_zero, List.countP_eq_zero]
        intro b hb'
        cases b with
        | obj c₁ x =>
            have := I.cache_of_block hb'
            simp only [Block.isObj, beq_iff_eq]
            rintro rfl
            exact hnew this
        | pages s n => simp [Block.isObj]
      · rw [Function.update_of_ne he]
        exact I.stats.allocated c' ((List.mem_cons.mp hc').resolve_left he)
  · refine ⟨I.blocks.nodup, I.blocks.held_iff, I.blocks.not_header, I.blocks.big_use,
      I.blocks.of_big, fun k => List.mem_cons_of_mem _ (I.blocks.globals k), ?_⟩
    intro c' hc' x hx
    rcases List.mem_cons.mp hc' with rfl | hc'
    · rw [hsite] at hx
      cases hx
      exact hb
    · exact I.blocks.site c' hc' x hx

end HeapInv

/-- The nine global caches. -/
def globalCaches : List CacheRef := (.metaSlab :: Kernel.globalKinds).map .global

/-- What a heap without slabs stands for. -/
def Ghost.initial (free : List Nat) : Ghost where
  use p := if p ∈ free then .free else .unmanaged
  free := free
  page _ := 0
  live _ := ∅
  seq _ := []
  hand := none

/-- The heap after the constructors of distinct caches. -/
theorem foldl_construct (kinds : List CacheKind) (h : Heap) (caches : List CacheRef)
    (hnew : ∀ k ∈ kinds, CacheRef.global k ∉ caches) (hnd : kinds.Nodup)
    (R : Rings h.nodes (listHeads caches []) fun _ => []) (hstat : ∀ c ∈ caches, h.stat c = {}) :
    ∃ h', kinds.foldl (fun h k => (CacheRef.global k).construct h) h = h' ∧
      (∀ cs : List CacheRef, (∀ c ∈ cs, c ∈ kinds.map .global ∨ c ∈ caches) →
        Rings h'.nodes (listHeads cs []) (fun _ => []) ∧ ∀ c ∈ cs, h'.stat c = {}) ∧
      h'.pages = h.pages ∧ h'.slabs = h.slabs := by
  induction kinds generalizing h caches with
  | nil =>
      refine ⟨h, rfl, ?_, rfl, rfl⟩
      intro cs hcs
      have hin : ∀ c ∈ cs, c ∈ caches := fun c hc => (hcs c hc).resolve_left (by simp)
      refine ⟨R.mono ?_, fun c hc => hstat c (hin c hc)⟩
      intro hd hh
      match hd, hh with
      | .queue c q, hh => exact hin c hh
      | .freeSlab m, ⟨c, hm, _⟩ => cases hm
  | cons k kinds ih =>
      have hk := List.nodup_cons.mp hnd
      have hout : CacheRef.global k ∉ caches := hnew k (by simp)
      have R' := construct_rings (fun _ => []) hout R
      have hnil : (fun hd => (clearQueues (fun _ => []) (.global k) hd).map NodeRef.node) =
          fun _ => [] := by
        funext hd
        by_cases he : ∃ q, hd = .queue (.global k) q
        · obtain ⟨q, rfl⟩ := he
          simp
        · rw [clearQueues_of_ne fun q hq => he ⟨q, hq⟩]
          rfl
      rw [hnil] at R'
      obtain ⟨h', hfold, hcs, hpages, hslabs⟩ :=
        ih ((CacheRef.global k).construct h) (.global k :: caches)
        (by
          intro k' hk'
          rw [List.mem_cons, not_or]
          refine ⟨?_, hnew k' (List.mem_cons_of_mem _ hk')⟩
          intro he
          cases he
          exact hk.1 hk')
        hk.2 R' (by
          intro c hc
          change Function.update h.stat (.global k) {} c = {}
          by_cases he : c = .global k
          · simp [he]
          · rw [Function.update_of_ne he]
            exact hstat c ((List.mem_cons.mp hc).resolve_left he))
      refine ⟨h', hfold, ?_, hpages, hslabs⟩
      intro cs hin
      refine hcs cs fun c hc => ?_
      rcases hin c hc with hm | hm
      · rcases List.mem_cons.mp hm with rfl | hm
        · exact Or.inr (by simp)
        · exact Or.inl hm
      · exact Or.inr (List.mem_cons_of_mem _ hm)

/-- `InitSlab` establishes the invariant. -/
theorem initSlab_inv {m : MemPages} {free : List Nat} (F : MemPages.FreeList m free)
    (nodes : Links NodeRef) (slab : Nat → SlabRec) :
    HeapInv (Ghost.initial free) (Kernel.initSlab m nodes slab) globalCaches [] ∧
      ∀ c ∈ globalCaches, (Kernel.initSlab m nodes slab).stat c = {} := by
  have hnohead : ∀ hd, hd ∉ listHeads [] [] := by
    intro hd hh
    match hd, hh with
    | .queue c q, hc => cases hc
    | .freeSlab m, ⟨_, hm, _⟩ => cases hm
  obtain ⟨h', hfold, hcs, hpages, hslabs⟩ := foldl_construct
    (.metaSlab :: Kernel.globalKinds)
    { pages := m, nodes := nodes, slab := slab, stat := fun _ => {}, slabs := [] } []
    (by simp) (by decide)
    ⟨fun hd hh => absurd hh (hnohead hd), fun hd hh => absurd hh (hnohead hd)⟩ (by simp)
  have hinit : Kernel.initSlab m nodes slab = h' := hfold
  obtain ⟨R, hstat⟩ := hcs globalCaches fun c hc => Or.inl hc
  have hnone : h'.slabs = [] := hslabs
  rw [hinit]
  have hlive : ∀ c o,
      ¬ LiveAt (Ghost.initial free).page (Ghost.initial free).live h'.slabs c o := by
    rintro c o ⟨a, i, hs, -⟩
    simp [hnone] at hs
  refine ⟨⟨?_, ?_, ?_, ?_, ?_, ?_⟩, hstat⟩
  · rw [hpages]
    refine ⟨F, ?_, ?_, ?_, ?_⟩
    · intro p
      by_cases hp : p ∈ free <;> simp [Ghost.initial, hp]
    · intro p hp
      have hm : p ∈ free := by
        by_contra hm
        simp [Ghost.initial, hm] at hp
      exact ⟨F.bounded p hm, F.phyaddr_eq p hm⟩
    · intro p c a hp
      by_cases hm : p ∈ free <;> simp [Ghost.initial, hm] at hp
    · intro s n hp
      by_cases hm : s ∈ free <;> simp [Ghost.initial, hm] at hp
  · rw [hnone]
    refine ⟨List.nodup_nil, ?_, by simp, by simp⟩
    intro p c a
    by_cases hm : p ∈ free <;> simp [Ghost.initial, hm]
  · rw [hnone]
    exact ⟨by simp, by simp⟩
  · rw [hnone]
    exact ⟨R, by simp, by simp [Ghost.initial], by simp, by simp [Ghost.initial]⟩
  · rw [hnone]
    refine ⟨?_, ?_⟩ <;> intro c hc <;> rw [hstat c hc] <;> simp
  · refine ⟨List.nodup_nil, ?_, by simp, by simp, ?_, ?_, ?_⟩
    · intro c o
      refine ⟨?_, fun hl => absurd hl (hlive c o)⟩
      rintro (hm | ⟨-, c', -, hm⟩)
      · cases hm
      · simp [hnone] at hm
    · intro p s n hp
      by_cases hm : p ∈ free <;> simp [Ghost.initial, hm] at hp
    · intro k
      cases k <;> decide
    · intro c hc o ho
      have hnone : ∀ c ∈ globalCaches, c.site = none := by decide
      rw [hnone c hc] at ho
      cases ho

end Chestnut
