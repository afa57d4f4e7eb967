import Chestnut.Slab.Lifecycle

/-!
# The operations of a cache

Specifications of `AdjustSlab`, `Allocate` and `Free`. The operations of
`meta_slab_cache` come first: every other cache calls them for its headers,
always when no slab is in hand.
-/

namespace Chestnut

open Lib

/-- What every operation leaves alone: pages outside the allocator, pages
already lost, the limits of the caches, and empty queues under a limit of 0. -/
structure Kept (G : Ghost) (h : Heap) (G' : Ghost) (h' : Heap) : Prop where
  unmanaged : ∀ p, G'.use p = .unmanaged ↔ G.use p = .unmanaged
  lost : ∀ p, G.use p = .lost → G'.use p = .lost
  maxPg : ∀ c, (h'.stat c).maxPg = (h.stat c).maxPg
  empty : ∀ c, (h.stat c).maxPg = 0 → G.seq (.queue c .empty) = [] →
    G'.seq (.queue c .empty) = []

namespace Kept

variable {G G' G'' : Ghost} {h h' h'' : Heap}

theorem trans (K : Kept G h G' h') (K' : Kept G' h' G'' h'') : Kept G h G'' h'' := by
  refine ⟨?_, ?_, ?_, ?_⟩
  · exact fun p => (K'.unmanaged p).trans (K.unmanaged p)
  · exact fun p hp => K'.lost p (K.lost p hp)
  · exact fun c => (K'.maxPg c).trans (K.maxPg c)
  · exact fun c h0 he => K'.empty c ((K.maxPg c).trans h0) (K.empty c h0 he)

/-- Steps that leave all pages in their use and add nothing to a queue of
empty slabs. -/
theorem of_use_eq (huse : G'.use = G.use) (hmax : ∀ c, (h'.stat c).maxPg = (h.stat c).maxPg)
    (hseq : ∀ c, (h.stat c).maxPg = 0 →
      ∀ x ∈ G'.seq (.queue c .empty), x ∈ G.seq (.queue c .empty)) : Kept G h G' h' := by
  refine ⟨by simp [huse], by simp [huse], hmax, ?_⟩
  intro c h0 he
  rw [List.eq_nil_iff_forall_not_mem]
  intro x hx
  simpa [he] using hseq c h0 x hx

/-- Pages that are neither lost nor unmanaged change their use. -/
theorem of_assign {s : List Nat} {u : PageUse} (huse : G'.use = assign G.use s u)
    (hs : ∀ p ∈ s, G.use p ≠ .unmanaged ∧ G.use p ≠ .lost) (hu : u ≠ .unmanaged)
    (hmax : ∀ c, (h'.stat c).maxPg = (h.stat c).maxPg)
    (hseq : ∀ c q, G'.seq (.queue c q) = G.seq (.queue c q)) : Kept G h G' h' := by
  refine ⟨?_, ?_, hmax, fun c _ he => (hseq c .empty).trans he⟩
  · intro p
    rw [huse]
    by_cases hp : p ∈ s
    · simp [hp, hu, (hs p hp).1]
    · simp [hp]
  · intro p hp
    rw [huse, assign_of_not_mem fun hm => (hs p hm).2 hp, hp]

end Kept

/-- No empty slab is kept above the limit. -/
def Retained (G : Ghost) (h : Heap) (c : CacheRef) : Prop :=
  G.seq (.queue c .empty) = [] ∨ (h.stat c).slabPg ≤ (h.stat c).maxPg

/-- What every operation leaves alone, the bound on empty slabs included. -/
structure Settled (G : Ghost) (h : Heap) (G' : Ghost) (h' : Heap) : Prop
    extends Kept G h G' h' where
  retained : ∀ c, Retained G h c → Retained G' h' c

namespace Settled

variable {G G' G'' : Ghost} {h h' h'' : Heap}

theorem trans (K : Settled G h G' h') (K' : Settled G' h' G'' h'') : Settled G h G'' h'' :=
  ⟨K.toKept.trans K'.toKept, fun c hr => K'.retained c (K.retained c hr)⟩

/-- Steps that add nothing to a queue of empty slabs; a cache that gets a new
slab has no empty one. -/
theorem of_kept (K : Kept G h G' h')
    (hpg : ∀ c, (h'.stat c).slabPg ≤ (h.stat c).slabPg ∨ G'.seq (.queue c .empty) = [])
    (hseq : ∀ c, ∀ x ∈ G'.seq (.queue c .empty), x ∈ G.seq (.queue c .empty)) :
    Settled G h G' h' := by
  refine ⟨K, fun c hr => ?_⟩
  rcases hr with hnil | hle
  · refine .inl (List.eq_nil_iff_forall_not_mem.mpr fun x hx => ?_)
    simpa [hnil] using hseq c x hx
  · rcases hpg c with hpg | hnil
    · exact .inr (hpg.trans (hle.trans_eq (K.maxPg c).symm))
    · exact .inl hnil

end Settled

/-- Pages change their use outside the caches. -/
theorem Settled.of_pages {G G' : Ghost} {h h' : Heap} {s : List Nat} {u : PageUse}
    (huse : G'.use = assign G.use s u)
    (hs : ∀ p ∈ s, G.use p ≠ .unmanaged ∧ G.use p ≠ .lost) (hu : u ≠ .unmanaged)
    (hstat : h'.stat = h.stat) (hseq : G'.seq = G.seq) : Settled G h G' h' :=
  Settled.of_kept (Kept.of_assign huse hs hu (fun c => by rw [hstat]) fun c q => by rw [hseq])
    (fun c => .inl (by rw [hstat])) fun c x hx => hseq ▸ hx

/-- The operation of a cache puts no slab into the queue of empty slabs of
another one. -/
def Foreign (c : CacheRef) (G G' : Ghost) : Prop :=
  ∀ c', c' ≠ c → ∀ x ∈ G'.seq (.queue c' .empty), x ∈ G.seq (.queue c' .empty)

theorem Foreign.trans {c : CacheRef} {G G' G'' : Ghost} (F : Foreign c G G')
    (F' : Foreign c G' G'') : Foreign c G G'' :=
  fun c' hne x hx => F c' hne x (F' c' hne x hx)

theorem maxPg_update_slabPg (stat : CacheRef → Stat) (c c' : CacheRef) (n : Nat) :
    (Function.update stat c { stat c with slabPg := n } c').maxPg = (stat c').maxPg := by
  by_cases he : c' = c
  · subst he
    simp
  · simp [he]

/-- A slab is opened for a cache without an empty one. -/
theorem Settled.of_newSlab {G : Ghost} {h h' : Heap} {c : CacheRef} {a p : Nat} {t : List Nat}
    {seq : NodeRef → List Nat} (hnil : G.seq (.queue c .empty) = [])
    (hstat : h'.stat = Function.update h.stat c { h.stat c with slabPg := (h.stat c).slabPg + 1 })
    (huse : G.use p = .free) (hseq : ∀ c q, seq (.queue c q) = G.seq (.queue c q)) :
    Settled G h (HeapInv.newSlab G c a p t seq) h' := by
  have hmax : ∀ c', (h'.stat c').maxPg = (h.stat c').maxPg := by
    intro c'
    rw [hstat]
    exact maxPg_update_slabPg h.stat c c' _
  refine Settled.of_kept (Kept.of_assign rfl (by simp [huse]) (by simp) hmax hseq) ?_
    fun c' x hx => (hseq c' .empty) ▸ hx
  intro c'
  by_cases he : c' = c
  · subst he
    exact .inr ((hseq c' .empty).trans hnil)
  · rw [hstat, Function.update_of_ne he]
    exact .inl le_rfl

/-- A slab is given up. -/
theorem Settled.of_dropSlab {G G' : Ghost} {h h' : Heap} {c : CacheRef} {s : List Nat}
    {u : PageUse}
    (hstat : h'.stat = Function.update h.stat c { h.stat c with slabPg := (h.stat c).slabPg - 1 })
    (huse : G'.use = assign G.use s u)
    (hs : ∀ p ∈ s, G.use p ≠ .unmanaged ∧ G.use p ≠ .lost) (hu : u ≠ .unmanaged)
    (hseq : ∀ c q, G'.seq (.queue c q) = G.seq (.queue c q)) : Settled G h G' h' := by
  have hmax : ∀ c', (h'.stat c').maxPg = (h.stat c').maxPg := by
    intro c'
    rw [hstat]
    exact maxPg_update_slabPg h.stat c c' _
  refine Settled.of_kept (Kept.of_assign huse hs hu hmax hseq) ?_
    fun c' x hx => (hseq c' .empty) ▸ hx
  intro c'
  by_cases he : c' = c
  · subst he
    rw [hstat, Function.update_self]
    exact .inl (Nat.sub_le _ _)
  · rw [hstat, Function.update_of_ne he]
    exact .inl le_rfl

theorem maxPg_update_allocated (stat : CacheRef → Stat) (c c' : CacheRef) (n : Nat) :
    (Function.update stat c { stat c with allocated := n } c').maxPg = (stat c').maxPg := by
  by_cases he : c' = c
  · subst he
    simp
  · simp [he]

theorem slabPg_update_allocated (stat : CacheRef → Stat) (c c' : CacheRef) (n : Nat) :
    (Function.update stat c { stat c with allocated := n } c').slabPg = (stat c').slabPg := by
  by_cases he : c' = c
  · subst he
    simp
  · simp [he]

namespace HeapInv

variable {G : Ghost} {h : Heap} {caches : List CacheRef} {blocks : List Block}
variable {c : CacheRef} {a o : Nat} {q : Queue}

/-- The emptiness test of a queue. -/
theorem isEmpty_iff (I : HeapInv G h caches blocks) (hc : c ∈ caches) (q : Queue) :
    h.nodes.isEmpty (.queue c q) = true ↔ G.seq (.queue c q) = [] := by
  have hr := I.queues.rings.ring (.queue c q) hc
  rw [Links.isEmpty, beq_iff_eq, hr.next_eq_head_iff]
  simp

theorem slabPg_pos (I : HeapInv G h caches blocks) (hs : (c, a) ∈ h.slabs) :
    0 < (h.stat c).slabPg := by
  rw [I.stats.slabPg c (I.slabs.cache_mem c a hs)]
  exact List.countP_pos_iff.mpr ⟨_, hs, by simp⟩

/-- The slab in hand goes into the queue that `AdjustSlab` has chosen for it. -/
theorem adjust_file (I : HeapInv G h caches blocks) (hh : G.hand = some (c, a)) {q : Queue}
    (hq : q.Holds c.kind.cap (G.live a).card)
    (hmax : q = .empty → (h.stat c).slabPg ≤ (h.stat c).maxPg)
    (hadj : MemCache.adjustSlab c.kind.slabClass c a h = .ok (MemCache.enqueue c q a h)) :
    ∃ h' G', MemCache.adjustSlab c.kind.slabClass c a h = .ok h' ∧
      HeapInv G' h' caches blocks ∧ G'.hand = none ∧ G'.use = G.use ∧ G'.free = G.free ∧
      Settled G h G' h' ∧ Foreign c G G' := by
  have hpos := I.slabPg_pos (I.queues.hand_mem c a hh)
  refine ⟨_, _, hadj, I.enqueue hh hq, rfl, rfl, rfl,
    ⟨Kept.of_use_eq rfl (fun _ => rfl) ?_, ?_⟩, ?_⟩
  · intro c' h0 x hx
    by_cases he : NodeRef.queue c' .empty = .queue c q
    · cases he
      have := hmax rfl
      omega
    · simpa only [Function.update_of_ne he] using hx
  · intro c' hr
    by_cases he : NodeRef.queue c' .empty = .queue c q
    · cases he
      exact .inr (hmax rfl)
    · exact hr.imp_left fun hnil => (Function.update_of_ne he _ _).trans hnil
  · intro c' hne x hx
    have he : NodeRef.queue c' .empty ≠ .queue c q := fun he => hne (NodeRef.queue.inj he).1
    simpa only [Function.update_of_ne he] using hx

/-- A slab that is not reclaimed is filed. -/
theorem adjust_stay (I : HeapInv G h caches blocks) (hh : G.hand = some (c, a))
    (hstay : (G.live a).card ≠ 0 ∨ (h.stat c).slabPg ≤ (h.stat c).maxPg) :
    ∃ h' G', MemCache.adjustSlab c.kind.slabClass c a h = .ok h' ∧
      HeapInv G' h' caches blocks ∧ G'.hand = none ∧ G'.use = G.use ∧ G'.free = G.free ∧
      Settled G h G' h' ∧ Foreign c G G' := by
  have hrep := I.headers.rep c a (I.queues.hand_mem c a hh)
  have hfull := hrep.isFull_iff
  have hempty := hrep.isEmpty_iff
  by_cases hf : (G.live a).card = c.kind.cap
  · refine I.adjust_file hh (q := .full) hf (by simp) ?_
    rw [MemCache.adjustSlab, if_pos (hfull.mpr hf)]
  · have hf' : ¬ c.kind.slabClass.isFull h a = true := fun hx => hf (hfull.mp hx)
    by_cases he : (G.live a).card = 0
    · have hle := hstay.resolve_left (by simpa using he)
      refine I.adjust_file hh (q := .empty) he (fun _ => hle) ?_
      rw [MemCache.adjustSlab, if_neg hf', if_pos (hempty.mpr he), MemCache.reclaimEmptySlab,
        if_pos hle]
      rfl
    · have he' : ¬ c.kind.slabClass.isEmpty h a = true := fun hx => he (hempty.mp hx)
      refine I.adjust_file hh (q := .half) ⟨he, hf⟩ (by simp) ?_
      rw [MemCache.adjustSlab, if_neg hf', if_neg he']

/-- An empty slab above the limit goes to `FreeSlab`. -/
theorem adjust_reclaim (I : HeapInv G h caches blocks) (hh : G.hand = some (c, a))
    (hempty : G.live a = ∅) (hmax : (h.stat c).maxPg < (h.stat c).slabPg) :
    MemCache.adjustSlab c.kind.slabClass c a h =
      c.kind.slabClass.freeSlab a (dropSlab h c a) := by
  have hrep := I.headers.rep c a (I.queues.hand_mem c a hh)
  have hcap := c.kind.two_le_cap
  have hcard : (G.live a).card = 0 := by rw [hempty, Finset.card_empty]
  have hf : ¬ c.kind.slabClass.isFull h a = true := by
    rw [hrep.isFull_iff]
    omega
  rw [MemCache.adjustSlab, if_neg hf, if_pos (hrep.isEmpty_iff.mpr hcard),
    MemCache.reclaimEmptySlab, if_neg (by omega)]
  change ((c.kind.slabClass.freeSlab a (dropSlab h c a) >>= fun h => _) >>= _) = _
  cases c.kind.slabClass.freeSlab a (dropSlab h c a) with
  | error e => rfl
  | ok h' => rfl

/-- The second half of `Allocate`. -/
theorem serveSlab (I : HeapInv G h caches blocks) (hh : G.hand = some (c, a))
    (hlt : (G.live a).card < c.kind.cap) :
    ∃ o h' G', MemCache.serveSlab c.kind.slabClass c.kind.objSize c a h = .ok (o, h') ∧
      HeapInv G' h' caches (.obj c o :: blocks) ∧ G'.hand = none ∧ G'.use = G.use ∧
      G'.free = G.free ∧ Settled G h G' h' ∧ Foreign c G G' := by
  obtain ⟨idx, h₁, seq', hal, hmem, hstat, hidx, hseq, I₁⟩ := I.takeSlot hh hlt
  have hcard : (Function.update G.live a (insert idx (G.live a)) a).card ≠ 0 := by
    rw [Function.update_self, Finset.card_insert_of_notMem hidx]
    omega
  obtain ⟨h', G', hadj, I', hh', huse, hfree, K', F'⟩ := I₁.adjust_stay hh (Or.inl hcard)
  refine ⟨slotAddr G.page c a idx, h', G', ?_, I', hh', huse, hfree, ?_,
    fun c' hne x hx => hseq c' .empty ▸ F' c' hne x hx⟩
  · simp only [MemCache.serveSlab, hal, ok_bind, hmem, hadj]
    rfl
  · refine Settled.trans ?_ K'
    refine Settled.of_kept (Kept.of_use_eq rfl ?_ ?_) ?_ ?_
    · intro c'
      rw [← hstat]
      exact maxPg_update_allocated h₁.stat c c' _
    · exact fun c' _ x hx => hseq c' .empty ▸ hx
    · intro c'
      rw [← hstat]
      exact .inl (slabPg_update_allocated h₁.stat c c' _).le
    · exact fun c' x hx => hseq c' .empty ▸ hx

/-- A slab waits in the queues of half full and empty slabs. -/
def Waiting (G : Ghost) (c : CacheRef) : Prop :=
  G.seq (.queue c .half) ≠ [] ∨ G.seq (.queue c .empty) ≠ []

theorem not_waiting_empty (hw : ¬ Waiting G c) : G.seq (.queue c .empty) = [] := by
  rw [Waiting, not_or, not_not, not_not] at hw
  exact hw.2

/-- The first slab of a queue other than the full one can be unlinked. -/
theorem first_slab (I : HeapInv G h caches blocks) (hh : G.hand = none) (hc : c ∈ caches)
    (hq : q ≠ .full) (hne : G.seq (.queue c q) ≠ []) :
    ∃ a seq', h.nodes.next (.queue c q) = .node a ∧ (G.live a).card < c.kind.cap ∧
      (∀ hd x, x ∈ seq' hd → x ∈ G.seq hd) ∧
      HeapInv { G with seq := seq', hand := some (c, a) }
        (h.setNodes (h.nodes.delete (.node a))) caches blocks := by
  obtain ⟨a, t, hseq⟩ := List.exists_cons_of_ne_nil hne
  have hs := I.queues.queue_mem c a q hc (by simp [hseq])
  have hholds := ((I.queues.placed c a q hs).mp (by simp [hseq])).2
  have hle := (I.headers.rep c a hs).card_le
  have hcap := c.kind.two_le_cap
  obtain ⟨seq', hsub, I'⟩ := I.detach hh hs
  refine ⟨a, seq', ?_, ?_, hsub, I'⟩
  · simpa [hseq] using (I.queues.rings.ring (.queue c q) hc).next_head
  · cases q with
    | full => exact absurd rfl hq
    | half =>
        obtain ⟨-, h₂⟩ := hholds
        omega
    | empty =>
        simp only [Queue.Holds] at hholds
        omega

/-- `Allocate` unlinks the first slab of a queue. -/
theorem takeSlab_first (I : HeapInv G h caches blocks) (hc : c ∈ caches)
    (hq : q = .half ∨ q = .empty ∧ G.seq (.queue c .half) = []) (hne : G.seq (.queue c q) ≠ [])
    (hnext : h.nodes.next (.queue c q) = .node a) :
    MemCache.takeSlab c.kind.slabClass c.kind.objSize c h =
      .ok (a, h.setNodes (h.nodes.delete (.node a))) := by
  have he : ¬ h.nodes.isEmpty (.queue c q) = true := by rwa [I.isEmpty_iff hc]
  rcases hq with rfl | ⟨rfl, hhalf⟩
  · rw [MemCache.takeSlab, if_neg he, hnext]
    rfl
  · rw [MemCache.takeSlab, if_pos ((I.isEmpty_iff hc _).mpr hhalf), if_neg he, hnext]
    rfl

/-- The first half of `Allocate` when a slab waits. -/
theorem takeSlab_waiting (I : HeapInv G h caches blocks) (hh : G.hand = none)
    (hc : c ∈ caches) (hw : Waiting G c) :
    ∃ a h₁ seq', MemCache.takeSlab c.kind.slabClass c.kind.objSize c h = .ok (a, h₁) ∧
      (G.live a).card < c.kind.cap ∧
      HeapInv { G with seq := seq', hand := some (c, a) } h₁ caches blocks ∧
      Settled G h { G with seq := seq', hand := some (c, a) } h₁ ∧
      Foreign c G { G with seq := seq', hand := some (c, a) } := by
  obtain ⟨q, hq, hne⟩ : ∃ q, (q = .half ∨ q = .empty ∧ G.seq (.queue c .half) = []) ∧
      G.seq (.queue c q) ≠ [] := by
    by_cases hhalf : G.seq (.queue c .half) = []
    · exact ⟨.empty, .inr ⟨rfl, hhalf⟩, hw.resolve_left (by simpa using hhalf)⟩
    · exact ⟨.half, .inl rfl, hhalf⟩
  have hfull : q ≠ .full := by
    rcases hq with rfl | ⟨rfl, -⟩ <;> simp
  obtain ⟨a, seq', hnext, hlt, hsub, I'⟩ := I.first_slab hh hc hfull hne
  exact ⟨a, _, seq', I.takeSlab_first hc hq hne hnext, hlt, I', Settled.of_kept
    (Kept.of_use_eq rfl (fun _ => rfl) fun c' _ x hx => hsub _ x hx) (fun _ => .inl le_rfl)
    fun c' x hx => hsub _ x hx, fun c' _ x hx => hsub _ x hx⟩

/-- The first half of `Allocate` when no slab waits. -/
theorem takeSlab_new (I : HeapInv G h caches blocks) (hc : c ∈ caches) (hw : ¬ Waiting G c) :
    MemCache.takeSlab c.kind.slabClass c.kind.objSize c h = (do
      let (slab, h) ← c.kind.slabClass.allocSlab c.kind.objSize h
      let h ← MemCache.openSlab c.kind.slabClass c.kind.objSize c slab h
      return (slab, h)) := by
  rw [Waiting, not_or, not_not, not_not] at hw
  rw [MemCache.takeSlab, if_pos ((I.isEmpty_iff hc _).mpr hw.1),
    if_pos ((I.isEmpty_iff hc _).mpr hw.2)]

/-- `Allocate` when a slab waits. -/
theorem allocate_waiting (I : HeapInv G h caches blocks) (hh : G.hand = none)
    (hc : c ∈ caches) (hw : Waiting G c) :
    ∃ o h' G', c.allocate h = .ok (o, h') ∧ HeapInv G' h' caches (.obj c o :: blocks) ∧
      G'.hand = none ∧ G'.use = G.use ∧ G'.free = G.free ∧ Settled G h G' h' ∧
      Foreign c G G' := by
  obtain ⟨a, h₁, seq', htake, hlt, I₁, K₁, F₁⟩ := I.takeSlab_waiting hh hc hw
  obtain ⟨o, h', G', hserve, I', hh', huse, hfree, K', F'⟩ := I₁.serveSlab rfl hlt
  refine ⟨o, h', G', ?_, I', hh', huse, hfree, K₁.trans K', F₁.trans F'⟩
  rw [CacheRef.allocate, MemCache.allocate, htake]
  exact hserve

/-- `Allocate` with a slab that has just been opened. -/
theorem allocate_opened {G₁ : Ghost} {h₀ h₁ : Heap} {p : Nat} {t : List Nat}
    {seq : NodeRef → List Nat} (I : HeapInv (newSlab G c a p t seq) h₁ caches blocks)
    (htake : MemCache.takeSlab c.kind.slabClass c.kind.objSize c h₀ = .ok (a, h₁))
    (K : Settled G₁ h₀ (newSlab G c a p t seq) h₁) :
    ∃ o h' G', c.allocate h₀ = .ok (o, h') ∧ HeapInv G' h' caches (.obj c o :: blocks) ∧
      G'.hand = none ∧ G'.use = assign G.use [p] (.slab c a) ∧ G'.free = t ∧
      Settled G₁ h₀ G' h' ∧ Foreign c (newSlab G c a p t seq) G' := by
  have hlt : ((newSlab G c a p t seq).live a).card < c.kind.cap := by
    have := c.kind.two_le_cap
    simp only [newSlab, Function.update_self, Finset.card_empty]
    omega
  obtain ⟨o, h', G', hserve, I', hh', huse, hfree, K', F'⟩ := I.serveSlab rfl hlt
  refine ⟨o, h', G', ?_, I', hh', huse, hfree, K.trans K', F'⟩
  rw [CacheRef.allocate, MemCache.allocate, htake]
  exact hserve

/-- `Allocate` of a meta slab cache. -/
theorem allocate_meta (I : HeapInv G h caches blocks) (hh : G.hand = none) (hc : c ∈ caches)
    (hk : c.kind = .metaSlab) (hok : Waiting G c ∨ 2 ≤ G.free.length) :
    ∃ o h' G', c.allocate h = .ok (o, h') ∧ HeapInv G' h' caches (.obj c o :: blocks) ∧
      G'.hand = none ∧ (∀ p, G'.use p = .lost → G.use p = .lost) ∧
      (Waiting G c → G'.free = G.free) ∧ (¬ Waiting G c → G'.free = G.free.tail) ∧
      Settled G h G' h' ∧ Foreign c G G' := by
  by_cases hw : Waiting G c
  · obtain ⟨o, h', G', hal, I', hh', huse, hfree, K⟩ := I.allocate_waiting hh hc hw
    exact ⟨o, h', G', hal, I', hh', by simp [huse], fun _ => hfree, fun hn => absurd hw hn, K⟩
  · obtain ⟨p, q, t, hfree⟩ : ∃ p q t, G.free = p :: q :: t := by
      have hlen := hok.resolve_left hw
      match hm : G.free with
      | [] => simp [hm] at hlen
      | [p] => simp [hm] at hlen
      | p :: q :: t => exact ⟨p, q, t, rfl⟩
    have huse := I.free_use hfree
    obtain ⟨h₁, h₂, l, hal, hopen, I₂, hstat⟩ := I.addMeta hh hc hk hfree
    have hcls : c.kind.slabClass.allocSlab = MetaSlab.allocSlab := by rw [hk]; rfl
    have htake : MemCache.takeSlab c.kind.slabClass c.kind.objSize c h =
        .ok (pageSize * p, h₂) := by
      rw [I.takeSlab_new hc hw, hcls, hal, ok_bind]
      simp only [hopen, ok_bind]
      rfl
    have K : Settled G h (newSlab G c (pageSize * p) p (q :: t)
        (Function.update G.seq (.freeSlab (pageSize * p)) l)) h₂ :=
      Settled.of_newSlab (not_waiting_empty hw) hstat huse (by simp)
    obtain ⟨o, h', G', hal', I', hh', huse', hfree', K', F'⟩ := I₂.allocate_opened htake K
    refine ⟨o, h', G', hal', I', hh', ?_, fun hw' => absurd hw' hw, ?_, K', ?_⟩
    · intro x hx
      rw [huse'] at hx
      exact lost_of_assign (by simp) hx
    · intro _
      rw [hfree', hfree]
      rfl
    · intro c' hne x hx
      simpa [newSlab] using F' c' hne x hx

/-- `Allocate` of a meta slab cache goes through the null page when no slab
waits and no page is left. -/
theorem allocate_meta_null (I : HeapInv G h caches blocks) (hc : c ∈ caches)
    (hk : c.kind = .metaSlab) (hw : ¬ Waiting G c) (hlen : G.free.length ≤ 1) :
    c.allocate h = .error .nullDeref := by
  have hcls : c.kind.slabClass.allocSlab = MetaSlab.allocSlab := by rw [hk]; rfl
  have hal : MetaSlab.allocSlab c.kind.objSize h = .error .nullDeref := by
    simp only [MetaSlab.allocSlab, I.pages.list.allocPage_null hlen, ok_bind]
    rfl
  rw [CacheRef.allocate, MemCache.allocate, I.takeSlab_new hc hw, hcls, hal]
  rfl

/-- `Free` up to `AdjustSlab`: the slab of the object is in hand, with one
live slot less. -/
theorem free_start (I : HeapInv G h caches blocks) (hh : G.hand = none)
    (hb : .obj c o ∈ blocks)
    (hsite : ∀ c' ∈ caches, c'.site = some o → c ≠ .global .chunk128) :
    ∃ a i h₁ G₁, (c, a) ∈ h.slabs ∧ i ∈ G.live a ∧ o = slotAddr G.page c a i ∧
      c.free o h = MemCache.adjustSlab c.kind.slabClass c a h₁ ∧
      HeapInv G₁ h₁ caches (blocks.erase (.obj c o)) ∧ G₁.hand = some (c, a) ∧
      G₁.use = G.use ∧ G₁.free = G.free ∧ G₁.page = G.page ∧
      G₁.live a = (G.live a).erase i ∧
      (h₁.stat c).slabPg = (h.stat c).slabPg ∧ Settled G h G₁ h₁ := by
  obtain ⟨a, i, hs, hi, ho⟩ := I.block_live hb
  have hpos := c.kind.objSize_pos
  obtain ⟨hpage, hslot⟩ := slotAddr_div (p := G.page) (a := a) (x := o) (I.slot_le hs hi)
    (by omega) (by omega)
  have huse := I.use_page hs
  have hlt := (I.pages.managed (G.page a) (by simp [huse])).1
  have hptr := (I.pages.slab_page _ _ _ huse).1
  obtain ⟨seq', hsub, I₁⟩ := I.detach hh hs
  subst ho
  obtain ⟨h₂, seq'', hfr, hstat, hseq, I₂⟩ := I₁.giveSlot (i := i) rfl hi hb hsite
  have hidx : (slotAddr G.page c a i - pg (slotAddr G.page c a i)) / c.kind.objSize = i := by
    rw [sub_pg]
    exact hslot
  refine ⟨a, i, _, _, hs, hi, rfl, ?_, I₂, rfl, rfl, rfl, rfl, ?_, ?_, ?_⟩
  · rw [CacheRef.free, MemCache.free]
    simp only [MemPages.pageOf, pgnum, hpage, MemPages.deref_pg hlt, ok_bind, hptr, hidx, hfr]
  · simp
  · rw [← show h₂.stat = h.stat from hstat]
    exact slabPg_update_allocated h₂.stat c c _
  · have hsub' : ∀ c', ∀ x ∈ seq'' (.queue c' .empty), x ∈ G.seq (.queue c' .empty) := by
      intro c' x hx
      rw [show seq'' (.queue c' .empty) = seq' (.queue c' .empty) from hseq c' .empty] at hx
      exact hsub _ x hx
    refine Settled.of_kept (Kept.of_use_eq rfl ?_ fun c' _ => hsub' c') ?_ hsub'
    · intro c'
      rw [← show h₂.stat = h.stat from hstat]
      exact maxPg_update_allocated h₂.stat c c' _
    · intro c'
      rw [← show h₂.stat = h.stat from hstat]
      exact .inl (slabPg_update_allocated h₂.stat c c' _).le

/-- `Free` of a meta slab cache. -/
theorem free_meta (I : HeapInv G h caches blocks) (hh : G.hand = none)
    (hk : c.kind = .metaSlab) (hb : .obj c o ∈ blocks) :
    ∃ h' G', c.free o h = .ok h' ∧ HeapInv G' h' caches (blocks.erase (.obj c o)) ∧
      G'.hand = none ∧ (∀ p, G'.use p = .lost → G.use p = .lost) ∧ Settled G h G' h' := by
  have hne : c ≠ .global .chunk128 := by
    rintro rfl
    cases hk
  obtain ⟨a, i, h₁, G₁, hs, hi, -, hfree, I₁, hh₁, huse, -, -, -, -, K₁⟩ :=
    I.free_start hh hb fun _ _ _ => hne
  by_cases hstay : (G₁.live a).card ≠ 0 ∨ (h₁.stat c).slabPg ≤ (h₁.stat c).maxPg
  · obtain ⟨h', G', hadj, I', hh', huse', -, K', -⟩ := I₁.adjust_stay hh₁ hstay
    exact ⟨h', G', hfree.trans hadj, I', hh', by simp [huse', huse], K₁.trans K'⟩
  · rw [not_or, not_not, Finset.card_eq_zero] at hstay
    obtain ⟨h', hfr, I', hstat⟩ := I₁.removeMeta hh₁ hk hstay.1
    have huse₁ := I₁.use_page (I₁.queues.hand_mem c a hh₁)
    refine ⟨h', _, ?_, I', rfl, ?_, K₁.trans ?_⟩
    · rw [hfree, I₁.adjust_reclaim hh₁ hstay.1 (by omega), hk]
      exact hfr
    · intro p hp
      rw [← huse]
      exact lost_of_assign (by simp) hp
    · exact Settled.of_dropSlab hstat rfl (by simp [huse₁]) (by simp) fun _ _ => rfl

/-- `Free` gives the header of a slab up, and with it the page. -/
def Drops (G : Ghost) (h : Heap) (c : CacheRef) (a : Nat) : Prop :=
  c.kind ≠ .metaSlab ∧ (G.live a).card = 1 ∧ (h.stat c).maxPg < (h.stat c).slabPg

/-- `Free` of any cache: the page of the object is lost exactly when the
object was the last one of a slab with a separate header, above the limit. -/
theorem free_spec (I : HeapInv G h caches blocks) (hh : G.hand = none)
    (hb : .obj c o ∈ blocks)
    (hsite : ∀ c' ∈ caches, c'.site = some o → c ≠ .global .chunk128) :
    ∃ a i h' G', (c, a) ∈ h.slabs ∧ i ∈ G.live a ∧ o = slotAddr G.page c a i ∧
      c.free o h = .ok h' ∧ HeapInv G' h' caches (blocks.erase (.obj c o)) ∧
      G'.hand = none ∧ Settled G h G' h' ∧
      ∀ p, G'.use p = .lost ↔ G.use p = .lost ∨ (Drops G h c a ∧ p = G.page a) := by
  by_cases hk : c.kind = .metaSlab
  · obtain ⟨a, i, hs, hi, ho⟩ := I.block_live hb
    obtain ⟨h', G', hfree, I', hh', hlost, K⟩ := I.free_meta hh hk hb
    refine ⟨a, i, h', G', hs, hi, ho, hfree, I', hh', K, ?_⟩
    intro p
    refine ⟨fun hp => Or.inl (hlost p hp), ?_⟩
    rintro (hp | ⟨hd, -⟩)
    · exact K.lost p hp
    · exact absurd hk hd.1
  obtain ⟨a, i, h₁, G₁, hs, hi, ho, hfree, I₁, hh₁, huse, -, hpage, hlive, hpg, K₁⟩ :=
    I.free_start hh hb hsite
  have hmax := K₁.maxPg c
  have hcard : (G₁.live a).card = (G.live a).card - 1 := by
    rw [hlive, Finset.card_erase_of_mem hi]
  have hpos : 0 < (G.live a).card := Finset.card_pos.mpr ⟨i, hi⟩
  by_cases hstay : (G₁.live a).card ≠ 0 ∨ (h₁.stat c).slabPg ≤ (h₁.stat c).maxPg
  · obtain ⟨h', G', hadj, I', hh', huse', -, K', -⟩ := I₁.adjust_stay hh₁ hstay
    refine ⟨a, i, h', G', hs, hi, ho, hfree.trans hadj, I', hh', K₁.trans K', ?_⟩
    have hno : ¬ Drops G h c a := by
      rintro ⟨-, h₁, h₂⟩
      omega
    simp [huse', huse, hno]
  · rw [not_or, not_not] at hstay
    have hempty := Finset.card_eq_zero.mp hstay.1
    have huse₁ := I₁.use_page (I₁.queues.hand_mem c a hh₁)
    have I₂ := I₁.removeData hh₁ hk hempty
    obtain ⟨h', G', hmeta, I', hh', hlost, K'⟩ := I₂.free_meta (c := BaseSlab.metaSlabCache)
      (o := a) rfl rfl (by simp)
    rw [List.erase_cons_head] at I'
    have K₂ : Settled G₁ h₁ { G₁ with use := assign G₁.use [G₁.page a] .lost, hand := none }
        (dropSlab h₁ c a) :=
      Settled.of_dropSlab rfl rfl (by simp [huse₁]) (by simp) fun _ _ => rfl
    refine ⟨a, i, h', G', hs, hi, ho, ?_, I', hh', K₁.trans (K₂.trans K'), ?_⟩
    · rw [hfree, I₁.adjust_reclaim hh₁ hempty (by omega), (CacheKind.Rep.base_eq hk).2.1]
      exact hmeta
    · have hdrops : Drops G h c a := ⟨hk, by omega, by omega⟩
      have hassign : ∀ p, assign G₁.use [G₁.page a] .lost p = .lost ↔
          G.use p = .lost ∨ p = G.page a := by
        intro p
        by_cases he : p = G.page a
        · simp [he, hpage]
        · simp [he, hpage, huse]
      intro p
      have hiff : G'.use p = .lost ↔ assign G₁.use [G₁.page a] .lost p = .lost :=
        ⟨fun hp => hlost p hp, fun hp => K'.lost p hp⟩
      rw [hiff, hassign]
      simp [hdrops]

/-- The first half of `Allocate` of a cache with separate headers when no slab waits: a
header, which may cost a page, and a page. -/
theorem takeSlab_data (I : HeapInv G h caches blocks) (hh : G.hand = none) (hc : c ∈ caches)
    (hk : c.kind ≠ .metaSlab) (hw : ¬ Waiting G c)
    (hok : (Waiting G BaseSlab.metaSlabCache ∧ 2 ≤ G.free.length) ∨ 3 ≤ G.free.length) :
    ∃ a h₁ G₁ p t, MemCache.takeSlab c.kind.slabClass c.kind.objSize c h = .ok (a, h₁) ∧
      HeapInv (newSlab G₁ c a p t G₁.seq) h₁ caches blocks ∧
      (∀ x, G₁.use x = .lost → G.use x = .lost) ∧
      Settled G h (newSlab G₁ c a p t G₁.seq) h₁ := by
  obtain ⟨a, h₁, G₁, hmeta, I₁, hh₁, hlost₁, hfree₁, hfree₁', K₁, F₁⟩ := I.allocate_meta
    (c := BaseSlab.metaSlabCache) hh (I.blocks.globals _) rfl (by
      rcases hok with hm | hm
      · exact Or.inl hm.1
      · exact Or.inr (by omega))
  obtain ⟨p, q, t, hfree⟩ : ∃ p q t, G₁.free = p :: q :: t := by
    have hlen : 2 ≤ G₁.free.length := by
      by_cases hwm : Waiting G BaseSlab.metaSlabCache
      · rw [hfree₁ hwm]
        rcases hok with hm | hm
        · exact hm.2
        · omega
      · rw [hfree₁' hwm, List.length_tail]
        rcases hok with hm | hm
        · exact absurd hm.1 hwm
        · omega
    match hm : G₁.free with
    | [] => simp [hm] at hlen
    | [p] => simp [hm] at hlen
    | p :: q :: t => exact ⟨p, q, t, rfl⟩
  have huse := I₁.free_use hfree
  have hnil : G₁.seq (.queue c .empty) = [] := by
    refine List.eq_nil_iff_forall_not_mem.mpr fun x hx => ?_
    have hx := F₁ c (fun he => hk (by rw [he]; rfl)) x hx
    simp [not_waiting_empty hw] at hx
  obtain ⟨h₂, h₃, hattach, hopen, I₃, hstat⟩ := I₁.addData (a := a) hh₁ (by simp) hc hk hfree
  rw [List.erase_cons_head] at I₃
  refine ⟨a, h₃, G₁, p, q :: t, ?_, I₃, hlost₁,
    K₁.trans (Settled.of_newSlab hnil hstat huse fun _ _ => rfl)⟩
  rw [I.takeSlab_new hc hw, (CacheKind.Rep.base_eq hk).1, BaseSlab.allocSlab]
  rw [CacheRef.allocate] at hmeta
  simp only [show MemCache.allocate MetaSlab.slabClass 64 BaseSlab.metaSlabCache h =
    .ok (a, h₁) from hmeta, ok_bind, hattach]
  change (MemCache.openSlab c.kind.slabClass c.kind.objSize c a h₂ >>= _) = _
  rw [hopen]
  rfl

/-- `Allocate` of a cache with separate headers takes a new slab only when
none waits. -/
theorem allocate_data (I : HeapInv G h caches blocks) (hh : G.hand = none) (hc : c ∈ caches)
    (hk : c.kind ≠ .metaSlab)
    (hok : Waiting G c ∨ (Waiting G BaseSlab.metaSlabCache ∧ 2 ≤ G.free.length) ∨
      3 ≤ G.free.length) :
    ∃ o h' G', c.allocate h = .ok (o, h') ∧ HeapInv G' h' caches (.obj c o :: blocks) ∧
      G'.hand = none ∧ (∀ p, G'.use p = .lost → G.use p = .lost) ∧ Settled G h G' h' := by
  by_cases hw : Waiting G c
  · obtain ⟨o, h', G', hal, I', hh', huse, -, K, -⟩ := I.allocate_waiting hh hc hw
    exact ⟨o, h', G', hal, I', hh', by simp [huse], K⟩
  · obtain ⟨a, h₁, G₁, p, t, htake, I₁, hlost₁, K₁⟩ :=
      I.takeSlab_data hh hc hk hw (hok.resolve_left hw)
    obtain ⟨o, h', G', hal', I', hh', huse', -, K', -⟩ := I₁.allocate_opened htake K₁
    refine ⟨o, h', G', hal', I', hh', ?_, K'⟩
    intro x hx
    rw [huse'] at hx
    exact hlost₁ x (lost_of_assign (by simp) hx)

/-- In every other state `Allocate` goes through the null page. -/
theorem allocate_data_null (I : HeapInv G h caches blocks) (hh : G.hand = none)
    (hc : c ∈ caches) (hk : c.kind ≠ .metaSlab)
    (hno : ¬ (Waiting G c ∨ (Waiting G BaseSlab.metaSlabCache ∧ 2 ≤ G.free.length) ∨
      3 ≤ G.free.length)) : c.allocate h = .error .nullDeref := by
  rw [not_or, not_or] at hno
  obtain ⟨hw, hm, h3⟩ := hno
  rw [CacheRef.allocate, MemCache.allocate, I.takeSlab_new hc hw, (CacheKind.Rep.base_eq hk).1,
    BaseSlab.allocSlab]
  by_cases hok : Waiting G BaseSlab.metaSlabCache ∨ 2 ≤ G.free.length
  · obtain ⟨a, h₁, G₁, hmeta, I₁, -, -, hfree₁, hfree₁', -⟩ := I.allocate_meta
      (c := BaseSlab.metaSlabCache) hh (I.blocks.globals _) rfl hok
    have hlen : G₁.free.length ≤ 1 := by
      by_cases hwm : Waiting G BaseSlab.metaSlabCache
      · rw [hfree₁ hwm]
        have : ¬ 2 ≤ G.free.length := fun h2 => hm ⟨hwm, h2⟩
        omega
      · rw [hfree₁' hwm, List.length_tail]
        omega
    rw [CacheRef.allocate] at hmeta
    simp only [show MemCache.allocate MetaSlab.slabClass 64 BaseSlab.metaSlabCache h =
      .ok (a, h₁) from hmeta, ok_bind, BaseSlab.attachPage,
      I₁.pages.list.allocPage_null hlen]
    rfl
  · rw [not_or] at hok
    have hmeta := I.allocate_meta_null (c := BaseSlab.metaSlabCache) (I.blocks.globals _) rfl
      hok.1 (by omega)
    rw [CacheRef.allocate] at hmeta
    simp only [show MemCache.allocate MetaSlab.slabClass 64 BaseSlab.metaSlabCache h =
      .error .nullDeref from hmeta]
    rfl

/-- The states in which `Allocate` of a cache finds what it needs. -/
def Ready (G : Ghost) (c : CacheRef) : Prop :=
  Waiting G c ∨ if c.kind = .metaSlab then 2 ≤ G.free.length
    else (Waiting G BaseSlab.metaSlabCache ∧ 2 ≤ G.free.length) ∨ 3 ≤ G.free.length

/-- `Allocate` of any cache. -/
theorem allocate_ready (I : HeapInv G h caches blocks) (hh : G.hand = none) (hc : c ∈ caches)
    (hr : Ready G c) :
    ∃ o h' G', c.allocate h = .ok (o, h') ∧ HeapInv G' h' caches (.obj c o :: blocks) ∧
      G'.hand = none ∧ (∀ p, G'.use p = .lost → G.use p = .lost) ∧ Settled G h G' h' := by
  by_cases hk : c.kind = .metaSlab
  · rw [Ready, if_pos hk] at hr
    obtain ⟨o, h', G', hal, I', hh', hlost, -, -, K, -⟩ := I.allocate_meta hh hc hk hr
    exact ⟨o, h', G', hal, I', hh', hlost, K⟩
  · rw [Ready, if_neg hk] at hr
    exact I.allocate_data hh hc hk hr

theorem allocate_not_ready (I : HeapInv G h caches blocks) (hh : G.hand = none)
    (hc : c ∈ caches) (hr : ¬ Ready G c) : c.allocate h = .error .nullDeref := by
  by_cases hk : c.kind = .metaSlab
  · rw [Ready, if_pos hk, not_or] at hr
    exact I.allocate_meta_null hc hk hr.1 (by omega)
  · rw [Ready, if_neg hk] at hr
    exact I.allocate_data_null hh hc hk hr

end HeapInv

end Chestnut
