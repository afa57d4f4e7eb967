import Chestnut.Lib.Reach
import Chestnut.Slab.Kernel

/-!
# Whole runs of the heap

The heap beside its caches and the blocks that callers hold. A caller frees
only what it holds, and a block goes back the way it came: through
`kernel::Free` for blocks of `kernel::Alloc` and objects of the global
caches, through `Free` of the cache otherwise. The memory of a cache made by
`CreateNew` is never freed, as the interface has no call that ends a cache.
-/

namespace Chestnut

open Lib

namespace Block

/-- The pointer that the caller has. -/
def addr : Block → Nat
  | .obj _ a => a
  | .pages s _ => pageSize * s

/-- The bytes that belong to the caller. -/
def size : Block → Nat
  | .obj c _ => c.kind.objSize
  | .pages _ n => n * pageSize

end Block

/-- The calls of the heap. -/
inductive HeapOp
  | alloc (s : Nat)
  | free (b : Option Block)
  | allocate (c : CacheRef)
  | release (c : CacheRef) (o : Nat)
  | setMaxPage (c : CacheRef) (n : Nat)
  | createNew (c : CacheRef)
  deriving DecidableEq, Repr

/-- The heap, its caches and the blocks that callers hold. -/
structure HeapWorld where
  heap : Heap
  caches : List CacheRef
  blocks : List Block

namespace HeapWorld

/-- The block that `kernel::Alloc(s)` returns at an address. -/
def block (s addr : Nat) : Block :=
  if 2048 < s then .pages (pgnum addr) (Kernel.nrPages s)
  else .obj (.global (Kernel.chunkOf s)) addr

def step (w : HeapWorld) : HeapOp → Except Fault HeapWorld
  | .alloc s => do
      let (addr, h) ← Kernel.alloc s w.heap
      return { w with heap := h, blocks := block s addr :: w.blocks }
  | .free none => do
      let h ← Kernel.free none w.heap
      return { w with heap := h }
  | .free (some b) => do
      let h ← Kernel.free (some b.addr) w.heap
      return { w with heap := h, blocks := w.blocks.erase b }
  | .allocate c => do
      let (addr, h) ← c.allocate w.heap
      return { w with heap := h, blocks := .obj c addr :: w.blocks }
  | .release c o => do
      let h ← c.free o w.heap
      return { w with heap := h, blocks := w.blocks.erase (.obj c o) }
  | .setMaxPage c n => .ok { w with heap := c.setMaxPage n w.heap }
  | .createNew c => do
      let (new, h) ← c.createNew w.heap
      return { heap := h, caches := new :: w.caches,
               blocks := .obj (.global .chunk128) (new.site.getD 0) :: w.blocks }

/-- No cache lives in the object. -/
def NoCacheAt (w : HeapWorld) (o : Nat) : Prop := ∀ c ∈ w.caches, c.site ≠ some o

/-- What a caller may ask for. -/
def Allowed (w : HeapWorld) : HeapOp → Prop
  | .alloc s => 1 ≤ s ∧ s ≤ 2 ^ 31 - pageSize ∧
      (2048 < s → Kernel.nrPages s ≤ w.heap.pages.nrPageStructs)
  | .free none => True
  | .free (some (.obj c o)) => .obj c o ∈ w.blocks ∧ w.NoCacheAt o ∧
      ∃ k, k ≠ .metaSlab ∧ c = .global k
  | .free (some (.pages s n)) => .pages s n ∈ w.blocks
  | .allocate c => c ∈ w.caches
  | .release c o => .obj c o ∈ w.blocks ∧ w.NoCacheAt o
  | .setMaxPage c _ => c ∈ w.caches
  | .createNew c => c ∈ w.caches

instance (w : HeapWorld) (o : Nat) : Decidable (w.NoCacheAt o) :=
  inferInstanceAs (Decidable (∀ c ∈ w.caches, c.site ≠ some o))

theorem chunk_iff (c : CacheRef) :
    c.kind ≠ .metaSlab ∧ c.site = none ↔ ∃ k, k ≠ CacheKind.metaSlab ∧ c = .global k := by
  constructor
  · rintro ⟨hk, hs⟩
    exact ⟨c.kind, hk, by cases c; cases hs; rfl⟩
  · rintro ⟨k, hk, rfl⟩
    exact ⟨hk, rfl⟩

instance (c : CacheRef) : Decidable (∃ k, k ≠ CacheKind.metaSlab ∧ c = .global k) :=
  decidable_of_iff _ (chunk_iff c)

instance (w : HeapWorld) (op : HeapOp) : Decidable (w.Allowed op) :=
  match op with
  | .alloc _ => inferInstanceAs (Decidable (_ ∧ _ ∧ (_ → _)))
  | .free none => inferInstanceAs (Decidable True)
  | .free (some (.obj _ _)) => inferInstanceAs (Decidable (_ ∧ _ ∧ _))
  | .free (some (.pages _ _)) => inferInstanceAs (Decidable (_ ∈ _))
  | .allocate _ => inferInstanceAs (Decidable (_ ∈ _))
  | .release _ _ => inferInstanceAs (Decidable (_ ∧ _))
  | .setMaxPage _ _ => inferInstanceAs (Decidable (_ ∈ _))
  | .createNew _ => inferInstanceAs (Decidable (_ ∈ _))

/-- The heap right after `InitSlab`. -/
def initial (m : MemPages) (nodes : Links NodeRef) (slab : Nat → SlabRec) : HeapWorld :=
  ⟨Kernel.initSlab m nodes slab, globalCaches, []⟩

/-- The worlds that allowed, completed calls lead to from `InitSlab`. -/
def Reachable (m : MemPages) (nodes : Links NodeRef) (slab : Nat → SlabRec) :
    HeapWorld → Prop :=
  Reach step Allowed (initial m nodes slab)

/-- `Free` of the object empties a slab with a separate header while its
cache is above the limit. -/
def Drops (w : HeapWorld) (c : CacheRef) (o : Nat) : Prop :=
  c.kind ≠ .metaSlab ∧ (w.heap.stat c).maxPg < (w.heap.stat c).slabPg ∧
    ∀ o', .obj c o' ∈ w.blocks → pgnum o' = pgnum o → o' = o

/-- The calls that give a slab with a separate header up. -/
def DropsPage (w : HeapWorld) : HeapOp → Prop
  | .free (some (.obj c o)) => w.Drops c o
  | .release c o => w.Drops c o
  | _ => False

/-- Every limit is 0 and no empty slab is kept. -/
def Tight (G : Ghost) (w : HeapWorld) : Prop :=
  ∀ c ∈ w.caches, (w.heap.stat c).maxPg = 0 ∧ G.seq (.queue c .empty) = []

/-- What a call does to the pages and the limits. -/
structure Advance (G : Ghost) (w : HeapWorld) (op : HeapOp) (G' : Ghost) (w' : HeapWorld) :
    Prop where
  unmanaged : ∀ p, G'.use p = .unmanaged ↔ G.use p = .unmanaged
  lost : (∃ p, G'.use p = .lost) ↔ (∃ p, G.use p = .lost) ∨ w.DropsPage op
  tight : (∀ c n, op ≠ .setMaxPage c n) → Tight G w → Tight G' w'

/-- The call does not change the limit of the cache. -/
def KeepsLimit (w : HeapWorld) (c : CacheRef) (op : HeapOp) : Prop :=
  ∀ n, op = .setMaxPage c n → n = (w.heap.stat c).maxPg

/-- Besides, a cache whose limit stays keeps no more empty slabs than that. -/
structure Moves (G : Ghost) (w : HeapWorld) (op : HeapOp) (G' : Ghost) (w' : HeapWorld) : Prop
    extends Advance G w op G' w' where
  caches : ∀ c ∈ w.caches, c ∈ w'.caches
  maxPg : ∀ c ∈ w.caches, w.KeepsLimit c op → (w'.heap.stat c).maxPg = (w.heap.stat c).maxPg
  retained : ∀ c ∈ w.caches, w.KeepsLimit c op → Retained G w.heap c → Retained G' w'.heap c

/-- The calls that lose no page. -/
theorem Moves.of_settled {G G' : Ghost} {w w' : HeapWorld} {op : HeapOp}
    (K : Settled G w.heap G' w'.heap) (hlost : ∀ p, G'.use p = .lost → G.use p = .lost)
    (hdrop : ¬ w.DropsPage op) (hc : w'.caches = w.caches) : Moves G w op G' w' := by
  refine ⟨⟨K.unmanaged, ?_, ?_⟩, fun c hm => hc ▸ hm, fun c _ _ => K.maxPg c,
    fun c _ _ hr => K.retained c hr⟩
  · rw [or_iff_left hdrop]
    exact exists_congr fun p => ⟨hlost p, K.lost p⟩
  · intro _ ht c hm
    obtain ⟨h0, he⟩ := ht c (hc ▸ hm)
    exact ⟨(K.maxPg c).trans h0, K.empty c h0 he⟩

/-- A new cache comes with empty queues and no limit, and the others stay. -/
theorem Moves.construct {G G' : Ghost} {w : HeapWorld} {c new : CacheRef} {h' : Heap}
    (K : Settled G w.heap G' h') (hlost : ∀ p, G'.use p = .lost → G.use p = .lost)
    (hnew : new ∉ w.caches) (blocks : List Block) :
    Moves G w (.createNew c) { G' with seq := clearQueues G'.seq new }
      ⟨new.construct h', new :: w.caches, blocks⟩ := by
  have hstat : ∀ c', c' ≠ new → (new.construct h').stat c' = h'.stat c' :=
    fun c' he => Function.update_of_ne he _ _
  have hseq : ∀ c', c' ≠ new →
      clearQueues G'.seq new (.queue c' .empty) = G'.seq (.queue c' .empty) :=
    fun c' he => clearQueues_of_ne (by simp [he])
  have hold : ∀ c' ∈ w.caches, c' ≠ new := by
    rintro c' hc' rfl
    exact hnew hc'
  refine ⟨⟨K.unmanaged, ?_, ?_⟩, fun _ hm => List.mem_cons_of_mem _ hm, ?_, ?_⟩
  · refine Iff.trans ?_ (or_iff_left fun hd => hd).symm
    exact exists_congr fun p => ⟨hlost p, K.lost p⟩
  · intro _ ht c' hc'
    by_cases he : c' = new
    · subst he
      change (Function.update h'.stat _ {} _).maxPg = 0 ∧ clearQueues G'.seq _ _ = []
      simp
    · obtain ⟨h0, hnil⟩ := ht c' ((List.mem_cons.mp hc').resolve_left he)
      rw [hstat c' he]
      exact ⟨(K.maxPg c').trans h0, (hseq c' he).trans (K.empty c' h0 hnil)⟩
  · intro c' hc' _
    rw [hstat c' (hold c' hc')]
    exact K.maxPg c'
  · intro c' hc' _ hr
    rw [Retained, hstat c' (hold c' hc')]
    exact (K.retained c' hr).imp_left (hseq c' (hold c' hc')).trans

variable {G : Ghost} {w : HeapWorld} {c : CacheRef} {o : Nat}

/-- The object is the last one of its slab exactly when no other object that
a caller holds lies in its page. -/
theorem drops_iff (I : HeapInv G w.heap w.caches w.blocks) {a i : Nat}
    (hs : (c, a) ∈ w.heap.slabs) (hi : i ∈ G.live a) (ho : o = slotAddr G.page c a i) :
    HeapInv.Drops G w.heap c a ↔ w.Drops c o := by
  have hpos := c.kind.objSize_pos
  have hpage : ∀ j ∈ G.live a, pgnum (slotAddr G.page c a j) = G.page a := fun j hj =>
    (slotAddr_div (I.slot_le hs hj) le_rfl (by omega)).1
  refine and_congr_right fun hk => ?_
  rw [and_comm]
  refine and_congr_right fun _ => ?_
  constructor
  · intro hone o' hb hp
    obtain ⟨a', j, hs', hj, ho'⟩ := I.block_live hb
    have hp' := (slotAddr_div (p := G.page) (a := a') (x := o') (I.slot_le hs' hj) (by omega)
      (by omega)).1
    rw [ho, hpage i hi, pgnum, hp'] at hp
    obtain ⟨-, rfl⟩ := I.slab_unique hs' hs hp
    obtain ⟨x, hx⟩ := Finset.card_eq_one.mp hone
    rw [hx, Finset.mem_singleton] at hi hj
    rw [ho', ho, hi, hj]
  · intro honly
    rw [Finset.card_eq_one]
    refine ⟨i, Finset.eq_singleton_iff_unique_mem.mpr ⟨hi, fun j hj => ?_⟩⟩
    have hheld := (I.blocks.held_iff c (slotAddr G.page c a j)).mpr ⟨a, j, hs, hj, rfl⟩
    rcases hheld with hb | ⟨rfl, -⟩
    · have he := honly _ hb (by rw [ho, hpage i hi, hpage j hj])
      rw [ho] at he
      exact (I.slotAddr_inj hs (I.slot_le hs hj) hs (I.slot_le hs hi) he).2.2
    · exact absurd rfl hk

/-- `Free` of a cache, as a step of the world. -/
theorem release_spec (I : HeapInv G w.heap w.caches w.blocks) (hh : G.hand = none)
    (hb : .obj c o ∈ w.blocks) (hfree : w.NoCacheAt o) (op : HeapOp)
    (hop : w.DropsPage op ↔ w.Drops c o) :
    ∃ h' G', c.free o w.heap = .ok h' ∧
      HeapInv G' h' w.caches (w.blocks.erase (.obj c o)) ∧ G'.hand = none ∧
      Moves G w op G' { w with heap := h', blocks := w.blocks.erase (.obj c o) } := by
  obtain ⟨a, i, h', G', hs, hi, ho, hfr, I', hh', K, hlost⟩ :=
    I.free_spec hh hb fun c' hc' he => absurd he (hfree c' hc')
  refine ⟨h', G', hfr, I', hh', ⟨K.unmanaged, ?_, ?_⟩, fun _ hm => hm, fun c _ _ => K.maxPg c,
    fun c _ _ hr => K.retained c hr⟩
  · rw [hop, ← drops_iff I hs hi ho]
    constructor
    · rintro ⟨p, hp⟩
      rcases (hlost p).mp hp with hp | ⟨hd, -⟩
      · exact Or.inl ⟨p, hp⟩
      · exact Or.inr hd
    · rintro (⟨p, hp⟩ | hd)
      · exact ⟨p, (hlost p).mpr (Or.inl hp)⟩
      · exact ⟨G.page a, (hlost _).mpr (Or.inr ⟨hd, rfl⟩)⟩
  · intro _ ht c' hc'
    obtain ⟨h0, he⟩ := ht c' hc'
    exact ⟨(K.maxPg c').trans h0, K.empty c' h0 he⟩

/-- A new limit leaves the counters as they are. -/
theorem setMaxPage_spec {h : Heap} {caches : List CacheRef} {blocks : List Block}
    (T : StatsOk h.stat h.slabs blocks caches) (c : CacheRef) (n : Nat) :
    StatsOk (c.setMaxPage n h).stat h.slabs blocks caches ∧
      ∀ c', (∀ k, HeapOp.setMaxPage c n = .setMaxPage c' k → k = (h.stat c').maxPg) →
        (c.setMaxPage n h).stat c' = h.stat c' := by
  change StatsOk (Function.update h.stat c { h.stat c with maxPg := n }) _ _ _ ∧
    ∀ c', _ → Function.update h.stat c { h.stat c with maxPg := n } c' = h.stat c'
  refine ⟨⟨?_, ?_⟩, ?_⟩ <;> intro c' hc' <;> by_cases he : c' = c
  · subst he
    simpa using T.slabPg c' hc'
  · rw [Function.update_of_ne he]
    exact T.slabPg c' hc'
  · subst he
    simpa using T.allocated c' hc'
  · rw [Function.update_of_ne he]
    exact T.allocated c' hc'
  · subst he
    rw [Function.update_self, hc' n rfl]
  · exact Function.update_of_ne he _ _

/-- One call faults for want of memory, or takes the invariant to the next state. -/
def Advances (G : Ghost) (w : HeapWorld) (op : HeapOp) : Prop :=
  w.step op = .error .nullDeref ∨ ∃ w' G', w.step op = .ok w' ∧
    HeapInv G' w'.heap w'.caches w'.blocks ∧ G'.hand = none ∧ Moves G w op G' w'

theorem advances_alloc (I : HeapInv G w.heap w.caches w.blocks) (hh : G.hand = none) {s : Nat}
    (ha : w.Allowed (.alloc s)) : Advances G w (.alloc s) := by
  obtain ⟨h1, hmax, hnr⟩ := ha
  by_cases hs : 2048 < s
  · by_cases hok : PagesOk.Served w.heap.pages G.free (Kernel.nrPages s)
    · obtain ⟨i, h', G', hal, I', hh', hlost, K⟩ := I.alloc_pages hs hmax (hnr hs) hok
      refine Or.inr ⟨{ w with heap := h', blocks := .pages i (Kernel.nrPages s) :: w.blocks },
        G', ?_, I', hh'.trans hh, Moves.of_settled K hlost (fun hd => hd) rfl⟩
      simp only [step, hal, ok_bind, block, if_pos hs, pgnum_page]
      rfl
    · refine Or.inl ?_
      have hnull := I.pages.allocPages_null (n := Kernel.nrPages s) (Nat.le_add_left 1 _)
        (hnr hs) hok
      simp only [step, Kernel.alloc_large hs, hnull, ok_bind]
      rfl
  · have hle : s ≤ 2048 := by omega
    by_cases hr : HeapInv.Ready G (.global (Kernel.chunkOf s))
    · obtain ⟨addr, h', G', hal, I', hh', hlost, K⟩ :=
        I.allocate_ready hh (I.blocks.globals _) hr
      refine Or.inr ⟨{ w with
        heap := h', blocks := .obj (.global (Kernel.chunkOf s)) addr :: w.blocks }, G', ?_,
        I', hh', Moves.of_settled K hlost (fun hd => hd) rfl⟩
      simp only [step, Kernel.alloc_small h1 hle, hal, ok_bind, block, if_neg hs]
      rfl
    · refine Or.inl ?_
      simp only [step, Kernel.alloc_small h1 hle,
        I.allocate_not_ready hh (I.blocks.globals _) hr]
      rfl

theorem advances_free (I : HeapInv G w.heap w.caches w.blocks) (hh : G.hand = none)
    {b : Option Block} (ha : w.Allowed (.free b)) : Advances G w (.free b) := by
  match b, ha with
  | none, _ =>
      refine Or.inr ⟨w, G, rfl, I, hh, ⟨fun _ => Iff.rfl, ?_, fun _ ht => ht⟩,
        fun _ hm => hm, fun _ _ _ => rfl, fun _ _ _ hr => hr⟩
      exact (or_iff_left fun hd => hd).symm
  | some (.obj c o), ⟨hb, hfree, k, hk, hc⟩ =>
      obtain ⟨h', G', hfr, I', hh', A⟩ :=
        release_spec I hh hb hfree (.free (some (.obj c o))) Iff.rfl
      refine Or.inr ⟨_, G', ?_, I', hh', A⟩
      subst hc
      simp only [step, Block.addr, I.free_obj hk hb, hfr]
      rfl
  | some (.pages s n), hb =>
      obtain ⟨h', G', hfr, I', hh', hlost, K, -⟩ := I.free_pages hb
      refine Or.inr ⟨{ w with heap := h', blocks := w.blocks.erase (.pages s n) }, G', ?_, I',
        hh'.trans hh, Moves.of_settled K hlost (fun hd => hd) rfl⟩
      simp only [step, Block.addr, hfr]
      rfl

theorem advances_createNew (I : HeapInv G w.heap w.caches w.blocks) (hh : G.hand = none)
    (c : CacheRef) : Advances G w (.createNew c) := by
  have hfit : Kernel.fitGlobalMemCache Kernel.sizeofMemCache = .ok (.global .chunk128) := rfl
  by_cases hr : HeapInv.Ready G (.global .chunk128)
  · obtain ⟨addr, h', G', hal, I', hh', hlost, K⟩ :=
      I.allocate_ready hh (I.blocks.globals .chunk128) hr
    have hnew : (⟨c.kind, some addr⟩ : CacheRef) ∉ w.caches := by
      intro hm
      exact (List.nodup_cons.mp I'.blocks.nodup).1 (I.blocks.site _ hm addr rfl)
    refine Or.inr ⟨⟨(⟨c.kind, some addr⟩ : CacheRef).construct h',
        ⟨c.kind, some addr⟩ :: w.caches, .obj (.global .chunk128) addr :: w.blocks⟩,
      { G' with seq := clearQueues G'.seq ⟨c.kind, some addr⟩ }, ?_,
      I'.construct hnew rfl (by simp), hh', Moves.construct K hlost hnew _⟩
    simp only [step, CacheRef.createNew, hfit, hal, ok_bind]
    rfl
  · refine Or.inl ?_
    simp only [step, CacheRef.createNew, hfit, ok_bind,
      I.allocate_not_ready hh (I.blocks.globals _) hr]
    rfl

/-- Every allowed call completes or goes through a null page, and a completed
call keeps the invariant. -/
theorem step_spec (I : HeapInv G w.heap w.caches w.blocks) (hh : G.hand = none) {op : HeapOp}
    (ha : w.Allowed op) :
    w.step op = .error .nullDeref ∨ ∃ w' G', w.step op = .ok w' ∧
      HeapInv G' w'.heap w'.caches w'.blocks ∧ G'.hand = none ∧ Moves G w op G' w' := by
  cases op with
  | alloc s => exact advances_alloc I hh ha
  | free b => exact advances_free I hh ha
  | allocate c =>
      by_cases hr : HeapInv.Ready G c
      · obtain ⟨addr, h', G', hal, I', hh', hlost, K⟩ := I.allocate_ready hh ha hr
        refine Or.inr ⟨{ w with heap := h', blocks := .obj c addr :: w.blocks }, G', ?_, I', hh',
          Moves.of_settled K hlost (fun hd => hd) rfl⟩
        simp only [step, hal]
        rfl
      · refine Or.inl ?_
        simp only [step, I.allocate_not_ready hh ha hr]
        rfl
  | release c o =>
      obtain ⟨h', G', hfr, I', hh', A⟩ :=
        release_spec I hh ha.1 ha.2 (.release c o) Iff.rfl
      refine Or.inr ⟨_, G', ?_, I', hh', A⟩
      simp only [step, hfr]
      rfl
  | setMaxPage c n =>
      obtain ⟨hstats, hkeep⟩ := setMaxPage_spec I.stats c n
      exact Or.inr ⟨_, G, rfl, ⟨I.pages, I.slabs, I.headers, I.queues, hstats, I.blocks⟩, hh,
        ⟨fun _ => Iff.rfl, (or_iff_left fun hd => hd).symm, fun hne => absurd rfl (hne c n)⟩,
        fun _ hm => hm, fun c' _ hl => congrArg Stat.maxPg (hkeep c' hl),
        fun c' _ hl hr => by rwa [Retained, hkeep c' hl]⟩
  | createNew c => exact advances_createNew I hh c

/-- The heap of a machine with `n` free pages. -/
def machine (n : Nat) : HeapWorld :=
  initial (MemPages.line n) ⟨fun x => x, fun x => x⟩ fun _ => {}

end HeapWorld

end Chestnut
