import Chestnut.Slab.Classes
import Chestnut.Pages.FreeList

/-!
# The heap invariant

What a heap stands for is kept beside it: which page serves which purpose,
which slots of each slab are live, and what every list holds. The invariant
ties this picture to the heap, part by part: the page records, the slab
headers, the lists, the counters and the blocks that callers hold.

## Implementation notes

Each part mentions only the components of the heap it is about, so an update
of one component leaves the other parts as they are. A slab that an operation
has unlinked and not yet filed again is `hand`.
-/

namespace Chestnut

open Lib

/-- What a physical page is used for. A page is `lost` when no header, list
or caller refers to it any more and it is not free. -/
inductive PageUse
  | unmanaged
  | free
  | slab (c : CacheRef) (a : Nat)
  | big (start n : Nat)
  | lost
  deriving DecidableEq

/-- A piece of memory that a caller holds. -/
inductive Block
  | obj (c : CacheRef) (addr : Nat)
  | pages (start n : Nat)
  deriving DecidableEq, Repr

/-- Whether a block is an object of a cache. -/
def Block.isObj (c : CacheRef) : Block → Bool
  | .obj c' _ => c' == c
  | .pages _ _ => false

/-- What the heap stands for. -/
structure Ghost where
  use : Nat → PageUse
  free : List Nat
  page : Nat → Nat
  live : Nat → Finset Nat
  seq : NodeRef → List Nat
  hand : Option (CacheRef × Nat)

/-- The queue that a slab with `n` of `cap` slots live belongs to. -/
def Queue.Holds (cap n : Nat) : Queue → Prop
  | .full => n = cap
  | .half => n ≠ 0 ∧ n ≠ cap
  | .empty => n = 0

/-- The nodes that head a list. -/
def listHeads (caches : List CacheRef) (slabs : List (CacheRef × Nat)) : Set NodeRef
  | .queue c _ => c ∈ caches
  | .freeSlab m => ∃ c, (c, m) ∈ slabs ∧ c.kind = .metaSlab
  | .node _ => False

/-- The address of a slot. -/
def slotAddr (page : Nat → Nat) (c : CacheRef) (a : Nat) (i : Nat) : Nat :=
  pageSize * page a + i * c.kind.objSize

/-- An object of `c` is out. -/
def LiveAt (page : Nat → Nat) (live : Nat → Finset Nat) (slabs : List (CacheRef × Nat))
    (c : CacheRef) (o : Nat) : Prop :=
  ∃ a i, (c, a) ∈ slabs ∧ i ∈ live a ∧ o = slotAddr page c a i

/-- An object of `c` is held by a caller, or is the header of a slab. -/
def HeldAt (slabs : List (CacheRef × Nat)) (blocks : List Block) (c : CacheRef) (o : Nat) :
    Prop :=
  .obj c o ∈ blocks ∨
    (c = BaseSlab.metaSlabCache ∧ ∃ c', c'.kind ≠ .metaSlab ∧ (c', o) ∈ slabs)

/-- The page records. -/
structure PagesOk (m : MemPages) (use : Nat → PageUse) (free : List Nat) : Prop where
  list : MemPages.FreeList m free
  free_iff : ∀ p, use p = .free ↔ p ∈ free
  managed : ∀ p, use p ≠ .unmanaged →
    p < m.nrPageStructs ∧ (m.page (.pg p)).phyaddr = pageSize * p
  slab_page : ∀ p c a, use p = .slab c a →
    (m.page (.pg p)).slabPtr = a ∧ (m.page (.pg p)).slabObjSize = c.kind.objSize
  big_page : ∀ s n, use s = .big s n → (m.page (.pg s)).slabObjSize = n * pageSize

/-- The slabs in use and their pages. -/
structure SlabsOk (use : Nat → PageUse) (page : Nat → Nat) (slabs : List (CacheRef × Nat))
    (caches : List CacheRef) : Prop where
  nodup : slabs.Nodup
  use_iff : ∀ p c a, use p = .slab c a ↔ (c, a) ∈ slabs ∧ page a = p
  cache_mem : ∀ c a, (c, a) ∈ slabs → c ∈ caches
  meta_addr : ∀ c a, (c, a) ∈ slabs → c.kind = .metaSlab → a = pageSize * page a

/-- The slab headers. -/
structure HeadersOk (slab : Nat → SlabRec) (page : Nat → Nat) (live : Nat → Finset Nat)
    (slabs : List (CacheRef × Nat)) : Prop where
  data_page : ∀ c a, (c, a) ∈ slabs → c.kind ≠ .metaSlab → (slab a).dataPage = .pg (page a)
  rep : ∀ c a, (c, a) ∈ slabs → c.kind.Rep (slab a) (live a)

/-- The queues of the caches and the free headers of the meta slabs. -/
structure QueuesOk (nodes : Links NodeRef) (seq : NodeRef → List Nat)
    (live : Nat → Finset Nat) (hand : Option (CacheRef × Nat))
    (slabs : List (CacheRef × Nat)) (caches : List CacheRef) : Prop where
  rings : Rings nodes (listHeads caches slabs) fun hd => (seq hd).map .node
  placed : ∀ c a q, (c, a) ∈ slabs →
    (a ∈ seq (.queue c q) ↔ hand ≠ some (c, a) ∧ q.Holds c.kind.cap (live a).card)
  queue_mem : ∀ c a q, c ∈ caches → a ∈ seq (.queue c q) → (c, a) ∈ slabs
  header_iff : ∀ c m a, (c, m) ∈ slabs → c.kind = .metaSlab →
    (a ∈ seq (.freeSlab m) ↔ ∃ i, 1 ≤ i ∧ i < 64 ∧ i ∉ live m ∧ a = m + 64 * i)
  hand_mem : ∀ c a, hand = some (c, a) → (c, a) ∈ slabs

/-- The counters of the caches. -/
structure StatsOk (stat : CacheRef → Stat) (slabs : List (CacheRef × Nat))
    (blocks : List Block) (caches : List CacheRef) : Prop where
  slabPg : ∀ c ∈ caches, (stat c).slabPg = slabs.countP (·.1 = c)
  allocated : ∀ c ∈ caches, (stat c).allocated = blocks.countP (·.isObj c) +
    if c = BaseSlab.metaSlabCache then slabs.countP (·.1.kind ≠ .metaSlab) else 0

/-- The blocks that callers hold. -/
structure BlocksOk (use : Nat → PageUse) (page : Nat → Nat) (live : Nat → Finset Nat)
    (slabs : List (CacheRef × Nat)) (blocks : List Block) (caches : List CacheRef) : Prop where
  nodup : blocks.Nodup
  held_iff : ∀ c o, HeldAt slabs blocks c o ↔ LiveAt page live slabs c o
  not_header : ∀ o, .obj BaseSlab.metaSlabCache o ∈ blocks → ∀ c, c.kind ≠ .metaSlab →
    (c, o) ∉ slabs
  big_use : ∀ s n, .pages s n ∈ blocks → 1 ≤ n ∧ ∀ p, s ≤ p → p < s + n → use p = .big s n
  of_big : ∀ p s n, use p = .big s n → .pages s n ∈ blocks ∧ s ≤ p ∧ p < s + n
  globals : ∀ k, CacheRef.global k ∈ caches
  site : ∀ c ∈ caches, ∀ o, c.site = some o → .obj (.global .chunk128) o ∈ blocks

/-- The heap invariant. -/
structure HeapInv (G : Ghost) (h : Heap) (caches : List CacheRef) (blocks : List Block) :
    Prop where
  pages : PagesOk h.pages G.use G.free
  slabs : SlabsOk G.use G.page h.slabs caches
  headers : HeadersOk h.slab G.page G.live h.slabs
  queues : QueuesOk h.nodes G.seq G.live G.hand h.slabs caches
  stats : StatsOk h.stat h.slabs blocks caches
  blocks : BlocksOk G.use G.page G.live h.slabs blocks caches

/-- Page and slot of an address inside a slot. -/
theorem slot_div {p i sz d : Nat} (hle : (i + 1) * sz ≤ pageSize) (hd : d < sz) :
    (pageSize * p + (i * sz + d)) / pageSize = p ∧
      (pageSize * p + (i * sz + d)) % pageSize / sz = i := by
  have hlt : i * sz + d < pageSize := by
    calc i * sz + d < i * sz + sz := by omega
      _ = (i + 1) * sz := by rw [Nat.add_mul, Nat.one_mul]
      _ ≤ pageSize := hle
  constructor
  · rw [Nat.mul_add_div (by decide), Nat.div_eq_of_lt hlt, Nat.add_zero]
  · rw [Nat.mul_add_mod, Nat.mod_eq_of_lt hlt, Nat.mul_comm i, Nat.mul_add_div (by omega),
      Nat.div_eq_of_lt hd, Nat.add_zero]

theorem slotAddr_div {p : Nat → Nat} {c : CacheRef} {a i x : Nat}
    (hle : (i + 1) * c.kind.objSize ≤ pageSize) (hx : slotAddr p c a i ≤ x)
    (hx' : x < slotAddr p c a i + c.kind.objSize) :
    x / pageSize = p a ∧ x % pageSize / c.kind.objSize = i := by
  obtain ⟨d, rfl⟩ := Nat.exists_eq_add_of_le hx
  simp only [slotAddr] at hx' ⊢
  rw [Nat.add_assoc]
  exact slot_div hle (by omega)

namespace Queue

theorem holds_inj {cap n : Nat} {q q' : Queue} (hcap : 2 ≤ cap) (h : q.Holds cap n)
    (h' : q'.Holds cap n) : q = q' := by
  cases q <;> cases q' <;> simp only [Holds] at h h' <;> first | rfl | omega

theorem exists_holds (cap n : Nat) : ∃ q : Queue, q.Holds cap n := by
  by_cases hf : n = cap
  · exact ⟨.full, hf⟩
  · by_cases he : n = 0
    · exact ⟨.empty, he⟩
    · exact ⟨.half, he, hf⟩

end Queue

namespace HeapInv

variable {G : Ghost} {h : Heap} {caches : List CacheRef} {blocks : List Block}
variable {c c' : CacheRef} {a a' : Nat} {i j o x : Nat}

theorem use_page (I : HeapInv G h caches blocks) (hs : (c, a) ∈ h.slabs) :
    G.use (G.page a) = .slab c a :=
  (I.slabs.use_iff _ _ _).mpr ⟨hs, rfl⟩

/-- A header belongs to one cache. -/
theorem cache_unique (I : HeapInv G h caches blocks) (hs : (c, a) ∈ h.slabs)
    (hs' : (c', a) ∈ h.slabs) : c = c' := by
  have he := (I.use_page hs).symm.trans (I.use_page hs')
  cases he
  rfl

/-- Two slabs on one page are one slab. -/
theorem slab_unique (I : HeapInv G h caches blocks) (hs : (c, a) ∈ h.slabs)
    (hs' : (c', a') ∈ h.slabs) (hp : G.page a = G.page a') : c = c' ∧ a = a' := by
  have he := (I.use_page hs).symm.trans (hp ▸ I.use_page hs')
  cases he
  exact ⟨rfl, rfl⟩

theorem slot_le (I : HeapInv G h caches blocks) (hs : (c, a) ∈ h.slabs) (hi : i ∈ G.live a) :
    (i + 1) * c.kind.objSize ≤ pageSize :=
  (I.headers.rep c a hs).slot_le hi

/-- Two slots that share an address are one slot. -/
theorem slot_unique (I : HeapInv G h caches blocks) (hs : (c, a) ∈ h.slabs)
    (hi : (i + 1) * c.kind.objSize ≤ pageSize) (hs' : (c', a') ∈ h.slabs)
    (hj : (j + 1) * c'.kind.objSize ≤ pageSize) (hx : slotAddr G.page c a i ≤ x)
    (hx' : x < slotAddr G.page c a i + c.kind.objSize) (hy : slotAddr G.page c' a' j ≤ x)
    (hy' : x < slotAddr G.page c' a' j + c'.kind.objSize) : c = c' ∧ a = a' ∧ i = j := by
  obtain ⟨hp, hidx⟩ := slotAddr_div hi hx hx'
  obtain ⟨hp', hidx'⟩ := slotAddr_div hj hy hy'
  obtain ⟨rfl, rfl⟩ := I.slab_unique hs hs' (hp.symm.trans hp')
  exact ⟨rfl, rfl, hidx.symm.trans hidx'⟩

/-- Slots have distinct addresses. -/
theorem slotAddr_inj (I : HeapInv G h caches blocks) (hs : (c, a) ∈ h.slabs)
    (hi : (i + 1) * c.kind.objSize ≤ pageSize) (hs' : (c', a') ∈ h.slabs)
    (hj : (j + 1) * c'.kind.objSize ≤ pageSize)
    (he : slotAddr G.page c a i = slotAddr G.page c' a' j) : c = c' ∧ a = a' ∧ i = j := by
  have hpos := c.kind.objSize_pos
  have hpos' := c'.kind.objSize_pos
  exact I.slot_unique (x := slotAddr G.page c a i) hs hi hs' hj le_rfl (by omega) he.ge
    (by omega)

/-- A separate header is a live slot of a meta slab of `meta_slab_cache`. -/
theorem data_header (I : HeapInv G h caches blocks) (hs : (c, a) ∈ h.slabs)
    (hk : c.kind ≠ .metaSlab) :
    ∃ m i, (BaseSlab.metaSlabCache, m) ∈ h.slabs ∧ i ∈ G.live m ∧ 1 ≤ i ∧ i < 64 ∧
      a = m + 64 * i := by
  obtain ⟨m, i, hm, hi, ha⟩ := (I.blocks.held_iff BaseSlab.metaSlabCache a).mp
    (Or.inr ⟨rfl, c, hk, hs⟩)
  have hb := (I.headers.rep _ m hm).2 i hi
  have haddr := I.slabs.meta_addr _ m hm rfl
  refine ⟨m, i, hm, hi, hb.1, hb.2, ?_⟩
  rw [ha, slotAddr, ← haddr, Nat.mul_comm i]
  rfl

/-- Where a header lies: a slot of a meta slab, slot 0 for the meta slab
itself. -/
theorem header_slot (I : HeapInv G h caches blocks) (hs : (c, a) ∈ h.slabs) :
    ∃ c' m i, (c', m) ∈ h.slabs ∧ c'.kind = .metaSlab ∧ a = m + 64 * i ∧ i < 64 ∧
      ((c' = c ∧ i = 0) ∨ (1 ≤ i ∧ i ∈ G.live m ∧ c' = BaseSlab.metaSlabCache ∧
        c.kind ≠ .metaSlab)) := by
  by_cases hk : c.kind = .metaSlab
  · exact ⟨c, a, 0, hs, hk, by omega, by omega, Or.inl ⟨rfl, rfl⟩⟩
  · obtain ⟨m, i, hm, hi, h1, h64, ha⟩ := I.data_header hs hk
    exact ⟨_, m, i, hm, rfl, ha, h64, Or.inr ⟨h1, hi, rfl, hk⟩⟩

/-- The page that a header lies in. -/
theorem header_page (I : HeapInv G h caches blocks) (hs : (c, a) ∈ h.slabs)
    (hk : c.kind = .metaSlab) (hi : i < 64) : (a + 64 * i) / pageSize = G.page a := by
  have haddr := I.slabs.meta_addr c a hs hk
  rw [pageSize] at haddr ⊢
  omega

/-- Headers are told apart by meta slab and slot. -/
theorem header_inj (I : HeapInv G h caches blocks) (hs : (c, a) ∈ h.slabs)
    (hk : c.kind = .metaSlab) (hs' : (c', a') ∈ h.slabs) (hk' : c'.kind = .metaSlab)
    (hi : i < 64) (hj : j < 64) (he : a + 64 * i = a' + 64 * j) : c = c' ∧ a = a' ∧ i = j := by
  have hp := I.header_page hs hk hi
  rw [he, I.header_page hs' hk' hj] at hp
  obtain ⟨rfl, rfl⟩ := I.slab_unique hs hs' hp.symm
  exact ⟨rfl, rfl, by omega⟩

/-- A node in no queue and no list of free headers is loose. -/
theorem loose {x : Nat} (hq : ∀ c q, c ∈ caches → x ∉ G.seq (.queue c q))
    (hf : ∀ c m, (c, m) ∈ h.slabs → c.kind = .metaSlab → x ∉ G.seq (.freeSlab m)) :
    Loose (listHeads caches h.slabs) (fun hd => (G.seq hd).map .node) (.node x) := by
  intro hd hh hm
  rcases List.mem_cons.mp hm with he | hm
  · subst he
    exact hh
  · obtain ⟨y, hy, he⟩ := List.mem_map.mp hm
    cases he
    match hd, hh with
    | .queue c q, hh => exact hq c q hh hy
    | .freeSlab m, ⟨c, hs, hk⟩ => exact hf c m hs hk hy

/-- The slab in hand is in no list. -/
theorem hand_loose (I : HeapInv G h caches blocks) (hh : G.hand = some (c, a)) :
    Loose (listHeads caches h.slabs) (fun hd => (G.seq hd).map .node) (.node a) := by
  have hs := I.queues.hand_mem c a hh
  apply loose
  · intro c' q hc' hm
    have hs' := I.queues.queue_mem c' a q hc' hm
    have he := I.cache_unique hs hs'
    subst he
    exact ((I.queues.placed c a q hs).mp hm).1 hh
  · intro c' m hm hk hmem
    obtain ⟨j, hj1, hj64, hjl, hja⟩ := (I.queues.header_iff c' m a hm hk).mp hmem
    obtain ⟨c₁, m₁, i₁, hm₁, hk₁, ha₁, hi₁, hcase⟩ := I.header_slot hs
    obtain ⟨-, rfl, rfl⟩ := I.header_inj hm hk hm₁ hk₁ hj64 hi₁ (hja.symm.trans ha₁)
    rcases hcase with ⟨-, h0⟩ | ⟨-, hl, -⟩
    · omega
    · exact hjl hl

/-- The block of an object is a live slot. -/
theorem block_live (I : HeapInv G h caches blocks) (hb : .obj c o ∈ blocks) :
    ∃ a i, (c, a) ∈ h.slabs ∧ i ∈ G.live a ∧ o = slotAddr G.page c a i :=
  (I.blocks.held_iff c o).mp (Or.inl hb)

end HeapInv

end Chestnut
