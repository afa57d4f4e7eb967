import Chestnut.Slab.Runs

/-!
# Heap safety

In every world that allowed calls lead to, the blocks that callers hold are
apart from each other, from every slab header and from every free page, and
`kernel::Alloc` returns a new such block of the right size.
-/

namespace Chestnut

open Lib

/-- The ranges `[a, a + n)` and `[b, b + k)` do not meet. -/
def Apart (a n b k : Nat) : Prop := a + n ≤ b ∨ b + k ≤ a

theorem apart_of_no_common {a n b k : Nat} (hn : 0 < n) (hk : 0 < k)
    (h : ∀ x, a ≤ x → x < a + n → b ≤ x → x < b + k → False) : Apart a n b k := by
  by_contra hnot
  rw [Apart, not_or] at hnot
  rcases Nat.le_total a b with hab | hab
  · exact h b hab (by omega) le_rfl (by omega)
  · exact h a le_rfl (by omega) hab (by omega)

/-- A bound on the size of every slab record: `FreeListSlab` fills 64 bytes,
the other classes are smaller. -/
def headerSize : Nat := 64

namespace HeapWorld

/-- The blocks that callers hold are theirs alone. -/
structure Safe (w : HeapWorld) : Prop where
  blocks : w.blocks.Pairwise fun b b' => Apart b.addr b.size b'.addr b'.size
  headers : ∀ b ∈ w.blocks, ∀ c a, (c, a) ∈ w.heap.slabs → Apart b.addr b.size a headerSize
  free : ∃ free, MemPages.FreeList w.heap.pages free ∧
    ∀ b ∈ w.blocks, ∀ p ∈ free, Apart b.addr b.size (pageSize * p) pageSize
  aligned : ∀ c o, .obj c o ∈ w.blocks → c.kind.objSize ∣ o

variable {G : Ghost} {w : HeapWorld} {b b' : Block} {x : Nat}

/-- Where an address inside a block lies. -/
theorem inside_block (I : HeapInv G w.heap w.caches w.blocks) (hb : b ∈ w.blocks)
    (hx : b.addr ≤ x) (hx' : x < b.addr + b.size) :
    (∃ c a i, b = .obj c (slotAddr G.page c a i) ∧ (c, a) ∈ w.heap.slabs ∧ i ∈ G.live a ∧
      G.use (x / pageSize) = .slab c a ∧ x % pageSize / c.kind.objSize = i) ∨
    ∃ s n, b = .pages s n ∧ G.use (x / pageSize) = .big s n := by
  cases b with
  | obj c o =>
      obtain ⟨a, i, hs, hi, rfl⟩ := I.block_live hb
      obtain ⟨hp, hidx⟩ := slotAddr_div (I.slot_le hs hi) hx hx'
      exact Or.inl ⟨c, a, i, rfl, hs, hi, hp ▸ I.use_page hs, hidx⟩
  | pages s n =>
      refine Or.inr ⟨s, n, rfl, (I.blocks.big_use s n hb).2 _ ?_ ?_⟩
      · exact (Nat.le_div_iff_mul_le (by decide)).mpr (by
          simpa [Block.addr, Nat.mul_comm] using hx)
      · refine (Nat.div_lt_iff_lt_mul (by decide)).mpr ?_
        simp only [Block.addr, Block.size] at hx'
        rw [Nat.add_mul, Nat.mul_comm s]
        exact hx'

theorem size_pos (I : HeapInv G w.heap w.caches w.blocks) (hb : b ∈ w.blocks) :
    0 < b.size := by
  cases b with
  | obj c o => exact c.kind.objSize_pos
  | pages s n =>
      have := (I.blocks.big_use s n hb).1
      exact Nat.mul_pos (by omega) (by decide)

theorem blocks_apart (I : HeapInv G w.heap w.caches w.blocks) (hb : b ∈ w.blocks)
    (hb' : b' ∈ w.blocks) (hne : b ≠ b') : Apart b.addr b.size b'.addr b'.size := by
  refine apart_of_no_common (size_pos I hb) (size_pos I hb') fun x h₁ h₂ h₃ h₄ => hne ?_
  rcases inside_block I hb h₁ h₂ with ⟨c, a, i, rfl, -, -, huse, hi⟩ | ⟨s, n, rfl, huse⟩ <;>
    rcases inside_block I hb' h₃ h₄ with
      ⟨c', a', i', rfl, -, -, huse', hi'⟩ | ⟨s', n', rfl, huse'⟩ <;>
    rw [huse] at huse' <;> cases huse'
  · rw [← hi, ← hi']
  · rfl

theorem header_apart (I : HeapInv G w.heap w.caches w.blocks) (hb : b ∈ w.blocks)
    {c : CacheRef} {a : Nat} (hs : (c, a) ∈ w.heap.slabs) :
    Apart b.addr b.size a headerSize := by
  refine apart_of_no_common (size_pos I hb) (by decide) fun x h₁ h₂ h₃ h₄ => ?_
  obtain ⟨c₁, m, i, hm, hk, ha, hi64, hcase⟩ := I.header_slot hs
  have hmaddr := I.slabs.meta_addr c₁ m hm hk
  have hpage : x / pageSize = G.page m ∧ x % pageSize / 64 = i := by
    simp only [pageSize, headerSize] at *
    omega
  have huse := hpage.1 ▸ I.use_page hm
  rcases inside_block I hb h₁ h₂ with ⟨c', a', j, rfl, -, hj, huse', hidx⟩ | ⟨s, n, rfl, huse'⟩
  · rw [huse] at huse'
    cases huse'
    have hsz : c₁.kind.objSize = 64 := by rw [hk]; rfl
    rw [hsz, hpage.2] at hidx
    subst hidx
    rcases hcase with ⟨-, h0⟩ | ⟨-, -, rfl, hk'⟩
    · have hrep := I.headers.rep c₁ m hm
      rw [hk] at hrep
      have := (hrep.2 i hj).1
      omega
    · have haddr : slotAddr G.page BaseSlab.metaSlabCache m i = a := by
        rw [slotAddr, ← hmaddr, ha, hsz, Nat.mul_comm i]
      rw [haddr] at hb
      exact I.blocks.not_header a hb c hk' hs
  · rw [huse] at huse'
    cases huse'

theorem free_apart (I : HeapInv G w.heap w.caches w.blocks) (hb : b ∈ w.blocks) {p : Nat}
    (hp : p ∈ G.free) : Apart b.addr b.size (pageSize * p) pageSize := by
  refine apart_of_no_common (size_pos I hb) (by decide) fun x h₁ h₂ h₃ h₄ => ?_
  have hpage : x / pageSize = p := by
    simp only [pageSize] at *
    omega
  have hfree := (I.pages.free_iff p).mpr hp
  rcases inside_block I hb h₁ h₂ with ⟨c, a, i, -, -, -, huse, -⟩ | ⟨s, n, -, huse⟩ <;>
    rw [hpage, hfree] at huse <;> cases huse

/-- The invariant implies safety. -/
theorem safe_of_inv (I : HeapInv G w.heap w.caches w.blocks) : w.Safe := by
  refine ⟨?_, fun b hb c a hs => header_apart I hb hs,
    ⟨G.free, I.pages.list, fun b hb p hp => free_apart I hb hp⟩, ?_⟩
  · exact I.blocks.nodup.pairwise_of_forall_ne fun b hb b' hb' hne => blocks_apart I hb hb' hne
  · intro c o hb
    obtain ⟨a, i, -, -, rfl⟩ := I.block_live hb
    exact Nat.dvd_add (Nat.dvd_mul_right_of_dvd c.kind.objSize_dvd _) (Nat.dvd_mul_left _ i)

/-- The invariant holds in every reachable world. -/
theorem Reachable.inv {m : MemPages} {free : List Nat} {nodes : Links NodeRef}
    {slab : Nat → SlabRec} (F : MemPages.FreeList m free) (hw : Reachable m nodes slab w) :
    ∃ G, HeapInv G w.heap w.caches w.blocks ∧ G.hand = none := by
  refine Reach.inv (I := fun w => ∃ G, HeapInv G w.heap w.caches w.blocks ∧ G.hand = none)
    ⟨_, (initSlab_inv F nodes slab).1, rfl⟩ ?_ hw
  rintro w op w' ⟨G, I, hh⟩ ha hs
  rcases step_spec I hh ha with he | ⟨w'', G', hs', I', hh', -⟩
  · rw [he] at hs
    cases hs
  · rw [hs'] at hs
    cases hs
    exact ⟨G', I', hh'⟩

/-- The sizes of the objects that `kernel::Alloc` hands out. -/
def chunkSizes : List Nat := [16, 32, 64, 128, 256, 512, 1024, 2048]

/-- The size of a block fits the request. -/
theorem block_size {s : Nat} (h1 : 1 ≤ s) (addr : Nat) :
    (s ≤ 2048 → IsLeast {c | c ∈ chunkSizes ∧ s ≤ c} (block s addr).size) ∧
      (2048 < s → (block s addr).size = (s + (pageSize - 1)) / pageSize * pageSize) := by
  constructor
  · intro hs
    have hsize : (block s addr).size = (Kernel.chunkOf s).objSize := by
      rw [block, if_neg (by omega)]
      rfl
    have hkinds : ∀ k, k ≠ CacheKind.metaSlab → k.objSize ∈ chunkSizes := by
      intro k hk
      cases k <;> first | exact absurd rfl hk | decide
    have hsizes : ∀ c ∈ chunkSizes, ∃ k, k ≠ CacheKind.metaSlab ∧ c = k.objSize := by
      intro c hc
      simp only [chunkSizes, List.mem_cons, List.not_mem_nil, or_false] at hc
      rcases hc with rfl | rfl | rfl | rfl | rfl | rfl | rfl | rfl
      · exact ⟨.chunk16, by decide, rfl⟩
      · exact ⟨.chunk32, by decide, rfl⟩
      · exact ⟨.chunk64, by decide, rfl⟩
      · exact ⟨.chunk128, by decide, rfl⟩
      · exact ⟨.chunk256, by decide, rfl⟩
      · exact ⟨.chunk512, by decide, rfl⟩
      · exact ⟨.chunk1024, by decide, rfl⟩
      · exact ⟨.chunk2048, by decide, rfl⟩
    rw [hsize]
    refine ⟨⟨hkinds _ (Kernel.chunkOf_ne s), Kernel.le_objSize_chunkOf hs⟩, ?_⟩
    rintro c ⟨hc, hle⟩
    obtain ⟨k, hk, rfl⟩ := hsizes c hc
    exact Kernel.objSize_chunkOf_le hk hle
  · intro hs
    rw [block, if_pos hs, Block.size, Kernel.nrPages]
    simp only [pageSize]
    omega

/-- The block of a completed request starts at the returned address. -/
theorem block_addr (I : HeapInv G w.heap w.caches w.blocks) {s addr : Nat} {h' : Heap}
    (ha : w.Allowed (.alloc s)) (hal : Kernel.alloc s w.heap = .ok (addr, h')) :
    (block s addr).addr = addr := by
  obtain ⟨-, hmax, hnr⟩ := ha
  by_cases hs : 2048 < s
  · rw [block, if_pos hs, Block.addr]
    by_cases hok : PagesOk.Served w.heap.pages G.free (Kernel.nrPages s)
    · obtain ⟨i, h'', -, hal', -⟩ := I.alloc_pages hs hmax (hnr hs) hok
      rw [hal'] at hal
      obtain ⟨rfl, -⟩ := Prod.mk.inj (Except.ok.inj hal)
      rw [pgnum_page]
    · have hnull := I.pages.allocPages_null (n := Kernel.nrPages s) (Nat.le_add_left 1 _)
        (hnr hs) hok
      rw [Kernel.alloc_large hs, hnull] at hal
      cases hal
  · rw [block, if_neg hs]
    rfl

/-- Heap safety over whole runs: after `InitSlab` on a well-formed free list
and any sequence of completed calls, the blocks that callers hold are apart
from each other, from the slab headers and from the free pages; a call that
finds a page whenever it asks for one returns and keeps them so, and
`kernel::Alloc` returns a block of the smallest size that fits. -/
theorem safe_of_reachable {m : MemPages} {free : List Nat} (F : MemPages.FreeList m free)
    (nodes : Links NodeRef) (slab : Nat → SlabRec) (w : HeapWorld)
    (hw : Reachable m nodes slab w) :
    w.Safe ∧
      (∀ op, w.Allowed op → w.step op ≠ .error .nullDeref →
        ∃ w', w.step op = .ok w' ∧ w'.Safe) ∧
      ∀ s, w.Allowed (.alloc s) → Kernel.alloc s w.heap ≠ .error .nullDeref →
        ∃ (addr : Nat) (w' : HeapWorld), Kernel.alloc s w.heap = .ok (addr, w'.heap) ∧
          w'.Safe ∧ w'.blocks = block s addr :: w.blocks ∧ (block s addr).addr = addr ∧
          (s ≤ 2048 → IsLeast {c | c ∈ chunkSizes ∧ s ≤ c} (block s addr).size ∧
            (block s addr).size ∣ addr) ∧
          (2048 < s → (block s addr).size = (s + (pageSize - 1)) / pageSize * pageSize) := by
  obtain ⟨G, I, hh⟩ := hw.inv F
  have hstep : ∀ op, w.Allowed op → w.step op ≠ .error .nullDeref →
      ∃ w', w.step op = .ok w' ∧ w'.Safe := by
    intro op ha hne
    obtain ⟨w', G', hs, I', -⟩ := (step_spec I hh ha).resolve_left hne
    exact ⟨w', hs, safe_of_inv I'⟩
  refine ⟨safe_of_inv I, hstep, ?_⟩
  intro s ha hne
  obtain ⟨w', hs, hsafe⟩ := hstep (.alloc s) ha (by
    intro he
    apply hne
    cases hal : Kernel.alloc s w.heap with
    | error e =>
        simp only [step, hal, error_bind, Except.error.injEq] at he
        rw [he]
    | ok r =>
        simp only [step, hal, ok_bind] at he
        cases he)
  obtain ⟨⟨addr, h'⟩, hal, hret⟩ := bind_ok hs
  cases hret
  have haddr := block_addr I ha hal
  obtain ⟨hsmall, hlarge⟩ := block_size ha.1 addr
  refine ⟨addr, _, hal, hsafe, rfl, haddr, fun hle => ⟨hsmall hle, ?_⟩, hlarge⟩
  rw [block, if_neg (by omega)]
  refine hsafe.aligned (.global (Kernel.chunkOf s)) addr ?_
  simp [block, show ¬ 2048 < s by omega]

/-- A request of 100 bytes on a machine with four free pages. -/
theorem safe_of_reachable_machine :
    ∃ (addr : Nat) (w' : HeapWorld), Kernel.alloc 100 (machine 4).heap = .ok (addr, w'.heap) ∧
      w'.Safe ∧ w'.blocks = [block 100 addr] ∧ (block 100 addr).size ∣ addr := by
  have hok : (Kernel.alloc 100 (machine 4).heap).isOk = true := by decide +kernel
  obtain ⟨-, -, hal⟩ := safe_of_reachable (MemPages.line_freeList (n := 4) (by decide))
    ⟨fun x => x, fun x => x⟩ (fun _ => {}) (machine 4) .start
  obtain ⟨addr, w', h₁, h₂, h₃, -, h₅, -⟩ := hal 100 ⟨by decide, by decide, by decide⟩ (by
    intro he
    rw [show Kernel.alloc 100 (machine 4).heap = .error .nullDeref from he] at hok
    cases hok)
  exact ⟨addr, w', h₁, h₂, h₃, (h₅ (by decide)).2⟩

end HeapWorld

end Chestnut
