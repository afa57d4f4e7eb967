import Chestnut.Slab.Safety

/-!
# The memory that the heap writes

The heap keeps its records in the pages it manages: slab headers, list nodes in the
free headers of a meta slab, and the caches that `CreateNew` made. The heap model has
them as records of their own; here it is said which bytes of memory they take, and
that none of these is part of a block that a caller holds.
-/

namespace Chestnut

open Lib

/-- The bytes of the block. -/
def Block.Covers (b : Block) (x : Nat) : Prop := b.addr ≤ x ∧ x < b.addr + b.size

/-- The bytes of a header that starts with this list node. -/
def NodeRef.HeaderAt (x : Nat) : NodeRef → Prop
  | .node a => a ≤ x ∧ x < a + headerSize
  | _ => False

instance (x : Nat) (n : NodeRef) : Decidable (n.HeaderAt x) :=
  match n with
  | .node a => inferInstanceAs (Decidable (a ≤ x ∧ x < a + headerSize))
  | .queue _ _ => inferInstanceAs (Decidable False)
  | .freeSlab _ => inferInstanceAs (Decidable False)

/-- The nodes behind `n`, in the order of the list. -/
def nodesAfter (l : Links NodeRef) : (count : Nat) → (n : NodeRef) → List NodeRef
  | 0, _ => []
  | count + 1, n => l.next n :: nodesAfter l count (l.next n)

theorem mem_ring_of_nodesAfter {l : Links NodeRef} {hd n x : NodeRef} {xs : List NodeRef}
    (r : Ring l hd xs) {count : Nat} (hn : n ∈ hd :: xs) (hx : x ∈ nodesAfter l count n) :
    x ∈ hd :: xs := by
  induction count generalizing n with
  | zero => cases hx
  | succ count ih =>
      rcases List.mem_cons.mp hx with rfl | hx
      · exact r.next_mem hn
      · exact ih (r.next_mem hn) hx

/-- The headers on the list `free_slab` of a meta slab. -/
def Heap.freeHeaders (h : Heap) (m : Nat) : List NodeRef :=
  nodesAfter h.nodes (h.slab m).nrFreeSlab (.freeSlab m)

namespace HeapWorld

/-- The byte belongs to a record of the heap. -/
def Record (w : HeapWorld) (x : Nat) : Prop :=
  (∃ s ∈ w.heap.slabs, s.2 ≤ x ∧ x < s.2 + headerSize) ∨
    (∃ s ∈ w.heap.slabs, s.1.kind = .metaSlab ∧ ∃ n ∈ w.heap.freeHeaders s.2, n.HeaderAt x) ∨
    ∃ c ∈ w.caches, ∃ o ∈ c.site, o ≤ x ∧ x < o + Kernel.sizeofMemCache.toNat

instance (w : HeapWorld) (x : Nat) : Decidable (w.Record x) :=
  inferInstanceAs (Decidable (_ ∨ _ ∨ _))

/-- A caller holds the block: it is not the place of a cache. -/
def Held (w : HeapWorld) (b : Block) : Prop := b ∈ w.blocks ∧ w.NoCacheAt b.addr

variable {G : Ghost} {w : HeapWorld} {b : Block} {c : CacheRef} {a m x : Nat}

section

variable (I : HeapInv G w.heap w.caches w.blocks)

include I

/-- A header on the list of a meta slab is a slot that is not live. -/
theorem freeHeader_slot (hm : (c, m) ∈ w.heap.slabs) (hk : c.kind = .metaSlab)
    (ha : .node a ∈ w.heap.freeHeaders m) : ∃ i < 64, i ∉ G.live m ∧ a = m + 64 * i := by
  have r := I.queues.rings.ring (.freeSlab m) ⟨c, hm, hk⟩
  rcases List.mem_cons.mp (mem_ring_of_nodesAfter r List.mem_cons_self ha) with h | h
  · cases h
  · obtain ⟨a', ha', he⟩ := List.mem_map.mp h
    cases he
    obtain ⟨i, -, hi, hlive, rfl⟩ := (I.queues.header_iff c m a hm hk).mp ha'
    exact ⟨i, hi, hlive, rfl⟩

/-- The page and the slot of a byte in a header of a meta slab. -/
theorem meta_slot_div (hm : (c, m) ∈ w.heap.slabs) (hk : c.kind = .metaSlab) {i : Nat} (hi : i < 64)
    (h₁ : m + 64 * i ≤ x) (h₂ : x < m + 64 * i + headerSize) :
    x / pageSize = G.page m ∧ x % pageSize / 64 = i := by
  have haddr := I.slabs.meta_addr c m hm hk
  simp only [pageSize, headerSize] at *
  omega

/-- Records lie in the pages of slabs. -/
theorem record_use (hx : w.Record x) : ∃ c a, G.use (x / pageSize) = .slab c a := by
  rcases hx with ⟨⟨c, a⟩, hs, h₁, h₂⟩ | ⟨⟨c, m⟩, hs, hk, n, hn, hat⟩ | ⟨c, hc, o, ho, h₁, h₂⟩
  · obtain ⟨c', m, i, hm, hk, rfl, hi, -⟩ := I.header_slot hs
    rw [(meta_slot_div I hm hk hi h₁ h₂).1]
    exact ⟨c', m, I.use_page hm⟩
  · cases n with
    | queue c q => cases hat
    | freeSlab a => cases hat
    | node a =>
        obtain ⟨i, hi, -, rfl⟩ := freeHeader_slot I hs hk hn
        rw [(meta_slot_div I hs hk hi hat.1 hat.2).1]
        exact ⟨c, m, I.use_page hs⟩
  · have hb := I.blocks.site c hc o ho
    have hlt : x < o + 128 := h₂.trans (Nat.add_lt_add_left (by decide) o)
    rcases inside_block I hb h₁ hlt with ⟨c', a, i, -, -, -, huse, -⟩ | ⟨s, n, he, -⟩
    · exact ⟨c', a, huse⟩
    · cases he

/-- No record takes a byte of a block that a caller holds. -/
theorem not_covers_of_record (hb : w.Held b) (hx : w.Record x) : ¬ b.Covers x := by
  rintro ⟨hle, hlt⟩
  rcases hx with ⟨⟨c, a⟩, hs, h₁, h₂⟩ | ⟨⟨c, m⟩, hs, hk, n, hn, hat⟩ | ⟨c, hc, o, ho, h₁, h₂⟩
  · rcases header_apart I hb.1 hs with h | h <;> omega
  · cases n with
    | queue c q => cases hat
    | freeSlab a => cases hat
    | node a =>
        -- the slot would be live
        obtain ⟨i, hi, hlive, rfl⟩ := freeHeader_slot I hs hk hn
        obtain ⟨hpage, hslot⟩ := meta_slot_div I hs hk hi hat.1 hat.2
        have huse := I.use_page hs
        rw [← hpage] at huse
        rcases inside_block I hb.1 hle hlt with
          ⟨c', m', j, -, -, hj, huse', hidx⟩ | ⟨s, n, -, huse'⟩
        · cases huse.symm.trans huse'
          have hsize : c.kind.objSize = 64 := by
            rw [hk]
            rfl
          rw [hsize, hslot] at hidx
          exact hlive (hidx ▸ hj)
        · cases huse.symm.trans huse'
  · have hsite := I.blocks.site c hc o ho
    have hne : b ≠ .obj (.global .chunk128) o := by
      rintro rfl
      exact hb.2 c hc ho
    have hlt' : x < o + 128 := h₂.trans (Nat.add_lt_add_left (by decide) o)
    have hapart := blocks_apart I hb.1 hsite hne
    simp only [Apart, Block.addr, Block.size, CacheRef.global, CacheKind.objSize] at hapart hle hlt
    omega

end

end HeapWorld

end Chestnut
