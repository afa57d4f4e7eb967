import Chestnut.Lib.Loop
import Chestnut.Slab.Sizes

/-!
# What one holder may rely on

`Lives h bs`: the heap `h` is one that allowed calls lead to, and each range of
`bs` lies at the start of a block of its own that the holder may give back. This
is the interface through which code above the heap uses it: `Alloc` adds a
range that meets no other one, `Free` takes one away, and the order of the
ranges does not matter.
-/

namespace Chestnut

open Lib

/-- The largest request that survives the way through the heap. -/
def allocLimit : Nat := 2 ^ 31 - pageSize

namespace HeapWorld

variable {m : MemPages} {fs : List Nat} {nodes : Links NodeRef} {slab : Nat → SlabRec}
variable {G : Ghost} {w w' : HeapWorld} {b : Block}

/-- A block that may be freed may be freed as long as it is held and no cache is made. -/
theorem allowed_free_of_mem (ha : w.Allowed (.free (some b))) (hc : w'.caches = w.caches)
    (hb : b ∈ w'.blocks) : w'.Allowed (.free (some b)) := by
  cases b with
  | obj c o =>
      obtain ⟨-, hsite, hk⟩ := ha
      refine ⟨hb, ?_, hk⟩
      rw [NoCacheAt, hc]
      exact hsite
  | pages s n => exact hb

theorem mem_of_allowed_free (ha : w.Allowed (.free (some b))) : b ∈ w.blocks := by
  cases b with
  | obj c o => exact ha.1
  | pages s n => exact ha

/-- Held blocks at one address are one block. -/
theorem block_unique (I : HeapInv G w.heap w.caches w.blocks) {b' : Block} (hb : b ∈ w.blocks)
    (hb' : b' ∈ w.blocks) (haddr : b.addr = b'.addr) : b = b' := by
  by_contra hne
  have hap := blocks_apart I hb hb' hne
  have hpos := size_pos I hb
  have hpos' := size_pos I hb'
  rw [Apart] at hap
  omega

/-- The block that `Alloc` has just returned may be freed. -/
theorem allowed_free_block {n p : Nat} {h : Heap}
    (I : HeapInv G h w.caches (block n p :: w.blocks))
    (hsite : ∀ c ∈ w.caches, ∀ o, c.site = some o → .obj (.global .chunk128) o ∈ w.blocks) :
    HeapWorld.Allowed ⟨h, w.caches, block n p :: w.blocks⟩ (.free (some (block n p))) := by
  by_cases hn : 2048 < n
  · rw [block, if_pos hn]
    exact List.mem_cons_self
  · have hmem : block n p ∈ block n p :: w.blocks := List.mem_cons_self
    have hblock : block n p = .obj (.global (Kernel.chunkOf n)) p := by rw [block, if_neg hn]
    rw [hblock] at hmem I ⊢
    refine ⟨hmem, ?_, Kernel.chunkOf n, Kernel.chunkOf_ne n, rfl⟩
    intro c hc hp
    have hold := hsite c hc p hp
    have heq := block_unique (w := ⟨h, w.caches, _⟩) I hmem (List.mem_cons_of_mem _ hold) rfl
    rw [heq] at I
    exact (List.nodup_cons.mp I.blocks.nodup).1 hold

/-- The blocks that one call may add. -/
theorem mem_blocks_of_step {op : HeapOp} (hs : w.step op = .ok w') (hb : b ∈ w'.blocks) :
    b ∈ w.blocks ∨ (∃ n p, op = .alloc n ∧ b = block n p) ∨ ∃ c o, b = .obj c o := by
  cases op with
  | alloc n =>
      obtain ⟨r, -, hs⟩ := bind_ok hs
      cases hs
      rcases List.mem_cons.mp hb with hb | hb
      · exact .inr (.inl ⟨n, r.1, rfl, hb⟩)
      · exact .inl hb
  | free b =>
      cases b with
      | none =>
          obtain ⟨r, -, hs⟩ := bind_ok hs
          cases hs
          exact .inl hb
      | some b =>
          obtain ⟨r, -, hs⟩ := bind_ok hs
          cases hs
          exact .inl (List.mem_of_mem_erase hb)
  | allocate c =>
      obtain ⟨r, -, hs⟩ := bind_ok hs
      cases hs
      rcases List.mem_cons.mp hb with hb | hb
      · exact .inr (.inr ⟨_, _, hb⟩)
      · exact .inl hb
  | release c o =>
      obtain ⟨r, -, hs⟩ := bind_ok hs
      cases hs
      exact .inl (List.mem_of_mem_erase hb)
  | setMaxPage c n =>
      cases hs
      exact .inl hb
  | createNew c =>
      obtain ⟨r, -, hs⟩ := bind_ok hs
      cases hs
      rcases List.mem_cons.mp hb with hb | hb
      · exact .inr (.inr ⟨_, _, hb⟩)
      · exact .inl hb

/-- A request within the limit gets a block within the limit. -/
theorem block_size_le_limit {n : Nat} (hmax : n ≤ allocLimit) (p : Nat) :
    (block n p).size ≤ allocLimit := by
  rw [block]
  split
  · rw [Block.size, Kernel.nrPages, allocLimit]
    simp only [allocLimit, pageSize] at hmax ⊢
    omega
  · exact (CacheKind.objSize_le _).trans (by decide)

/-- No reachable heap has a block beyond the limit. -/
theorem Reachable.size_le (hw : Reachable m nodes slab w) :
    ∀ b ∈ w.blocks, b.size ≤ allocLimit := by
  refine Reach.inv (I := fun w => ∀ b ∈ w.blocks, b.size ≤ allocLimit) ?_ ?_ hw
  · exact fun b hb => absurd hb List.not_mem_nil
  · intro w op w' I ha hs b hb
    rcases mem_blocks_of_step hs hb with hb | ⟨n, p, rfl, rfl⟩ | ⟨c, o, rfl⟩
    · exact I b hb
    · exact block_size_le_limit ha.2.1 p
    · exact (c.kind.objSize_le).trans (by decide)

/-- The `n` bytes at `p` are the start of a block that may be freed. -/
def Backs (w : HeapWorld) (r : Nat × Nat) : Prop :=
  1 ≤ r.2 ∧ ∃ b, w.Allowed (.free (some b)) ∧ b.addr = r.1 ∧ r.2 ≤ b.size

theorem Backs.mono {r : Nat × Nat} (h : w.Backs r) (hc : w'.caches = w.caches)
    (hb : ∀ b ∈ w.blocks, b.addr = r.1 → b ∈ w'.blocks) : w'.Backs r := by
  obtain ⟨h1, b, ha, haddr, hsize⟩ := h
  exact ⟨h1, b, allowed_free_of_mem ha hc (hb b (mem_of_allowed_free ha) haddr), haddr, hsize⟩

/-- The ranges are live, each in a block of its own. -/
def Lives (m : MemPages) (nodes : Links NodeRef) (slab : Nat → SlabRec) (h : Heap)
    (rs : List (Nat × Nat)) : Prop :=
  ∃ w, Reachable m nodes slab w ∧ w.heap = h ∧ (∀ r ∈ rs, w.Backs r) ∧
    rs.Pairwise fun r r' => r.1 ≠ r'.1

namespace Lives

variable {h h₁ : Heap} {rs rs' : List (Nat × Nat)} {p n : Nat}

theorem nil (hw : Reachable m nodes slab w) : Lives m nodes slab w.heap [] :=
  ⟨w, hw, rfl, fun _ hr => absurd hr List.not_mem_nil, .nil⟩

theorem perm (L : Lives m nodes slab h rs) (hp : rs.Perm rs') : Lives m nodes slab h rs' := by
  obtain ⟨w, hw, hh, hback, hpair⟩ := L
  refine ⟨w, hw, hh, fun r hr => hback r (hp.mem_iff.mpr hr), ?_⟩
  exact hp.pairwise hpair fun h => h.symm

theorem sublist (L : Lives m nodes slab h rs) (hs : rs'.Sublist rs) : Lives m nodes slab h rs' := by
  obtain ⟨w, hw, hh, hback, hpair⟩ := L
  exact ⟨w, hw, hh, fun r hr => hback r (hs.mem hr), hpair.sublist hs⟩

/-- Live ranges do not meet. -/
theorem apart (F : MemPages.FreeList m fs) (L : Lives m nodes slab h rs) :
    rs.Pairwise fun r r' => Apart r.1 r.2 r'.1 r'.2 := by
  obtain ⟨w, hw, -, hback, hpair⟩ := L
  obtain ⟨G, I, -⟩ := hw.inv F
  apply hpair.imp_of_mem
  intro r r' hr hr' hne
  obtain ⟨-, b, ha, haddr, hsize⟩ := hback r hr
  obtain ⟨-, b', ha', haddr', hsize'⟩ := hback r' hr'
  have hap := blocks_apart I (mem_of_allowed_free ha) (mem_of_allowed_free ha') (by
    rintro rfl
    exact hne (haddr.symm.trans haddr'))
  rw [Apart] at hap ⊢
  omega

/-- `Alloc` adds a range. -/
theorem alloc (F : MemPages.FreeList m fs) (L : Lives m nodes slab h rs) (h1 : 1 ≤ n)
    (hmax : n ≤ allocLimit) (hal : Kernel.alloc n h = .ok (p, h₁)) :
    Lives m nodes slab h₁ ((p, n) :: rs) := by
  obtain ⟨w, hw, rfl, hback, hpair⟩ := L
  obtain ⟨G, I, -⟩ := hw.inv F
  have ha := allowed_of_alloc I h1 hmax hal
  have hstep : w.step (.alloc n) = .ok ⟨h₁, w.caches, block n p :: w.blocks⟩ := by
    rw [step, hal]
    rfl
  have hw₁ : Reachable m nodes slab ⟨h₁, w.caches, block n p :: w.blocks⟩ := .next hw ha hstep
  obtain ⟨G₁, I₁, -⟩ := hw₁.inv F
  have haddr := block_addr I ha hal
  refine ⟨_, hw₁, rfl, ?_, ?_⟩
  · intro r hr
    rcases List.mem_cons.mp hr with rfl | hr
    · exact ⟨h1, block n p, allowed_free_block I₁ I.blocks.site, haddr, le_block_size h1 p⟩
    · exact (hback r hr).mono rfl fun b hb _ => List.mem_cons_of_mem _ hb
  · refine List.pairwise_cons.mpr ⟨?_, hpair⟩
    -- a block at the new address would be the new block
    intro r hr hp
    obtain ⟨-, b, hb, hbaddr, -⟩ := hback r hr
    have hmem := mem_of_allowed_free hb
    have heq := block_unique I₁ List.mem_cons_self (List.mem_cons_of_mem _ hmem)
      (haddr.trans (hp.trans hbaddr.symm))
    rw [← heq] at hmem
    exact (List.nodup_cons.mp I₁.blocks.nodup).1 hmem

/-- `operator new` for an object of a class. -/
theorem operatorNew (F : MemPages.FreeList m fs) (L : Lives m nodes slab h rs) (h1 : 1 ≤ n)
    (hmax : n ≤ allocLimit) :
    Meets (Kernel.operatorNew n h) (fun r => Lives m nodes slab r.2 ((r.1, n) :: rs))
      fun e => Kernel.operatorNew n h = .error e := by
  refine ⟨?_, fun e he => he⟩
  intro r hnew
  have hlimit : allocLimit < 2 ^ 31 := by decide
  rw [Kernel.operatorNew, Kernel.allocSize, Kernel.int32_of_lt (by omega)] at hnew
  exact L.alloc F h1 hmax hnew

/-- `Free` takes a range away. -/
theorem free (F : MemPages.FreeList m fs) (L : Lives m nodes slab h ((p, n) :: rs)) :
    ∃ h', Kernel.free (some p) h = .ok h' ∧ Lives m nodes slab h' rs := by
  obtain ⟨w, hw, rfl, hback, hpair⟩ := L
  obtain ⟨G, I, hh⟩ := hw.inv F
  obtain ⟨-, b, ha, rfl, -⟩ := hback _ List.mem_cons_self
  obtain ⟨h', hfree, -⟩ := free_released I hh ha
  have hstep : w.step (.free (some b)) = .ok ⟨h', w.caches, w.blocks.erase b⟩ := by
    rw [step, hfree]
    rfl
  obtain ⟨hne, hpair⟩ := List.pairwise_cons.mp hpair
  refine ⟨h', hfree, _, .next hw ha hstep, rfl, ?_, hpair⟩
  intro r hr
  refine (hback r (List.mem_cons_of_mem _ hr)).mono rfl ?_
  intro b' hb' haddr
  refine (List.mem_erase_of_ne ?_).mpr hb'
  rintro rfl
  exact hne r hr haddr

end Lives

end HeapWorld

end Chestnut
