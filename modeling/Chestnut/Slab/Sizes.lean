import Chestnut.Slab.Exhaustion

/-!
# Sizes on their way through the heap

`operator new` and `BaseVector::ResetPtr` hand a `size_t` to `kernel::Alloc`,
whose parameter is an `int`; `Alloc` stores the size of a multi-page block in
an `int` again, and `Free` reads it back. A size survives the trip exactly if
it is at most `2^31 - PAGESIZE`.
-/

namespace Chestnut

open Lib

namespace Kernel

/-- `kernel::Alloc(size)` for a `size_t`. -/
def allocSize (size : Nat) (h : Heap) : Except Fault (Nat × Heap) := alloc (int32 size) h

/-- `operator new` and `operator new[]`. -/
def operatorNew (size : Nat) (h : Heap) : Except Fault (Nat × Heap) := allocSize size h

/-- The allocation of `BaseVector::ResetPtr`; the product is a `size_t`. -/
def resetPtrAlloc (newCapacity eleSize : Nat) (h : Heap) : Except Fault (Nat × Heap) :=
  allocSize (newCapacity * eleSize % u64Size) h

/-- The low 32 bits of a size, read as an `int`. -/
theorem int32_cases (size : Nat) :
    (-2 ^ 31 ≤ int32 size ∧ int32 size < 2 ^ 31) ∧ (size : Int) % 2 ^ 32 = int32 size % 2 ^ 32 := by
  rw [int32, Int.bmod_def]
  split <;> omega

/-- `FitGlobalMemCache` has no cache for a size that is not positive. -/
theorem fitGlobalMemCache_nonpos {k : Int} (hk : -2 ^ 31 ≤ k) (hk' : k ≤ 0) :
    ∃ msg, fitGlobalMemCache k = .error (.panic msg) := by
  obtain ⟨x, hx⟩ : ∃ x, x = ((k - 1) % 2 ^ 32).toNat := ⟨_, rfl⟩
  have hge : 2 ^ 30 ≤ x := by omega
  have hlog : 30 ≤ Nat.log 2 x := (Nat.le_log_iff_pow_le (by decide) (by omega)).mpr hge
  have hclz : clz x ≤ 1 := by
    rw [clz, if_neg (by omega)]
    omega
  rw [fitGlobalMemCache, ← hx]
  have hidx : ¬ (32 - (clz x : Int) - 4 < 0) := by omega
  have hassert : decide (32 - (clz x : Int) - 4 < 8) = false := decide_eq_false (by omega)
  simp only [if_neg hidx, hassert]
  exact ⟨_, rfl⟩

/-- A request that returns was positive as an `int`. -/
theorem pos_of_alloc {k : Int} (hk : -2 ^ 31 ≤ k) {h : Heap} {r : Nat × Heap}
    (hal : alloc k h = .ok r) : 1 ≤ k := by
  by_contra hpos
  obtain ⟨msg, hfit⟩ := fitGlobalMemCache_nonpos hk (by omega)
  rw [alloc, if_neg (by omega), hfit] at hal
  cases hal

end Kernel

namespace HeapWorld

/-- The heap `h'` is that of `w` after one block went back: the blocks held are
the others, the pages of a multi-page block are free again and no other page is,
an object went back to the cache it came from. -/
def Released (w : HeapWorld) (b : Block) (h' : Heap) : Prop :=
  (∃ G, HeapInv G w.heap w.caches w.blocks) ∧
    (∃ G, HeapInv G h' w.caches (w.blocks.erase b)) ∧
    match b with
    | .pages s n => MemPages.Flagged w.heap.pages h'.pages (List.range' s n) true
    | .obj c o => c.free o w.heap = .ok h'

/-- The block `b` that a request of `size` bytes left in the heap `h'` has room for
them, and whenever its holder frees it, the call returns and gives back the block. -/
structure Survives (w : HeapWorld) (size : Nat) (b : Block) (h' : Heap) : Prop where
  spans : size ≤ b.size
  released : ∀ w', Reach step Allowed ⟨h', w.caches, b :: w.blocks⟩ w' →
    w'.Allowed (.free (some b)) →
      ∃ h'', Kernel.free (some b.addr) w'.heap = .ok h'' ∧ w'.Released b h''

variable {G : Ghost} {w : HeapWorld} {s size addr : Nat} {h' : Heap}

/-- `Free` of a held block. -/
theorem free_released (I : HeapInv G w.heap w.caches w.blocks) (hh : G.hand = none) {b : Block}
    (ha : w.Allowed (.free (some b))) :
    ∃ h', Kernel.free (some b.addr) w.heap = .ok h' ∧ w.Released b h' := by
  cases b with
  | obj c o =>
      obtain ⟨hb, hsite, k, hk, rfl⟩ := ha
      obtain ⟨h', G', hfr, I', -, -⟩ :=
        release_spec I hh hb hsite (.free (some (.obj (.global k) o))) Iff.rfl
      refine ⟨h', ?_, ⟨G, I⟩, ⟨G', I'⟩, hfr⟩
      exact (I.free_obj hk hb).trans hfr
  | pages s n =>
      obtain ⟨h', G', hfr, I', -, -, -, hf⟩ := I.free_pages ha
      exact ⟨h', hfr, ⟨G, I⟩, ⟨G', I'⟩, hf⟩

/-- The block a request of `s` bytes gets has room for them. -/
theorem le_block_size (h1 : 1 ≤ s) (addr : Nat) : s ≤ (block s addr).size := by
  obtain ⟨hsmall, hlarge⟩ := block_size h1 addr
  by_cases hs : s ≤ 2048
  · exact (hsmall hs).1.2
  · rw [hlarge (by omega)]
    simp only [pageSize]
    omega

/-- No block is larger than 2 GiB. -/
theorem block_size_le (h1 : 1 ≤ s) (hs : s < 2 ^ 31) (addr : Nat) :
    (block s addr).size ≤ 2 ^ 31 := by
  rw [block]
  split
  · rw [Block.size, Kernel.nrPages]
    simp only [pageSize]
    omega
  · exact (CacheKind.objSize_le _).trans (by decide)

/-- A request that returns is one a caller may make. -/
theorem allowed_of_alloc (I : HeapInv G w.heap w.caches w.blocks) (h1 : 1 ≤ s)
    (hmax : s ≤ 2 ^ 31 - pageSize) {r : Nat × Heap} (hal : Kernel.alloc s w.heap = .ok r) :
    w.Allowed (.alloc s) := by
  refine ⟨h1, hmax, fun hs => ?_⟩
  by_contra hgt
  exact I.alloc_too_large hs (by omega) ⟨r, hal⟩

/-- Sizes up to the limit survive. -/
theorem survives_of_le {m : MemPages} {free : List Nat} {nodes : Links NodeRef}
    {slab : Nat → SlabRec} (F : MemPages.FreeList m free) (hw : Reachable m nodes slab w)
    (h1 : 1 ≤ s) (hmax : s ≤ 2 ^ 31 - pageSize) (hal : Kernel.alloc s w.heap = .ok (addr, h')) :
    w.Survives s (block s addr) h' := by
  obtain ⟨G, I, hh⟩ := hw.inv F
  have ha := allowed_of_alloc I h1 hmax hal
  have hstep : w.step (.alloc s) = .ok ⟨h', w.caches, block s addr :: w.blocks⟩ := by
    rw [step, hal]
    rfl
  have hw' : Reachable m nodes slab ⟨h', w.caches, block s addr :: w.blocks⟩ := .next hw ha hstep
  refine ⟨le_block_size h1 addr, ?_⟩
  generalize block s addr = b at hw' ⊢
  intro w' hreach hfree
  obtain ⟨G', I', hh'⟩ := Reachable.inv F (hw'.trans hreach)
  exact free_released I' hh' hfree

/-- The record that a multi-page request leaves at the first page. -/
theorem alloc_large_record (I : HeapInv G w.heap w.caches w.blocks) (hs : 2048 < s)
    (hal : Kernel.alloc s w.heap = .ok (addr, h')) :
    ∃ i, addr = pageSize * i ∧
      (h'.pages.page (.pg i)).slabObjSize = Kernel.int32 (Kernel.nrPages s * pageSize) := by
  have hle : Kernel.nrPages s ≤ w.heap.pages.nrPageStructs := by
    by_contra hgt
    exact I.alloc_too_large hs (by omega) ⟨_, hal⟩
  have hpos : 1 ≤ Kernel.nrPages s := Nat.succ_pos _
  rw [Kernel.alloc_large hs] at hal
  by_cases hok : PagesOk.Served w.heap.pages G.free (Kernel.nrPages s)
  · obtain ⟨i, m', free', hpages, -, P⟩ := I.pages.allocPages hle hok
    have hmem : i ∈ List.range' i (Kernel.nrPages s) :=
      List.mem_range'_1.mpr ⟨le_rfl, Nat.lt_add_of_pos_right hpos⟩
    obtain ⟨hlt, hphy⟩ := P.managed i (by rw [assign_of_mem hmem]; exact nofun)
    rw [hpages] at hal
    simp only [ok_bind, Heap.setPages, MemPages.deref_pg hlt, Heap.physicalAddress,
      MemPages.deref_pg (m := m'.setPage _ _) hlt] at hal
    obtain ⟨rfl, rfl⟩ := Prod.mk.inj (Except.ok.inj hal)
    exact ⟨i, by simpa [MemPages.setPage] using hphy, by simp [MemPages.setPage]⟩
  · rw [I.pages.allocPages_null hpos hle hok] at hal
    cases hal

/-- A block of 2 GiB is recorded with a negative size and cannot be freed. -/
theorem free_huge (I : HeapInv G w.heap w.caches w.blocks) (hs : 2 ^ 31 - pageSize < s)
    (hs' : s < 2 ^ 31) (hal : Kernel.alloc s w.heap = .ok (addr, h')) :
    ¬ w.Survives s (block s addr) h' := by
  have hlarge : 2048 < s := by
    simp only [pageSize] at hs
    omega
  obtain ⟨i, rfl, hrec⟩ := alloc_large_record I hlarge hal
  have hnr : Kernel.nrPages s = 2 ^ 19 := by
    simp only [pageSize] at hs
    simp only [Kernel.nrPages, pageSize]
    omega
  have hneg : Kernel.int32 (Kernel.nrPages s * pageSize) = -2 ^ 31 := by
    rw [hnr]
    decide
  rw [hneg] at hrec
  rw [block, if_pos hlarge, pgnum_page]
  intro hsurv
  obtain ⟨h'', hfree, -⟩ := hsurv.released _ .start List.mem_cons_self
  obtain ⟨msg, hfit⟩ := Kernel.fitGlobalMemCache_nonpos (k := -2 ^ 31) le_rfl (by decide)
  obtain ⟨⟨⟩, -, hfree⟩ := bind_ok hfree
  simp only [Block.addr, MemPages.pageOf, pgnum_page, hrec] at hfree
  rw [if_neg (by decide), hfit] at hfree
  cases hfree

/-- In every reachable heap state, for every `size_t` with which `operator new` or
`BaseVector::ResetPtr` gets a block: the size survives exactly up to
`2^31 - PAGESIZE`. -/
theorem survives_iff {m : MemPages} {free : List Nat} {nodes : Links NodeRef}
    {slab : Nat → SlabRec} (F : MemPages.FreeList m free) (hw : Reachable m nodes slab w)
    (h1 : 1 ≤ size)
    (hal : Kernel.operatorNew size w.heap = .ok (addr, h') ∨
      ∃ newCapacity eleSize, size = newCapacity * eleSize % u64Size ∧
        Kernel.resetPtrAlloc newCapacity eleSize w.heap = .ok (addr, h')) :
    w.Survives size (block (Kernel.int32 size).toNat addr) h' ↔ size ≤ 2 ^ 31 - pageSize := by
  have halloc : Kernel.alloc (Kernel.int32 size) w.heap = .ok (addr, h') := by
    rcases hal with hal | ⟨newCapacity, eleSize, rfl, hal⟩
    · exact hal
    · exact hal
  obtain ⟨⟨hlo, hhi⟩, hmod⟩ := Kernel.int32_cases size
  have hpos := Kernel.pos_of_alloc hlo halloc
  obtain ⟨k, hk⟩ := Int.eq_ofNat_of_zero_le (show 0 ≤ Kernel.int32 size by omega)
  rw [hk] at halloc hhi hmod hpos ⊢
  rw [Int.toNat_natCast]
  -- either the whole size arrived, or only its low 32 bits
  rcases Nat.lt_or_ge size (2 ^ 31) with hlt | hge
  · obtain rfl : k = size := by omega
    constructor
    · intro hsurv
      by_contra hgt
      obtain ⟨G, I, -⟩ := hw.inv F
      exact free_huge I (Nat.lt_of_not_le hgt) hlt halloc hsurv
    · exact fun hmax => survives_of_le F hw (by omega) hmax halloc
  · refine iff_of_false (fun hsurv => ?_) (by simp only [pageSize]; omega)
    have hle := hsurv.spans.trans (block_size_le (by omega) (by omega) addr)
    omega

theorem survives_iff_machine :
    ∃ addr h', Kernel.operatorNew 100 (machine 4).heap = .ok (addr, h') ∧
      (machine 4).Survives 100 (block 100 addr) h' := by
  have hint : Kernel.int32 (100 : Nat) = (100 : Nat) := Kernel.int32_of_lt (by decide)
  have hok : (Kernel.alloc (100 : Nat) (machine 4).heap).isOk = true := by decide +kernel
  rw [Kernel.operatorNew, Kernel.allocSize, hint]
  cases hr : Kernel.alloc (100 : Nat) (machine 4).heap with
  | error e =>
      rw [hr] at hok
      cases hok
  | ok r =>
      have hal : Kernel.operatorNew 100 (machine 4).heap = .ok (r.1, r.2) := by
        rw [Kernel.operatorNew, Kernel.allocSize, hint, hr]
      have hiff := survives_iff (MemPages.line_freeList (n := 4) (by decide)) (w := machine 4)
        .start (by decide) (.inl hal)
      rw [hint, Int.toNat_natCast] at hiff
      exact ⟨r.1, r.2, rfl, hiff.mpr (by decide)⟩

/-- `operator new(2^32 + 16)` returns a block of 16 bytes. -/
theorem operatorNew_too_small :
    Reachable (MemPages.line 3) ⟨fun x => x, fun x => x⟩ (fun _ => {}) (machine 3) ∧
      ∃ addr h', Kernel.operatorNew (2 ^ 32 + 16) (machine 3).heap = .ok (addr, h') ∧
        (block (Kernel.int32 (2 ^ 32 + 16 : Nat)).toNat addr).size = 16 := by
  have hint : Kernel.int32 (2 ^ 32 + 16 : Nat) = (16 : Nat) := by decide
  have hok : (Kernel.alloc (16 : Nat) (machine 3).heap).isOk = true := by decide +kernel
  refine ⟨.start, ?_⟩
  rw [Kernel.operatorNew, Kernel.allocSize, hint]
  cases hr : Kernel.alloc (16 : Nat) (machine 3).heap with
  | error e =>
      rw [hr] at hok
      cases hok
  | ok r => exact ⟨r.1, r.2, rfl, rfl⟩

end HeapWorld

end Chestnut
