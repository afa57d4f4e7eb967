import Chestnut.Slab.Runs

/-!
# The heap and the page array

Heap calls change page records and links, and nothing else of the page
allocator: the number of records stays what `Init` made it. This is what the
page-table code relies on when it shares the allocator with the heap.
-/

namespace Chestnut

namespace MemPages

variable {m m' : MemPages} {p : PageRef}

theorem allocPage_nr (h : m.allocPage = .ok (p, m')) : m'.nrPageStructs = m.nrPageStructs := by
  rw [allocPage] at h
  split at h
  · cases h
    rfl
  · obtain ⟨-, -, h⟩ := bind_ok h
    obtain ⟨-, -, h⟩ := bind_ok h
    cases h
    rfl

theorem freePage_nr (h : m.freePage p = .ok m') : m'.nrPageStructs = m.nrPageStructs := by
  obtain ⟨-, -, h⟩ := bind_ok h
  obtain ⟨-, -, h⟩ := bind_ok h
  cases h
  rfl

theorem unlinkRun_nr {count i : Nat} (h : unlinkRun count i m = .ok m') :
    m'.nrPageStructs = m.nrPageStructs := by
  induction count generalizing i m with
  | zero =>
      cases h
      rfl
  | succ count ih =>
      obtain ⟨-, -, h⟩ := bind_ok h
      obtain ⟨-, -, h⟩ := bind_ok h
      obtain ⟨-, -, h⟩ := bind_ok h
      have hrest := ih h
      exact hrest

theorem allocPages_nr {n : Int} (h : m.allocPages n = .ok (p, m')) :
    m'.nrPageStructs = m.nrPageStructs := by
  rw [allocPages] at h
  split at h
  · exact allocPage_nr h
  · dsimp only at h
    split at h
    · cases h
      rfl
    · obtain ⟨m₁, hrun, h⟩ := bind_ok h
      cases h
      exact unlinkRun_nr hrun

theorem freeRun_nr {count i : Nat} (h : freeRun count i m = .ok m') :
    m'.nrPageStructs = m.nrPageStructs := by
  induction count generalizing i m with
  | zero =>
      cases h
      rfl
  | succ count ih =>
      obtain ⟨m₁, hone, h⟩ := bind_ok h
      exact (ih h).trans (freePage_nr hone)

theorem freePages_nr {i : Nat} {n : Int} (h : m.freePages i n = .ok m') :
    m'.nrPageStructs = m.nrPageStructs := by
  rw [freePages] at h
  split at h
  · exact freePage_nr h
  · exact freeRun_nr h

end MemPages

/-- Two heaps whose page arrays have the same length. -/
def SameArray (h h' : Heap) : Prop := h'.pages.nrPageStructs = h.pages.nrPageStructs

/-- No operation of the slab class changes the length of the page array. -/
structure SlabClass.KeepsArray (S : SlabClass) : Prop where
  allocSlab : ∀ {n a : Nat} {h h' : Heap}, S.allocSlab n h = .ok (a, h') → SameArray h h'
  freeSlab : ∀ {a : Nat} {h h' : Heap}, S.freeSlab a h = .ok h' → SameArray h h'
  init : ∀ {a n : Nat} {h h' : Heap}, S.init a n h = .ok h' → SameArray h h'
  alloc : ∀ {a i : Nat} {h h' : Heap}, S.alloc a h = .ok (i, h') → SameArray h h'
  free : ∀ {a i : Nat} {h h' : Heap}, S.free a i h = .ok h' → SameArray h h'

namespace SameArray

variable {S : SlabClass} {c : CacheRef} {h h' : Heap} {a n : Nat}

theorem trans {h'' : Heap} (e : SameArray h h') (e' : SameArray h' h'') : SameArray h h'' :=
  Eq.trans e' e

theorem adjustSlab (K : S.KeepsArray) (e : MemCache.adjustSlab S c a h = .ok h') :
    SameArray h h' := by
  rw [MemCache.adjustSlab] at e
  split at e
  · cases e
    rfl
  · split at e
    · obtain ⟨⟨gone, h₁⟩, hrec, e⟩ := bind_ok e
      have hsame : SameArray h h₁ := by
        rw [MemCache.reclaimEmptySlab] at hrec
        split at hrec
        · cases hrec
          rfl
        · obtain ⟨h₂, hfree, hrec⟩ := bind_ok hrec
          cases hrec
          have hfreed := K.freeSlab hfree
          exact hfreed
      cases e
      cases gone <;> exact hsame
    · cases e
      rfl

theorem takeSlab (K : S.KeepsArray) (e : MemCache.takeSlab S n c h = .ok (a, h')) :
    SameArray h h' := by
  rw [MemCache.takeSlab] at e
  split at e
  · split at e
    · obtain ⟨⟨slab, h₁⟩, halloc, e⟩ := bind_ok e
      obtain ⟨h₂, hopen, e⟩ := bind_ok e
      cases e
      obtain ⟨h₃, hinit, hopen⟩ := bind_ok hopen
      cases hopen
      have hnew := K.init hinit
      exact (K.allocSlab halloc).trans hnew
    · obtain ⟨slab, -, e⟩ := bind_ok e
      cases e
      rfl
  · obtain ⟨slab, -, e⟩ := bind_ok e
    cases e
    rfl

theorem allocate (K : S.KeepsArray) (e : MemCache.allocate S n c h = .ok (a, h')) :
    SameArray h h' := by
  obtain ⟨⟨slab, h₁⟩, htake, e⟩ := bind_ok e
  obtain ⟨⟨idx, h₂⟩, halloc, e⟩ := bind_ok e
  obtain ⟨mem, -, e⟩ := bind_ok e
  obtain ⟨h₃, hadjust, e⟩ := bind_ok e
  cases e
  have hlast := adjustSlab K hadjust
  exact ((takeSlab K htake).trans (K.alloc halloc)).trans hlast

theorem free (K : S.KeepsArray) (e : MemCache.free S n c a h = .ok h') : SameArray h h' := by
  obtain ⟨-, -, e⟩ := bind_ok e
  obtain ⟨h₁, hfree, e⟩ := bind_ok e
  have hone := K.free hfree
  have hlast := adjustSlab K e
  exact Eq.trans hlast hone

end SameArray

theorem MetaSlab.keepsArray : MetaSlab.slabClass.KeepsArray := by
  constructor
  · intro n a h h' e
    obtain ⟨⟨p, m⟩, halloc, e⟩ := bind_ok e
    obtain ⟨slab, -, e⟩ := bind_ok e
    cases e
    have hnr := MemPages.allocPage_nr halloc
    exact hnr
  · intro a h h' e
    obtain ⟨m, hfree, e⟩ := bind_ok e
    cases e
    exact MemPages.freePage_nr hfree
  · intro a n h h' e
    obtain ⟨-, -, e⟩ := bind_ok e
    cases e
    rfl
  · intro a i h h' e
    obtain ⟨-, -, e⟩ := bind_ok e
    obtain ⟨offset, -, e⟩ := bind_ok e
    obtain ⟨-, -, e⟩ := bind_ok e
    cases e
    rfl
  · intro a i h h' e
    obtain ⟨-, -, e⟩ := bind_ok e
    cases e
    rfl

namespace BaseSlab

variable {h h' : Heap} {n a : Nat}

theorem allocSlab_sameArray (e : allocSlab n h = .ok (a, h')) : SameArray h h' := by
  obtain ⟨⟨slab, h₁⟩, hheader, e⟩ := bind_ok e
  obtain ⟨h₂, hattach, e⟩ := bind_ok e
  cases e
  obtain ⟨⟨p, m⟩, halloc, hattach⟩ := bind_ok hattach
  obtain ⟨-, -, hattach⟩ := bind_ok hattach
  cases hattach
  have hone : SameArray h h₁ := SameArray.allocate MetaSlab.keepsArray hheader
  have hnr := MemPages.allocPage_nr halloc
  exact hone.trans hnr

theorem freeSlab_sameArray (e : freeSlab a h = .ok h') : SameArray h h' :=
  SameArray.free MetaSlab.keepsArray e

end BaseSlab

theorem BitmapSlab.keepsArray (n : Nat) : (BitmapSlab.slabClass n).KeepsArray := by
  refine ⟨BaseSlab.allocSlab_sameArray, BaseSlab.freeSlab_sameArray, ?_, ?_, ?_⟩
  all_goals
    intro _ _ h h' e
    cases e
    rfl

theorem FreeListSlab.keepsArray : FreeListSlab.slabClass.KeepsArray := by
  refine ⟨BaseSlab.allocSlab_sameArray, BaseSlab.freeSlab_sameArray, ?_, ?_, ?_⟩
  all_goals
    intro _ _ h h' e
    obtain ⟨r, -, e⟩ := bind_ok e
    cases e
    rfl

theorem CacheKind.keepsArray (k : CacheKind) : k.slabClass.KeepsArray := by
  cases k with
  | metaSlab => exact MetaSlab.keepsArray
  | chunk16 => exact BitmapSlab.keepsArray 4
  | chunk32 => exact BitmapSlab.keepsArray 2
  | chunk64 => exact BitmapSlab.keepsArray 1
  | _ => exact FreeListSlab.keepsArray

namespace Kernel

variable {h h' : Heap}

theorem alloc_sameArray {n : Int} {a : Nat} (e : alloc n h = .ok (a, h')) : SameArray h h' := by
  rw [alloc] at e
  split at e
  · obtain ⟨⟨p, m⟩, halloc, e⟩ := bind_ok e
    obtain ⟨-, -, e⟩ := bind_ok e
    obtain ⟨addr, -, e⟩ := bind_ok e
    cases e
    have hnr := MemPages.allocPages_nr halloc
    exact hnr
  · obtain ⟨c, -, e⟩ := bind_ok e
    exact SameArray.allocate c.kind.keepsArray e

theorem free_sameArray {ptr : Option Nat} (e : free ptr h = .ok h') : SameArray h h' := by
  cases ptr with
  | none =>
      cases e
      rfl
  | some addr =>
      obtain ⟨-, -, e⟩ := bind_ok e
      dsimp only at e
      split at e
      · obtain ⟨m, hfree, e⟩ := bind_ok e
        cases e
        exact MemPages.freePages_nr hfree
      · obtain ⟨c, -, e⟩ := bind_ok e
        exact SameArray.free c.kind.keepsArray e

end Kernel

/-- A heap call leaves the length of the page array alone. -/
theorem HeapWorld.step_sameArray {w w' : HeapWorld} {op : HeapOp} (e : w.step op = .ok w') :
    SameArray w.heap w'.heap := by
  match op, e with
  | .alloc s, e =>
      obtain ⟨⟨addr, h⟩, halloc, e⟩ := bind_ok e
      cases e
      exact Kernel.alloc_sameArray halloc
  | .free none, e =>
      obtain ⟨h, hfree, e⟩ := bind_ok e
      cases e
      exact Kernel.free_sameArray hfree
  | .free (some b), e =>
      obtain ⟨h, hfree, e⟩ := bind_ok e
      cases e
      exact Kernel.free_sameArray hfree
  | .allocate c, e =>
      obtain ⟨⟨addr, h⟩, halloc, e⟩ := bind_ok e
      cases e
      exact SameArray.allocate c.kind.keepsArray halloc
  | .release c o, e =>
      obtain ⟨h, hfree, e⟩ := bind_ok e
      cases e
      exact SameArray.free c.kind.keepsArray hfree
  | .setMaxPage c n, e =>
      cases e
      rfl
  | .createNew c, e =>
      obtain ⟨⟨new, h⟩, hnew, e⟩ := bind_ok e
      cases e
      obtain ⟨g, -, hnew⟩ := bind_ok hnew
      obtain ⟨⟨addr, h₁⟩, halloc, hnew⟩ := bind_ok hnew
      cases hnew
      have hone : SameArray w.heap h₁ := SameArray.allocate g.kind.keepsArray halloc
      exact hone

end Chestnut
