import Chestnut.Slab.Bitmap
import Mathlib.Tactic.Tauto

/-!
# The slab classes behind one interface

Each class keeps its own record of the free slots. `CacheKind.Rep` says that
a header records a given set of live slots, and the lemmas below say that the
operations of every class with a separate header act on that set: `Init`
empties it, `Alloc` adds a new slot, `Free` removes one, and `is_empty` and
`is_full` compare its size with the capacity of the class.
-/

namespace Chestnut

/-- The stack holds the slots outside `live`, each once. -/
structure StackRep (total : Nat) (r : SlabRec) (live : Finset Nat) : Prop where
  nrTotal_eq : r.nrTotal = total
  nrFree_add : r.nrFree + live.card = total
  bounded : ∀ s ∈ live, s < total
  free : ∀ i < r.nrFree, r.freeStack i < total ∧ r.freeStack i ∉ live
  inj : ∀ i < r.nrFree, ∀ j < r.nrFree, r.freeStack i = r.freeStack j → i = j

namespace StackRep

variable {total : Nat} {r : SlabRec} {live : Finset Nat}

theorem init (ht : total ≤ FreeListSlab.stackSize) (r : SlabRec) :
    ∃ r', FreeListSlab.init total r = .ok r' ∧ r'.dataPage = r.dataPage ∧
      StackRep total r' ∅ := by
  have h38 : total ≤ 38 := ht
  have hmod : ∀ i ≤ total, i % 256 = i := fun i hi => Nat.mod_eq_of_lt (by omega)
  refine ⟨_, if_pos ht, rfl, ?_⟩
  constructor
  · exact hmod total le_rfl
  · simp [hmod total le_rfl]
  · simp
  · intro i hi
    simp only [hmod total le_rfl] at hi
    simp [hi, hmod i hi.le]
  · intro i hi j hj hij
    simp only [hmod total le_rfl] at hi hj
    simpa [hi, hj, hmod i hi.le, hmod j hj.le] using hij

/-- `Alloc` pops a slot that is not live. -/
theorem alloc (R : StackRep total r live) (ht : total ≤ FreeListSlab.stackSize)
    (hlt : live.card < total) :
    ∃ idx r', FreeListSlab.alloc r = .ok (idx, r') ∧ r'.dataPage = r.dataPage ∧
      idx ∉ live ∧ StackRep total r' (insert idx live) := by
  have h38 : total ≤ 38 := ht
  have hsum := R.nrFree_add
  have htop : (r.nrFree + 255) % 256 = r.nrFree - 1 := by omega
  have hpos : r.nrFree - 1 < r.nrFree := by omega
  have hstack : r.nrFree - 1 < FreeListSlab.stackSize := by
    have : FreeListSlab.stackSize = 38 := rfl
    omega
  obtain ⟨hidx, hnl⟩ := R.free _ hpos
  refine ⟨r.freeStack (r.nrFree - 1), { r with nrFree := r.nrFree - 1 }, ?_, rfl, hnl, ?_⟩
  · simp only [FreeListSlab.alloc, htop, if_pos hstack]
  constructor
  · exact R.nrTotal_eq
  · rw [Finset.card_insert_of_notMem hnl]
    simp only
    omega
  · intro s hs
    rcases Finset.mem_insert.mp hs with rfl | hs
    · exact hidx
    · exact R.bounded s hs
  · intro i hi
    simp only at hi
    obtain ⟨h₁, h₂⟩ := R.free i (by omega)
    refine ⟨h₁, fun hm => ?_⟩
    rcases Finset.mem_insert.mp hm with he | hm
    · have := R.inj i (by omega) _ hpos he
      omega
    · exact h₂ hm
  · intro i hi j hj
    simp only at hi hj
    exact R.inj i (by omega) j (by omega)

/-- `Free` pushes the slot. -/
theorem free_live (R : StackRep total r live) (ht : total ≤ FreeListSlab.stackSize) {s : Nat}
    (hs : s ∈ live) :
    ∃ r', FreeListSlab.free s r = .ok r' ∧ r'.dataPage = r.dataPage ∧
      StackRep total r' (live.erase s) := by
  have h38 : total ≤ 38 := ht
  have hsum := R.nrFree_add
  have hcard : 0 < live.card := Finset.card_pos.mpr ⟨s, hs⟩
  have hstack : r.nrFree < FreeListSlab.stackSize := by
    have : FreeListSlab.stackSize = 38 := rfl
    omega
  have hst := R.bounded s hs
  have hmod : s % 256 = s := Nat.mod_eq_of_lt (by omega)
  have hnext : (r.nrFree + 1) % 256 = r.nrFree + 1 := Nat.mod_eq_of_lt (by omega)
  refine ⟨_, if_pos hstack, rfl, ?_⟩
  rw [hmod, hnext]
  constructor
  · exact R.nrTotal_eq
  · rw [Finset.card_erase_of_mem hs]
    simp only
    omega
  · intro t ht
    exact R.bounded t (Finset.mem_of_mem_erase ht)
  · intro i hi
    simp only at hi
    by_cases he : i = r.nrFree
    · subst he
      simp [hst]
    · simp only [Function.update_of_ne he]
      obtain ⟨h₁, h₂⟩ := R.free i (by omega)
      exact ⟨h₁, fun hm => h₂ (Finset.mem_of_mem_erase hm)⟩
  · intro i hi j hj hij
    simp only at hi hj hij
    by_cases hei : i = r.nrFree
    · subst hei
      by_cases hej : j = r.nrFree
      · exact hej.symm
      · rw [Function.update_self, Function.update_of_ne hej] at hij
        exact absurd (hij ▸ hs) (R.free j (by omega)).2
    · rw [Function.update_of_ne hei] at hij
      by_cases hej : j = r.nrFree
      · subst hej
        rw [Function.update_self] at hij
        exact absurd (hij ▸ hs) (R.free i (by omega)).2
      · rw [Function.update_of_ne hej] at hij
        exact R.inj i (by omega) j (by omega) hij

theorem isEmpty_iff (R : StackRep total r live) :
    FreeListSlab.isEmpty r = true ↔ live.card = 0 := by
  have h₁ := R.nrTotal_eq
  have h₂ := R.nrFree_add
  rw [FreeListSlab.isEmpty, beq_iff_eq]
  omega

theorem isFull_iff (R : StackRep total r live) :
    FreeListSlab.isFull r = true ↔ live.card = total := by
  have h := R.nrFree_add
  rw [FreeListSlab.isFull, beq_iff_eq]
  omega

end StackRep

namespace CacheKind

/-- The number of slots that a slab of the kind hands out. -/
def cap : CacheKind → Nat
  | .metaSlab => 63
  | .chunk16 => 128
  | .chunk32 => 64
  | .chunk64 => 32
  | k => pageSize / k.objSize

/-- A header records the live slots. -/
def Rep : CacheKind → SlabRec → Finset Nat → Prop
  | .metaSlab, r, live => r.nrFreeSlab + live.card = 63 ∧ ∀ s ∈ live, 1 ≤ s ∧ s < 64
  | .chunk16, r, live => BitmapRep 4 r.bitmap live
  | .chunk32, r, live => BitmapRep 2 r.bitmap live
  | .chunk64, r, live => BitmapRep 1 r.bitmap live
  | k, r, live => StackRep (pageSize / k.objSize) r live

/-- A kind with separate headers keeps a bitmap or a stack. -/
theorem data_cases {k : CacheKind} (hk : k ≠ .metaSlab) :
    (∃ n, 1 ≤ n ∧ k.slabClass = BitmapSlab.slabClass n ∧ k.cap = 32 * n ∧
        32 * n * k.objSize ≤ pageSize ∧ k.Rep = fun r live => BitmapRep n r.bitmap live) ∨
      (k.slabClass = FreeListSlab.slabClass ∧ k.cap = pageSize / k.objSize ∧
        pageSize / k.objSize ≤ FreeListSlab.stackSize ∧
        k.Rep = StackRep (pageSize / k.objSize)) := by
  cases k with
  | metaSlab => exact absurd rfl hk
  | chunk16 => exact Or.inl ⟨4, by decide, rfl, rfl, by decide, rfl⟩
  | chunk32 => exact Or.inl ⟨2, by decide, rfl, rfl, by decide, rfl⟩
  | chunk64 => exact Or.inl ⟨1, by decide, rfl, rfl, by decide, rfl⟩
  | chunk128 => exact Or.inr ⟨rfl, rfl, by decide, rfl⟩
  | chunk256 => exact Or.inr ⟨rfl, rfl, by decide, rfl⟩
  | chunk512 => exact Or.inr ⟨rfl, rfl, by decide, rfl⟩
  | chunk1024 => exact Or.inr ⟨rfl, rfl, by decide, rfl⟩
  | chunk2048 => exact Or.inr ⟨rfl, rfl, by decide, rfl⟩

theorem objSize_pos (k : CacheKind) : 0 < k.objSize := by
  cases k <;> decide

theorem objSize_dvd (k : CacheKind) : k.objSize ∣ pageSize := by
  cases k <;> decide

theorem objSize_le (k : CacheKind) : k.objSize ≤ 2048 := by
  cases k <;> decide

theorem two_le_cap (k : CacheKind) : 2 ≤ k.cap := by
  cases k <;> decide

namespace Rep

variable {k : CacheKind} {h : Heap} {a : Nat} {live : Finset Nat} {r : SlabRec}

theorem card_le (R : k.Rep r live) : live.card ≤ k.cap := by
  by_cases hk : k = .metaSlab
  · subst hk
    have := R.1
    simp only [cap]
    omega
  · rcases data_cases hk with ⟨n, -, -, hcap, -, hrep⟩ | ⟨-, hcap, -, hrep⟩
    · rw [hrep] at R
      exact hcap ▸ BitmapRep.card_le R
    · rw [hrep] at R
      have := R.nrFree_add
      omega

/-- Every slot lies inside the page. -/
theorem slot_le (R : k.Rep r live) {s : Nat} (hs : s ∈ live) :
    (s + 1) * k.objSize ≤ pageSize := by
  by_cases hk : k = .metaSlab
  · subst hk
    have := (R.2 s hs).2
    simp only [objSize, pageSize]
    omega
  · rcases data_cases hk with ⟨n, -, -, -, hsize, hrep⟩ | ⟨-, -, -, hrep⟩
    · rw [hrep] at R
      exact (Nat.mul_le_mul_right _ (R.bounded s hs)).trans hsize
    · rw [hrep] at R
      exact (Nat.mul_le_mul_right _ (R.bounded s hs)).trans (Nat.div_mul_le_self _ _)

theorem isEmpty_iff (R : k.Rep (h.slab a) live) :
    k.slabClass.isEmpty h a = true ↔ live.card = 0 := by
  by_cases hk : k = .metaSlab
  · subst hk
    have := R.1
    simp only [slabClass, MetaSlab.slabClass, beq_iff_eq]
    omega
  · rcases data_cases hk with ⟨n, hn, hcls, -, -, hrep⟩ | ⟨hcls, -, -, hrep⟩
    · rw [hrep] at R
      rw [hcls, Finset.card_eq_zero]
      exact R.isEmpty_iff hn
    · rw [hrep] at R
      rw [hcls]
      exact R.isEmpty_iff

theorem isFull_iff (R : k.Rep (h.slab a) live) :
    k.slabClass.isFull h a = true ↔ live.card = k.cap := by
  by_cases hk : k = .metaSlab
  · subst hk
    have := R.1
    simp only [slabClass, MetaSlab.slabClass, beq_iff_eq, cap]
    omega
  · rcases data_cases hk with ⟨n, hn, hcls, hcap, -, hrep⟩ | ⟨hcls, hcap, -, hrep⟩
    · rw [hrep] at R
      rw [hcls, hcap]
      exact R.isFull_iff_card hn
    · rw [hrep] at R
      rw [hcls, hcap]
      exact R.isFull_iff

/-- `Init` of a class with separate headers. -/
theorem init (hk : k ≠ .metaSlab) (h : Heap) (a : Nat) :
    ∃ r, k.slabClass.init a (pageSize / k.objSize) h = .ok (h.setSlab a r) ∧
      r.dataPage = (h.slab a).dataPage ∧ k.Rep r ∅ := by
  rcases data_cases hk with ⟨n, -, hcls, -, -, hrep⟩ | ⟨hcls, -, htot, hrep⟩
  · rw [hcls, hrep]
    exact ⟨_, rfl, rfl, BitmapRep.init n (h.slab a)⟩
  · rw [hcls, hrep]
    obtain ⟨r, hr, hd, R⟩ := StackRep.init htot (h.slab a)
    refine ⟨r, ?_, hd, R⟩
    simp only [FreeListSlab.slabClass, hr, ok_bind]
    rfl

/-- `Alloc` of a class with separate headers. -/
theorem alloc (hk : k ≠ .metaSlab) (R : k.Rep (h.slab a) live) (hlt : live.card < k.cap) :
    ∃ idx r, k.slabClass.alloc a h = .ok (idx, h.setSlab a r) ∧
      r.dataPage = (h.slab a).dataPage ∧ idx ∉ live ∧ k.Rep r (insert idx live) := by
  rcases data_cases hk with ⟨n, hn, hcls, hcap, -, hrep⟩ | ⟨hcls, hcap, htot, hrep⟩
  · rw [hrep] at R
    rw [hcap] at hlt
    rw [hcls, hrep]
    obtain ⟨-, hnl, R'⟩ := BitmapRep.alloc R (R.exists_free hn hlt)
    exact ⟨_, _, rfl, rfl, hnl, R'⟩
  · rw [hrep] at R
    rw [hcap] at hlt
    rw [hcls, hrep]
    obtain ⟨idx, r, hr, hd, hnl, R'⟩ := R.alloc htot hlt
    refine ⟨idx, r, ?_, hd, hnl, R'⟩
    simp only [FreeListSlab.slabClass, hr, ok_bind]
    rfl

/-- `Free` of a class with separate headers. -/
theorem free (hk : k ≠ .metaSlab) (R : k.Rep (h.slab a) live) {s : Nat} (hs : s ∈ live) :
    ∃ r, k.slabClass.free a s h = .ok (h.setSlab a r) ∧
      r.dataPage = (h.slab a).dataPage ∧ k.Rep r (live.erase s) := by
  rcases data_cases hk with ⟨n, -, hcls, -, -, hrep⟩ | ⟨hcls, -, htot, hrep⟩
  · rw [hrep] at R
    rw [hcls, hrep]
    exact ⟨_, rfl, rfl, BitmapRep.free R hs⟩
  · rw [hrep] at R
    rw [hcls, hrep]
    obtain ⟨r, hr, hd, R'⟩ := R.free_live htot hs
    refine ⟨r, ?_, hd, R'⟩
    simp only [FreeListSlab.slabClass, hr, ok_bind]
    rfl

/-- The classes with separate headers share the operations of `BaseSlab`. -/
theorem base_eq (hk : k ≠ .metaSlab) : k.slabClass.allocSlab = BaseSlab.allocSlab ∧
    k.slabClass.freeSlab = BaseSlab.freeSlab ∧ k.slabClass.mem = BaseSlab.mem := by
  rcases data_cases hk with ⟨n, -, hcls, -⟩ | ⟨hcls, -⟩ <;> rw [hcls] <;> exact ⟨rfl, rfl, rfl⟩

end Rep

end CacheKind

end Chestnut
