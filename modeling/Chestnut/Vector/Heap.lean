import Chestnut.Slab.Holdings
import Chestnut.Vector.Growth

/-!
# Vectors on the kernel's heap

What an insertion does to the heap with whatever else is live on it, and pushes
to vectors that grew from the empty one. The requests of such a vector double,
so they never come so close to 2 GiB that the heap serves them wrongly: a push
returns, or stops where `Alloc` stops.
-/

namespace Chestnut

open Lib HeapWorld

variable {m : MemPages} {fs : List Nat} {nodes : Links NodeRef} {slab : Nat → SlabRec}

namespace BaseVector

variable {sz pos p : Nat} {x : Elem sz} {v v' : BaseVector} {s s' : Store Heap} {h h₁ : Heap}
variable {rs : List (Nat × Nat)}

/-- The range of memory that a vector relies on. -/
def range (sz : Nat) (v : BaseVector) : List (Nat × Nat) :=
  v.ptr.toList.map fun p => (p, v.capacity * sz)

theorem mem_range {r : Nat × Nat} : r ∈ v.range sz ↔ v.ptr = some r.1 ∧ r.2 = v.capacity * sz := by
  obtain ⟨q, n⟩ := r
  simp only [range, List.mem_map, Option.mem_toList, Prod.mk.injEq]
  constructor
  · rintro ⟨p, hp, rfl, rfl⟩
    exact ⟨hp, rfl⟩
  · rintro ⟨hp, rfl⟩
    exact ⟨q, hp, rfl, rfl⟩

/-- The heap side of a growth: the old block goes back, the new one takes its place. -/
theorem grow_lives (F : MemPages.FreeList m fs) (L : Lives m nodes slab h (v.range sz ++ rs))
    {n : Nat} (h1 : 1 ≤ n) (hmax : n ≤ allocLimit) (halloc : Kernel.alloc n h = .ok (p, h₁)) :
    (∃ h₂, Kernel.free v.ptr h₁ = .ok h₂ ∧ Lives m nodes slab h₂ ((p, n) :: rs)) ∧
      ∀ q, v.ptr = some q → p + n ≤ q ∨ q + v.capacity * sz ≤ p := by
  have L₁ := L.alloc F h1 hmax halloc
  cases hptr : v.ptr with
  | none =>
      have hnil : v.range sz = [] := by rw [range, hptr]; rfl
      rw [hnil] at L₁
      exact ⟨⟨h₁, rfl, L₁⟩, fun q hq => by cases hq⟩
  | some q =>
      have hone : v.range sz = [(q, v.capacity * sz)] := by rw [range, hptr]; rfl
      rw [hone] at L₁
      refine ⟨(L₁.perm (.swap _ _ _)).free F, ?_⟩
      intro q' hq'
      cases hq'
      exact (List.pairwise_cons.mp (L₁.apart F)).1 _ List.mem_cons_self

/-- A completed insertion on the kernel's heap, with whatever else is live. -/
theorem insert_lives (F : MemPages.FreeList m fs) (hsz : 0 < sz) (ok : v.Ok sz)
    (L : Lives m nodes slab s.heap (v.range sz ++ rs)) (hpos : pos ≤ v.len)
    (hgrow : v.capacity ≤ v.len → v.nextCapacity * sz ≤ allocLimit)
    (hins : v.insert Kernel.allocator pos x s = .ok (v', s')) :
    Lives m nodes slab s'.heap (v'.range sz ++ rs) ∧ v'.Ok sz ∧
      Inserted sz pos x v v' s.bus s'.bus := by
  obtain ⟨v₁, hspace, hv', -⟩ := (insert_eq_ok_iff (ok.nextCapacity_ne hsz)).mp hins
  have hlimit : allocLimit < 2 ^ 31 := by decide
  suffices hheap : Lives m nodes slab s'.heap (v'.range sz ++ rs) ∧
      (v.capacity ≤ v.len → v.Served Kernel.allocator sz s.heap) by
    obtain ⟨v'', s'', hok, ok', hinserted⟩ := ok.insert (A := Kernel.allocator) (x := x) (s := s)
      hsz hpos fun hge => ⟨by have := hgrow hge; omega, hheap.2 hge⟩
    rw [hins] at hok
    cases hok
    exact ⟨hheap.1, ok', hinserted⟩
  subst hv'
  generalize s'.heap = h' at hspace ⊢
  cases hspace with
  | fits hlt => exact ⟨L, fun hge => absurd hge (by omega)⟩
  | @grown p h₁ _ hge halloc hfree =>
      have hmax := hgrow hge
      have hpos : 1 ≤ v.nextCapacity * sz :=
        Nat.mul_pos (Nat.pos_of_ne_zero (ok.nextCapacity_ne hsz)) hsz
      have hint := int32_sizeT (n := v.nextCapacity * sz) (by omega)
      rw [Int.natCast_mul] at hint
      rw [hint, ← Int.natCast_mul] at halloc
      obtain ⟨⟨h₂', hfree', L₂⟩, hapart⟩ := grow_lives F L hpos hmax halloc
      have heq : h₂' = h' := Except.ok.inj (hfree'.symm.trans hfree)
      subst heq
      exact ⟨L₂, fun _ => ⟨p, h₁, h₂', halloc, hfree', hapart⟩⟩

/-! ### Pushing on the kernel's heap -/

/-- The capacities that growth from the empty vector leads to. -/
def Doubled (v : BaseVector) : Prop := v.capacity = 0 ∨ ∃ j, v.capacity = 16 * 2 ^ j

theorem Ok.nextCapacity_eq (ok : v.Ok sz) (hsz : 0 < sz) :
    v.nextCapacity = if v.capacity = 0 then 16 else v.capacity * 2 := by
  have hlt := ok.capacity_lt hsz
  rw [nextCapacity]
  split
  · rfl
  · rw [sizeT, Int.emod_eq_of_lt (by omega) (by omega)]
    omega

theorem Doubled.next (D : v.Doubled) (ok : v.Ok sz) (hsz : 0 < sz) :
    ∃ j, v.nextCapacity = 16 * 2 ^ j := by
  rw [ok.nextCapacity_eq hsz]
  rcases D with h0 | ⟨j, hj⟩
  · exact ⟨0, by rw [if_pos h0, Nat.pow_zero]⟩
  · have hpos : 0 < 2 ^ j := Nat.pow_pos (by decide)
    refine ⟨j + 1, ?_⟩
    rw [if_neg (by omega), hj, Nat.pow_succ, Nat.mul_assoc]

/-- A doubled capacity does not come close to 2 GiB without passing it: from 4096 elements on
its size is a multiple of a page. -/
theorem Doubled.fits (D : v.Doubled) (ok : v.Ok sz) (hsz : 0 < sz) (hsz' : sz ≤ 2 ^ 19)
    (hlt : v.nextCapacity * sz < 2 ^ 31) : v.nextCapacity * sz ≤ allocLimit := by
  have hlimit : allocLimit = 2 ^ 31 - 4096 := rfl
  obtain ⟨j, hj⟩ := D.next ok hsz
  rw [hj] at hlt ⊢
  rcases Nat.lt_or_ge j 8 with hsmall | hlarge
  · have hpow : 2 ^ j ≤ 2 ^ 7 := Nat.pow_le_pow_right (by decide) (by omega)
    have hmul : 16 * 2 ^ j * sz ≤ 16 * 2 ^ 7 * 2 ^ 19 :=
      Nat.mul_le_mul (Nat.mul_le_mul_left 16 hpow) hsz'
    omega
  · obtain ⟨i, rfl⟩ := Nat.exists_eq_add_of_le hlarge
    have hpage : 16 * 2 ^ (8 + i) * sz = 4096 * (2 ^ i * sz) := by
      rw [Nat.pow_add, ← Nat.mul_assoc, ← Nat.mul_assoc]
    rw [hpage] at hlt ⊢
    omega

/-- A request for the next capacity that returns asked for no more than the limit. -/
theorem Doubled.fits_of_alloc (D : v.Doubled) (ok : v.Ok sz) (hsz : 0 < sz) (hsz' : sz ≤ 2 ^ 19)
    {r : Nat × Heap} (hal : Kernel.alloc (Kernel.int32 (sizeT (v.nextCapacity * sz))) h = .ok r) :
    v.nextCapacity * sz ≤ allocLimit := by
  have hmax := ok.max
  have hnext : v.nextCapacity * sz < 2 ^ 32 := by
    rw [ok.nextCapacity_eq hsz]
    split
    · omega
    · rw [Nat.mul_right_comm]
      omega
  have hsize : sizeT ((v.nextCapacity : Int) * sz) = (v.nextCapacity * sz : Nat) := by
    rw [← Int.natCast_mul, sizeT, Int.emod_eq_of_lt (by omega) (by omega)]
  rw [hsize] at hal
  obtain ⟨⟨hlo, hhi⟩, hmod⟩ := Kernel.int32_cases (v.nextCapacity * sz)
  have hpos := Kernel.pos_of_alloc hlo hal
  exact D.fits ok hsz hsz' (by omega)

/-- What a push does to the vector, and to the heap with whatever else is live. -/
structure Pushed (m : MemPages) (nodes : Links NodeRef) (slab : Nat → SlabRec) (sz : Nat)
    (x : Elem sz) (rs : List (Nat × Nat)) (v : BaseVector) (s : Store Heap)
    (r : BaseVector × Store Heap) : Prop where
  ok : r.1.Ok sz
  doubled : r.1.Doubled
  inserted : Inserted sz v.len x v r.1 s.bus r.2.bus
  lives : Lives m nodes slab r.2.heap (r.1.range sz ++ rs)

theorem Pushed.elements {r : BaseVector × Store Heap} (P : Pushed m nodes slab sz x rs v s r) :
    r.1.elements sz r.2.bus.mem = v.elements sz s.bus.mem ++ [x] := by
  have hins := P.inserted.elements
  have hlen : (v.elements sz s.bus.mem).length = v.len := elements_length
  rw [← hlen, List.insertIdx_length_self] at hins
  exact hins

theorem doubled_of_insert (D : v.Doubled) (ok : v.Ok sz) (hsz : 0 < sz)
    (hins : v.insert Kernel.allocator pos x s = .ok (v', s')) : v'.Doubled := by
  obtain ⟨v₁, hspace, hv', -⟩ := (insert_eq_ok_iff (ok.nextCapacity_ne hsz)).mp hins
  subst hv'
  generalize s'.heap = h' at hspace
  cases hspace with
  | fits => exact D
  | grown => exact .inr (D.next ok hsz)

/-- `PushBack` on a vector that grew from the empty one returns, or stops where `Alloc`
stops. -/
theorem pushBack_meets (F : MemPages.FreeList m fs) (hsz : 0 < sz) (hsz' : sz ≤ 2 ^ 19)
    (ok : v.Ok sz) (D : v.Doubled) (L : Lives m nodes slab s.heap (v.range sz ++ rs)) :
    Meets (v.pushBack Kernel.allocator x s) (Pushed m nodes slab sz x rs v s)
      fun e => Kernel.alloc (Kernel.int32 (sizeT (v.nextCapacity * sz))) s.heap = .error e := by
  have hspec : ∀ r, (v.capacity ≤ v.len → v.nextCapacity * sz ≤ allocLimit) →
      v.insert Kernel.allocator v.len x s = .ok r → Pushed m nodes slab sz x rs v s r := by
    rintro ⟨v', s'⟩ hgrow hins
    obtain ⟨L', ok', hinserted⟩ := insert_lives F hsz ok L le_rfl hgrow hins
    exact ⟨ok', doubled_of_insert D ok hsz hins, hinserted, L'⟩
  rw [pushBack]
  rcases Nat.lt_or_ge v.len v.capacity with hfits | hge
  · obtain ⟨v', s', hins, -, -⟩ := ok.insert (A := Kernel.allocator) (x := x) (s := s) hsz le_rfl
      fun hge => absurd hge (by omega)
    rw [hins, meets_ok]
    exact hspec _ (fun hge => absurd hge (by omega)) hins
  · cases hal : Kernel.alloc (Kernel.int32 (sizeT (v.nextCapacity * sz))) s.heap with
    | error e =>
        have herr : v.insert Kernel.allocator v.len x s = .error e := by
          rw [insert, ensureSpace, if_pos hge, extend_eq, resetPtr,
            if_neg (ok.nextCapacity_ne hsz)]
          simp only [Kernel.allocator, hal, error_bind]
        rw [herr, meets_error]
    | ok r =>
        obtain ⟨p, h₁⟩ := r
        have hmax := D.fits_of_alloc ok hsz hsz' hal
        have hlimit : allocLimit < 2 ^ 31 := by decide
        rw [← Int.natCast_mul, int32_sizeT (by omega)] at hal
        have hpos : 1 ≤ v.nextCapacity * sz :=
          Nat.mul_pos (Nat.pos_of_ne_zero (ok.nextCapacity_ne hsz)) hsz
        obtain ⟨⟨h₂, hfree, -⟩, hapart⟩ := grow_lives F L hpos hmax hal
        obtain ⟨v', s', hins, -, -⟩ := ok.insert (A := Kernel.allocator) (x := x) (s := s) hsz
          le_rfl fun _ => ⟨by omega, p, h₁, h₂, hal, hfree, hapart⟩
        rw [hins, meets_ok]
        exact hspec _ (fun _ => hmax) hins

/-- A write to one vector's block leaves the elements of another one alone. -/
theorem elements_frame (F : MemPages.FreeList m fs) {sz' : Nat} {u : BaseVector} (okv : v.Ok sz)
    (ok : u.Ok sz') (L : Lives m nodes slab h (v.range sz ++ (u.range sz' ++ rs)))
    {mem mem' : Bytes} (hframe : ∀ a, ¬ InBlock sz v a → mem' a = mem a) :
    u.elements sz' mem' = u.elements sz' mem := by
  apply elements_congr rfl
  intro o ho
  apply hframe
  have hle : u.len * sz' ≤ u.capacity * sz' := Nat.mul_le_mul_right sz' ok.len_le
  cases hu : u.ptr with
  | none =>
      rw [ok.null hu] at hle
      omega
  | some q =>
      cases hv : v.ptr with
      | none =>
          have hcap := okv.null hv
          simp only [InBlock, hv, hcap, Nat.zero_mul, kptr]
          omega
      | some p =>
          have hp : (p, v.capacity * sz) ∈ v.range sz := mem_range.mpr ⟨hv, rfl⟩
          have hq : (q, u.capacity * sz') ∈ u.range sz' ++ rs :=
            List.mem_append_left _ (mem_range.mpr ⟨hu, rfl⟩)
          have hap := (List.pairwise_append.mp (L.apart F)).2.2 _ hp _ hq
          rw [Apart] at hap
          simp only [InBlock, hv, kptr]
          omega

end BaseVector

end Chestnut
