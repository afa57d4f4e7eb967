import Chestnut.Slab.Runs
import Chestnut.Vector.Insert

/-!
# Growth

`Insert` as a whole: what `EnsureSpace` may do, what an insertion leaves in
memory, and sequences of insertions into an empty vector.
-/

namespace Chestnut

open Lib Bus

namespace BaseVector

variable {σ : Type} {A : Allocator σ} {sz pos : Nat} {x : Elem sz}
variable {v v' v₁ : BaseVector} {s s' : Store σ} {b : Bus} {h h' : σ}

/-- The capacity behind `Extend`. -/
def nextCapacity (v : BaseVector) : Nat :=
  if v.capacity = 0 then 16 else (sizeT (v.capacity * 2)).toNat

/-- The outcomes of `EnsureSpace(len)` that are not faults: the vector and the state of the
allocator. -/
inductive Space (A : Allocator σ) (sz : Nat) (v : BaseVector) (h : σ) : BaseVector → σ → Prop
  | fits (hlt : v.len < v.capacity) : Space A sz v h v h
  | grown {p : Nat} {h₁ h₂ : σ} (hge : v.capacity ≤ v.len)
      (halloc : A.alloc (Kernel.int32 (sizeT (v.nextCapacity * sz))) h = .ok (p, h₁))
      (hfree : A.free v.ptr h₁ = .ok h₂) : Space A sz v h ⟨v.nextCapacity, v.len, some p⟩ h₂

/-- Memory behind `EnsureSpace(len)`. -/
def relocated (sz : Nat) (v v' : BaseVector) (b : Bus) : Bus :=
  if v.len < v.capacity then b
  else memcpy (kptr v'.ptr) (kptr v.ptr) (Kernel.int32 (sizeT (v.len * sz))) b

theorem Space.len (hs : Space A sz v h v' h') : v'.len = v.len := by
  cases hs with
  | fits => rfl
  | grown => rfl

theorem extend_eq (A : Allocator σ) (sz : Nat) (v : BaseVector) (s : Store σ) :
    v.extend A sz s = v.resetPtr A v.nextCapacity sz s := by
  rw [extend, nextCapacity]
  split <;> rfl

/-- The completed calls of `EnsureSpace(len)`. -/
theorem ensureSpace_eq_ok_iff (hcap : v.nextCapacity ≠ 0) :
    v.ensureSpace A v.len sz s = .ok (v', s') ↔
      Space A sz v s.heap v' s'.heap ∧ s'.bus = relocated sz v v' s.bus := by
  rw [ensureSpace]
  by_cases hge : v.len ≥ v.capacity
  · rw [if_pos hge, extend_eq, resetPtr, if_neg hcap]
    constructor
    · intro hok
      obtain ⟨⟨p, h₁⟩, halloc, hok⟩ := bind_ok hok
      obtain ⟨h₂, hfree, hok⟩ := bind_ok hok
      cases hok
      refine ⟨.grown hge halloc hfree, ?_⟩
      rw [relocated, if_neg (by omega)]
    · obtain ⟨heap', bus'⟩ := s'
      rintro ⟨hspace, hbus⟩
      cases hspace with
      | fits hlt => omega
      | grown _ halloc hfree =>
          rw [relocated, if_neg (by omega)] at hbus
          change bus' = _ at hbus
          rw [hbus]
          simp only [halloc, ok_bind, hfree]
          rfl
  · rw [if_neg hge]
    constructor
    · intro hok
      cases hok
      refine ⟨.fits (by omega), ?_⟩
      rw [relocated, if_pos (by omega)]
    · obtain ⟨heap', bus'⟩ := s'
      rintro ⟨hspace, hbus⟩
      cases hspace with
      | fits hlt =>
          rw [relocated, if_pos (by omega)] at hbus
          subst hbus
          rfl
      | grown hge' _ _ => omega

/-- The completed calls of `Insert`. -/
theorem insert_eq_ok_iff (hcap : v.nextCapacity ≠ 0) :
    v.insert A pos x s = .ok (v', s') ↔
      ∃ v₁, Space A sz v s.heap v₁ s'.heap ∧
        v' = { v₁ with len := (sizeT (v.len + 1)).toNat } ∧
        s'.bus = place (kptr v₁.ptr) pos v.len x (relocated sz v v₁ s.bus) := by
  rw [insert]
  constructor
  · intro hok
    obtain ⟨⟨v₁, s₁⟩, hspace, hok⟩ := bind_ok hok
    obtain ⟨hspace, hbus⟩ := (ensureSpace_eq_ok_iff hcap).mp hspace
    have hlen := hspace.len
    cases hok
    refine ⟨v₁, hspace, ?_, ?_⟩
    · rw [hlen]
    · rw [← hbus, place, ← hlen]
  · rintro ⟨v₁, hspace, rfl, hbus⟩
    have hlen := hspace.len
    have hok : v.ensureSpace A v.len sz s = .ok (v₁, ⟨s'.heap, relocated sz v v₁ s.bus⟩) :=
      (ensureSpace_eq_ok_iff hcap).mpr ⟨hspace, rfl⟩
    obtain ⟨heap', bus'⟩ := s'
    subst hbus
    rw [hok, ok_bind, ← hlen]
    rfl

/-! ### What an insertion leaves -/

/-- The block of a vector, null or not, is apart from the elements of another. -/
def ApartFrom (sz : Nat) (v' v : BaseVector) : Prop :=
  kptr v'.ptr + (v'.capacity * sz : Nat) ≤ kptr v.ptr ∨
    kptr v.ptr + (v.len * sz : Nat) ≤ kptr v'.ptr

/-- The elements survive a relocation. -/
theorem relocated_spec (hlen : v'.len = v.len) (hlt : v.len < v'.capacity)
    (hmax : v'.capacity * sz < 2 ^ 31) (hspace : v.len < v.capacity → v' = v)
    (hapart : v.capacity ≤ v.len → ApartFrom sz v' v) :
    elements sz v' (relocated sz v v' b).mem = elements sz v b.mem ∧
      (∀ a, .write a ∈ (relocated sz v v' b).log → .write a ∈ b.log ∨ InBlock sz v' a) ∧
      ∀ a, ¬ InBlock sz v' a → (relocated sz v v' b).mem a = b.mem a := by
  rw [relocated]
  by_cases hfits : v.len < v.capacity
  · rw [if_pos hfits, hspace hfits]
    exact ⟨rfl, fun a ha => .inl ha, fun a _ => rfl⟩
  · rw [if_neg hfits]
    have hle : v.len * sz ≤ v'.capacity * sz := Nat.mul_le_mul_right sz (Nat.le_of_lt hlt)
    have hn : v.len * sz < 2 ^ 31 := by omega
    have hint : Kernel.int32 (sizeT ((v.len : Int) * sz)) = (v.len * sz : Nat) := by
      rw [← Int.natCast_mul, int32_sizeT hn]
    have hap := hapart (by omega)
    rw [ApartFrom] at hap
    have hmem : ∀ a, (memcpy (kptr v'.ptr) (kptr v.ptr) (v.len * sz : Nat) b).mem a = _ :=
      memcpy_mem hn (by omega)
    rw [hint]
    refine ⟨?_, ?_, ?_⟩
    · apply elements_congr hlen
      intro o ho
      have haddr : kptr v'.ptr + o - kptr v'.ptr + kptr v.ptr = kptr v.ptr + o := by omega
      rw [hmem, if_pos (by omega), haddr]
    · intro a ha
      rw [write_mem_memcpy hn] at ha
      rw [InBlock]
      rcases ha with ha | ha
      · exact .inl ha
      · right
        omega
    · intro a ha
      rw [InBlock] at ha
      rw [hmem, if_neg (by omega)]

/-- What a completed insertion does. -/
structure Inserted (sz pos : Nat) (x : Elem sz) (v v' : BaseVector) (b b' : Bus) : Prop where
  len : v'.len = v.len + 1
  len_le : v'.len ≤ v'.capacity
  elements : elements sz v' b'.mem = (elements sz v b.mem).insertIdx pos x
  writes : ∀ a, .write a ∈ b'.log → .write a ∈ b.log ∨ InBlock sz v' a
  frame : ∀ a, ¬ InBlock sz v' a → b'.mem a = b.mem a

theorem sizeT_succ {n : Nat} (h : n + 1 < 2 ^ 64) : (sizeT (n + 1)).toNat = n + 1 := by
  rw [sizeT, Int.emod_eq_of_lt (by omega) (by omega)]
  omega

/-- An insertion into a vector with room for one more element. -/
theorem inserted_of_room (v₁ : BaseVector) (hsz : 0 < sz) (hpos : pos ≤ v.len)
    (hlen : v₁.len = v.len) (hlt : v.len < v₁.capacity) (hmax : v₁.capacity * sz < 2 ^ 31)
    (hspace : v.len < v.capacity → v₁ = v) (hapart : v.capacity ≤ v.len → ApartFrom sz v₁ v) :
    Inserted sz pos x v { v₁ with len := (sizeT (v.len + 1)).toNat } b
      (place (kptr v₁.ptr) pos v.len x (relocated sz v v₁ b)) := by
  obtain ⟨helems, hwrites, hframe⟩ := relocated_spec (b := b) hlen hlt hmax hspace hapart
  have hcap : v₁.capacity ≤ v₁.capacity * sz := Nat.le_mul_of_pos_right _ hsz
  have hmul : (v.len + 1) * sz ≤ v₁.capacity * sz := Nat.mul_le_mul_right sz hlt
  have hn : v.len * sz < 2 ^ 31 := by
    rw [Nat.add_mul] at hmul
    omega
  have hsucc : (sizeT (v.len + 1)).toNat = v.len + 1 := sizeT_succ (by omega)
  have hlow : kptr v₁.ptr ≤ slotPtr (kptr v₁.ptr) sz pos := by
    rw [slotPtr]
    omega
  have hhigh : slotPtr (kptr v₁.ptr) sz (v.len + 1) ≤ kptr v₁.ptr + (v₁.capacity * sz : Nat) := by
    rw [slotPtr]
    omega
  refine ⟨hsucc, ?_, ?_, ?_, ?_⟩
  · rw [hsucc]
    exact hlt
  · rw [← helems, BaseVector.elements, BaseVector.elements, hsucc, hlen]
    exact map_elemAt_place hpos hn
  · intro a ha
    rw [write_mem_place hpos hn] at ha
    rcases ha with ha | ha
    · exact hwrites a ha
    · right
      simp only [InBlock]
      omega
  · intro a ha
    have hout := ha
    simp only [InBlock] at hout
    have hnext := slotPtr_le (kptr v₁.ptr) sz (show pos + 1 ≤ v.len + 1 by omega)
    have hsucc := slotPtr_succ (kptr v₁.ptr) sz pos
    rw [place_mem hpos hn, if_neg (by omega), if_neg (by omega)]
    exact hframe a ha

/-! ### The representation -/

/-- A vector that growth leaves behind. -/
structure Ok (sz : Nat) (v : BaseVector) : Prop where
  len_le : v.len ≤ v.capacity
  max : v.capacity * sz < 2 ^ 31
  null : v.ptr = none → v.capacity = 0

theorem Ok.empty (sz : Nat) : Ok sz {} :=
  ⟨le_rfl, by rw [Nat.zero_mul]; decide, fun _ => rfl⟩

theorem Ok.capacity_lt (ok : Ok sz v) (hsz : 0 < sz) : v.capacity < 2 ^ 31 :=
  lt_of_le_of_lt (Nat.le_mul_of_pos_right _ hsz) ok.max

/-- `Extend` makes room. -/
theorem Ok.lt_nextCapacity (ok : Ok sz v) (hsz : 0 < sz) : v.len < v.nextCapacity := by
  have hle := ok.len_le
  have hlt := ok.capacity_lt hsz
  rw [nextCapacity]
  split
  · omega
  · rw [sizeT, Int.emod_eq_of_lt (by omega) (by omega)]
    omega

theorem Ok.nextCapacity_ne (ok : Ok sz v) (hsz : 0 < sz) : v.nextCapacity ≠ 0 := by
  have hlt := ok.lt_nextCapacity hsz
  omega

/-- The allocator serves the growth of a vector: `Alloc` returns a block that does not meet
the old one, and `Free` takes the old one back. -/
def Served (A : Allocator σ) (sz : Nat) (v : BaseVector) (h : σ) : Prop :=
  ∃ p h₁ h₂, A.alloc (v.nextCapacity * sz : Nat) h = .ok (p, h₁) ∧ A.free v.ptr h₁ = .ok h₂ ∧
    ∀ q, v.ptr = some q → p + v.nextCapacity * sz ≤ q ∨ q + v.capacity * sz ≤ p

theorem served_iff (A : Allocator σ) (sz : Nat) (v : BaseVector) (h : σ) :
    (okAnd (A.alloc (v.nextCapacity * sz : Nat) h) fun r => okAnd (A.free v.ptr r.2) fun _ =>
      v.ptr.all fun q => decide (r.1 + v.nextCapacity * sz ≤ q ∨ q + v.capacity * sz ≤ r.1)) =
      true ↔ v.Served A sz h := by
  constructor
  · intro hrun
    obtain ⟨⟨p, h₁⟩, halloc, hrun⟩ := exists_of_okAnd hrun
    obtain ⟨h₂, hfree, hq⟩ := exists_of_okAnd hrun
    refine ⟨p, h₁, h₂, halloc, hfree, fun q hptr => ?_⟩
    rw [hptr, Option.all_some, decide_eq_true_eq] at hq
    exact hq
  · rintro ⟨p, h₁, h₂, halloc, hfree, hq⟩
    simp only [halloc, okAnd_ok, hfree, Option.all_eq_true, decide_eq_true_eq]
    exact hq

instance (A : Allocator σ) (sz : Nat) (v : BaseVector) (h : σ) : Decidable (v.Served A sz h) :=
  decidable_of_iff _ (served_iff A sz v h)

/-- A full vector and its new block are apart. -/
theorem Ok.apartFrom (ok : Ok sz v) {p : Nat} (hge : v.capacity ≤ v.len)
    (hq : ∀ q, v.ptr = some q → p + v.nextCapacity * sz ≤ q ∨ q + v.capacity * sz ≤ p) :
    ApartFrom sz ⟨v.nextCapacity, v.len, some p⟩ v := by
  have hfull : v.len = v.capacity := le_antisymm ok.len_le hge
  rw [ApartFrom, hfull]
  cases hptr : v.ptr with
  | none =>
      rw [ok.null hptr, Nat.zero_mul]
      simp only [kptr]
      omega
  | some q =>
      have hap := hq q hptr
      simp only [kptr]
      omega

/-- A call of `Insert` that gets what it asks the allocator for returns. -/
theorem Ok.insert (ok : Ok sz v) (hsz : 0 < sz) (hpos : pos ≤ v.len)
    (hgrow : v.capacity ≤ v.len → v.nextCapacity * sz < 2 ^ 31 ∧ Served A sz v s.heap) :
    ∃ v' s', v.insert A pos x s = .ok (v', s') ∧ Ok sz v' ∧
      Inserted sz pos x v v' s.bus s'.bus := by
  have hcap := ok.nextCapacity_ne hsz
  rcases Nat.lt_or_ge v.len v.capacity with hfits | hge
  · have hins := inserted_of_room (x := x) (b := s.bus) v hsz hpos rfl hfits ok.max (fun _ => rfl)
      (fun h => absurd h (by omega))
    refine ⟨_, ⟨s.heap, place (kptr v.ptr) pos v.len x (relocated sz v v s.bus)⟩,
      (insert_eq_ok_iff hcap).mpr ⟨v, .fits hfits, rfl, rfl⟩, ?_, hins⟩
    exact ⟨hins.len_le, ok.max, ok.null⟩
  · obtain ⟨hmax, p, h₁, h₂, halloc, hfree, hapart⟩ := hgrow hge
    rw [← int32_sizeT hmax, Int.natCast_mul] at halloc
    have hins := inserted_of_room (x := x) (b := s.bus)
      ⟨v.nextCapacity, v.len, some p⟩ hsz hpos rfl (ok.lt_nextCapacity hsz) hmax
      (fun h => absurd h (by omega)) (fun _ => ok.apartFrom hge hapart)
    refine ⟨_, ⟨h₂, _⟩,
      (insert_eq_ok_iff hcap).mpr ⟨_, .grown hge halloc hfree, rfl, rfl⟩, ?_, hins⟩
    exact ⟨hins.len_le, hmax, fun h => absurd h (by simp)⟩

end BaseVector

/-! ### Sequences of insertions -/

/-- A vector, the allocator's state and memory. -/
structure VectorState (σ : Type) where
  vec : BaseVector
  store : Store σ

/-- The insertions. -/
inductive VectorOp (sz : Nat)
  | insert (pos : Nat) (x : Elem sz)
  | pushBack (x : Elem sz)

namespace VectorOp

variable {sz : Nat}

/-- The insertion into a list. -/
def apply : VectorOp sz → List (Elem sz) → List (Elem sz)
  | .insert pos x, xs => xs.insertIdx pos x
  | .pushBack x, xs => xs ++ [x]

end VectorOp

namespace VectorState

variable {σ : Type} {A : Allocator σ} {sz : Nat} {st : VectorState σ}

/-- An empty vector. -/
def initial (h : σ) (m : Bytes) : VectorState σ := ⟨{}, ⟨h, { mem := m }⟩⟩

/-- Memory as it is, with an empty log. -/
def start (st : VectorState σ) : Store σ := { st.store with bus := { mem := st.store.bus.mem } }

/-- One insertion; the log of the new state is that of the call. -/
def step (A : Allocator σ) (st : VectorState σ) : VectorOp sz → Except Fault (VectorState σ)
  | .insert pos x => do
      let (v, s) ← st.vec.insert A pos x st.start
      return ⟨v, s⟩
  | .pushBack x => do
      let (v, s) ← st.vec.pushBack A x st.start
      return ⟨v, s⟩

/-- The position is one of the list, and the growth that the insertion needs stays below
2 GiB and is served. -/
def Allowed (A : Allocator σ) (st : VectorState σ) (op : VectorOp sz) : Prop :=
  (∀ pos x, op = .insert pos x → pos ≤ st.vec.len) ∧
    (st.vec.capacity ≤ st.vec.len → st.vec.nextCapacity * sz < 2 ^ 31 ∧
      st.vec.Served A sz st.store.heap)

/-- The position of an insertion is one of the list. -/
def Within (st : VectorState σ) : VectorOp sz → Bool
  | .insert pos _ => decide (pos ≤ st.vec.len)
  | .pushBack _ => true

theorem within_iff (st : VectorState σ) (op : VectorOp sz) :
    st.Within op = true ↔ ∀ pos x, op = .insert pos x → pos ≤ st.vec.len := by
  cases op <;> simp [Within]

theorem within_and_iff (A : Allocator σ) (st : VectorState σ) (op : VectorOp sz) :
    (st.Within op = true ∧ (st.vec.capacity ≤ st.vec.len →
      st.vec.nextCapacity * sz < 2 ^ 31 ∧ st.vec.Served A sz st.store.heap)) ↔
      Allowed A st op := by
  rw [within_iff, Allowed]

instance (A : Allocator σ) (st : VectorState σ) (op : VectorOp sz) : Decidable (Allowed A st op) :=
  decidable_of_iff _ (within_and_iff A st op)

/-- The state holds the list, with a log that stays in the block. -/
structure Holds (sz : Nat) (st : VectorState σ) (xs : List (Elem sz)) : Prop where
  ok : st.vec.Ok sz
  elements : st.vec.elements sz st.store.bus.mem = xs
  writes : ∀ a, .write a ∈ st.store.bus.log → st.vec.InBlock sz a

theorem step_insert {pos : Nat} {x : Elem sz} (hsz : 0 < sz) {xs : List (Elem sz)}
    (H : Holds sz st xs) (hpos : pos ≤ st.vec.len)
    (hgrow : st.vec.capacity ≤ st.vec.len → st.vec.nextCapacity * sz < 2 ^ 31 ∧
      st.vec.Served A sz st.store.heap) :
    ∃ st', step A st (.insert pos x) = .ok st' ∧ Holds sz st' (xs.insertIdx pos x) := by
  obtain ⟨v', s', hok, hv, hins⟩ := H.ok.insert (A := A) (s := st.start) (x := x) hsz hpos hgrow
  refine ⟨⟨v', s'⟩, ?_, hv, ?_, ?_⟩
  · rw [step, hok]
    rfl
  · rw [← H.elements]
    exact hins.elements
  · intro a ha
    exact (hins.writes a ha).resolve_left List.not_mem_nil

/-- Every allowed insertion returns and inserts. -/
theorem step_spec (hsz : 0 < sz) {xs : List (Elem sz)} (H : Holds sz st xs) {op : VectorOp sz}
    (ha : Allowed A st op) : ∃ st', step A st op = .ok st' ∧ Holds sz st' (op.apply xs) := by
  obtain ⟨hpos, hgrow⟩ := ha
  cases op with
  | insert pos x => exact step_insert hsz H (hpos pos x rfl) hgrow
  | pushBack x =>
      have hlen : xs.length = st.vec.len := by rw [← H.elements, BaseVector.elements_length]
      obtain ⟨st', hstep, H'⟩ := step_insert (x := x) hsz H le_rfl hgrow
      refine ⟨st', hstep, ?_⟩
      rw [← hlen, List.insertIdx_length_self] at H'
      exact H'

/-- The list that the same insertions make of the empty list; the history has the latest
insertion first. -/
def listOf (tr : List (VectorState σ × VectorOp sz)) : List (Elem sz) :=
  tr.foldr (fun e xs => e.2.apply xs) []

/-- Over every sequence of insertions into an empty vector that the allocator serves: the
elements are those of the list, the length is within the capacity, the last insertion wrote
only to the vector's block, and the next one returns. -/
theorem insertions_spec (A : Allocator σ) (hsz : 0 < sz) (h : σ) (m : Bytes)
    (tr : List (VectorState σ × VectorOp sz)) (st : VectorState σ)
    (hrun : Steps (step A) (Allowed A) (initial h m) tr st) :
    st.vec.elements sz st.store.bus.mem = listOf tr ∧ st.vec.len ≤ st.vec.capacity ∧
      (∀ a, .write a ∈ st.store.bus.log → st.vec.InBlock sz a) ∧
      ∀ op : VectorOp sz, Allowed A st op → ∃ st', step A st op = .ok st' := by
  have H : Holds sz st (listOf tr) := by
    refine Steps.inv (I := fun tr st => Holds sz st (listOf tr)) ?_ ?_ hrun
    · exact ⟨.empty sz, rfl, fun a ha => absurd ha List.not_mem_nil⟩
    · intro tr st op st' H ha hs
      obtain ⟨st'', hs', H'⟩ := step_spec hsz H ha
      rw [hs] at hs'
      cases hs'
      exact H'
  refine ⟨H.elements, H.ok.len_le, H.writes, ?_⟩
  intro op ha
  obtain ⟨st', hs, -⟩ := step_spec hsz H ha
  exact ⟨st', hs⟩

/-- Bytes 0 to 15, then one in the middle and one at the end. -/
def sampleInsertions : List (VectorOp 1) :=
  (List.range 16).map (fun i => .pushBack fun _ => BitVec.ofNat 8 i) ++
    [.insert 8 fun _ => 100#8, .pushBack fun _ => 101#8]

/-- On the kernel's heap with six free pages: the vector grows for the first byte, and again
for the one that is inserted in the middle of the sixteen. -/
theorem insertions_spec_machine :
    ∃ (tr : List (VectorState Heap × VectorOp 1)) (st : VectorState Heap),
      Steps (step Kernel.allocator) (Allowed Kernel.allocator)
        (initial (HeapWorld.machine 6).heap fun _ => 0#8) tr st ∧
      st.vec.capacity = 32 ∧
      (st.vec.elements 1 st.store.bus.mem).map (· 0) =
        [0#8, 1#8, 2#8, 3#8, 4#8, 5#8, 6#8, 7#8, 100#8, 8#8, 9#8, 10#8, 11#8, 12#8, 13#8, 14#8,
          15#8, 101#8] := by
  obtain ⟨tr, st, hrun, hlast⟩ := exists_of_runAnd (step Kernel.allocator)
    (Allowed Kernel.allocator) sampleInsertions (initial (HeapWorld.machine 6).heap fun _ => 0#8)
    (fun tr st => st.vec.capacity == 32 && decide ((listOf tr).map (· 0) =
      [0#8, 1#8, 2#8, 3#8, 4#8, 5#8, 6#8, 7#8, 100#8, 8#8, 9#8, 10#8, 11#8, 12#8, 13#8, 14#8,
        15#8, 101#8])) (by decide +kernel)
  simp only [Bool.and_eq_true, beq_iff_eq, decide_eq_true_eq] at hlast
  obtain ⟨helems, -⟩ := insertions_spec Kernel.allocator Nat.one_pos _ _ tr st hrun
  exact ⟨tr, st, hrun, hlast.1, by rw [helems]; exact hlast.2⟩

end VectorState

end Chestnut
