import Chestnut.Vector.Heap

/-!
# Vectors and their blocks

Any number of `Vector<T>` objects on the kernel's heap: default and move
constructions and insertions. A vector owns the block behind its pointer. The
move constructor leaves the capacity of its argument as it was, next to a null
pointer, so a later insertion into the argument writes through null; and a
growth beyond the limit of the heap gets a block that is too small or cannot be
given back.
-/

namespace Chestnut

open Lib HeapWorld

section

variable {m : MemPages} {fs : List Nat} {nodes : Links NodeRef} {slab : Nat → SlabRec}

/-- All `Vector<T>` objects, the heap and memory. -/
structure VectorWorld where
  store : Store Heap
  objects : List BaseVector

/-- What code does to vectors. -/
inductive ObjectOp (sz : Nat)
  | construct
  | move (i : Nat)
  | insert (i pos : Nat) (x : Elem sz)
  | pushBack (i : Nat) (x : Elem sz)

/-- The object that an insertion works on. -/
def ObjectOp.target {sz : Nat} : ObjectOp sz → Option Nat
  | .construct => none
  | .move _ => none
  | .insert i _ _ => some i
  | .pushBack i _ => some i

namespace VectorWorld

variable {sz : Nat} {w w' : VectorWorld}

def initial (h : Heap) (mem : Bytes) : VectorWorld := ⟨⟨h, { mem := mem }⟩, []⟩

def object (w : VectorWorld) (i : Nat) : BaseVector := w.objects.getD i {}

/-- Memory as it is, with an empty log. -/
def start (w : VectorWorld) : Store Heap := { w.store with bus := { mem := w.store.bus.mem } }

/-- One operation; the log of the new state is that of the call. -/
def step (w : VectorWorld) : ObjectOp sz → Except Fault VectorWorld
  | .construct => .ok { w with objects := w.objects ++ [{}] }
  | .move i =>
      let (new, rest) := (w.object i).moveFrom
      .ok { w with objects := w.objects.set i rest ++ [new] }
  | .insert i pos x => do
      let (v, s) ← (w.object i).insert Kernel.allocator pos x w.start
      return ⟨s, w.objects.set i v⟩
  | .pushBack i x => do
      let (v, s) ← (w.object i).pushBack Kernel.allocator x w.start
      return ⟨s, w.objects.set i v⟩

/-- The object exists and the position is one of its list. -/
def Allowed (w : VectorWorld) : ObjectOp sz → Prop
  | .construct => True
  | .move i => i < w.objects.length
  | .insert i pos _ => i < w.objects.length ∧ pos ≤ (w.object i).len
  | .pushBack i _ => i < w.objects.length

/-- A growth that the operation needs stays within the limit of the heap. -/
def GrowthFits (sz : Nat) (v : BaseVector) : Prop :=
  v.capacity ≤ v.len → v.nextCapacity * sz ≤ allocLimit

/-- No vector with a capacity is moved from, and no growth goes beyond the limit. -/
def Keeps (w : VectorWorld) : ObjectOp sz → Prop
  | .construct => True
  | .move i => (w.object i).capacity = 0
  | .insert i _ _ => GrowthFits sz (w.object i)
  | .pushBack i _ => GrowthFits sz (w.object i)

/-- What every vector needs: its length is within its capacity, and its pointer is null and
its capacity zero, or the pointer is to a live block that no other vector has and that holds
the capacity. -/
structure Owned (m : MemPages) (nodes : Links NodeRef) (slab : Nat → SlabRec) (sz : Nat)
    (w : VectorWorld) : Prop where
  len_le : ∀ v ∈ w.objects, v.len ≤ v.capacity
  block : ∃ hw, Reachable m nodes slab hw ∧ hw.heap = w.store.heap ∧
    ∀ v ∈ w.objects, (v.ptr = none ∧ v.capacity = 0) ∨
      ∃ b ∈ hw.blocks, v.ptr = some b.addr ∧ v.capacity * sz ≤ b.size
  distinct : w.objects.Pairwise fun v v' => v.ptr = none ∨ v.ptr ≠ v'.ptr

/-- The invariant of the runs that keep ownership. -/
structure Inv (m : MemPages) (nodes : Links NodeRef) (slab : Nat → SlabRec) (sz : Nat)
    (w : VectorWorld) : Prop where
  ok : ∀ v ∈ w.objects, v.Ok sz
  lives : Lives m nodes slab w.store.heap (w.objects.flatMap (BaseVector.range sz))

theorem Inv.owned (I : Inv m nodes slab sz w) : Owned m nodes slab sz w := by
  obtain ⟨hw, hreach, hheap, hback, hpair⟩ := I.lives
  refine ⟨fun v hv => (I.ok v hv).len_le, ⟨hw, hreach, hheap, ?_⟩, ?_⟩
  · intro v hv
    cases hptr : v.ptr with
    | none => exact .inl ⟨rfl, (I.ok v hv).null hptr⟩
    | some p =>
        right
        have hmem : (p, v.capacity * sz) ∈ w.objects.flatMap (BaseVector.range sz) :=
          List.mem_flatMap.mpr ⟨v, hv, BaseVector.mem_range.mpr ⟨hptr, rfl⟩⟩
        obtain ⟨-, b, ha, haddr, hsize⟩ := hback _ hmem
        exact ⟨b, mem_of_allowed_free ha, by rw [haddr], hsize⟩
  · apply (List.pairwise_flatMap.mp hpair).2.imp
    intro v v' hdisj
    cases hptr : v.ptr with
    | none => exact .inl rfl
    | some p =>
        right
        intro heq
        exact hdisj (p, v.capacity * sz) (BaseVector.mem_range.mpr ⟨hptr, rfl⟩)
          (p, v'.capacity * sz) (BaseVector.mem_range.mpr ⟨heq.symm, rfl⟩) rfl

/-- Taking one vector out of the list. -/
theorem flatMap_range_perm (sz : Nat) {i : Nat} (hi : i < w.objects.length) :
    (w.objects.flatMap (BaseVector.range sz)).Perm
      ((w.object i).range sz ++ (w.objects.eraseIdx i).flatMap (BaseVector.range sz)) := by
  have hobj : w.object i = w.objects[i] := List.getD_eq_getElem _ _ hi
  have hperm := (List.getElem_cons_eraseIdx_perm hi).symm.flatMap_right (BaseVector.range sz)
  rw [List.flatMap_cons, ← hobj] at hperm
  exact hperm

/-- The object behind an insertion. -/
theorem object_set {i : Nat} (hi : i < w.objects.length) (s : Store Heap) (v : BaseVector) :
    VectorWorld.object ⟨s, w.objects.set i v⟩ i = v := by
  have hlen : i < (w.objects.set i v).length := by rwa [List.length_set]
  rw [object, List.getD_eq_getElem _ _ hlen, List.getElem_set_self]

theorem flatMap_set_perm {i : Nat} (hi : i < w.objects.length) (v : BaseVector) :
    ((w.objects.set i v).flatMap (BaseVector.range sz)).Perm
      (v.range sz ++ (w.objects.eraseIdx i).flatMap (BaseVector.range sz)) := by
  have hlen : i < (w.objects.set i v).length := by rwa [List.length_set]
  have hperm := flatMap_range_perm sz (w := ⟨w.store, w.objects.set i v⟩) hlen
  rw [object_set hi, List.eraseIdx_set_eq] at hperm
  exact hperm

theorem object_mem {i : Nat} (hi : i < w.objects.length) : w.object i ∈ w.objects := by
  rw [object, List.getD_eq_getElem _ _ hi]
  exact List.getElem_mem hi

/-- An insertion within the limit. -/
theorem Inv.insert (F : MemPages.FreeList m fs) (hsz : 0 < sz) (I : Inv m nodes slab sz w)
    {i pos : Nat} {x : Elem sz} (hi : i < w.objects.length) (hpos : pos ≤ (w.object i).len)
    (hgrow : GrowthFits sz (w.object i)) {v : BaseVector} {s : Store Heap}
    (hins : (w.object i).insert Kernel.allocator pos x w.start = .ok (v, s)) :
    Inv m nodes slab sz ⟨s, w.objects.set i v⟩ ∧
      ∀ a, .write a ∈ s.bus.log → v.InBlock sz a := by
  have L := I.lives.perm (flatMap_range_perm sz hi)
  obtain ⟨L', ok', hinserted⟩ :=
    BaseVector.insert_lives (s := w.start) F hsz (I.ok _ (object_mem hi)) L hpos hgrow hins
  refine ⟨⟨?_, L'.perm (flatMap_set_perm hi v).symm⟩, ?_⟩
  · intro u hu
    rcases List.mem_or_eq_of_mem_set hu with hu | rfl
    · exact I.ok u hu
    · exact ok'
  · have hlog : w.start.bus.log = [] := rfl
    intro a ha
    have hwrite := hinserted.writes a ha
    rw [hlog] at hwrite
    exact hwrite.resolve_left List.not_mem_nil

/-- An insertion beyond the limit. -/
theorem not_owned_of_insert (hsz : 0 < sz) {i pos : Nat} {x : Elem sz}
    (hi : i < w.objects.length) (ok : (w.object i).Ok sz) (hgrow : ¬ GrowthFits sz (w.object i))
    {v : BaseVector} {s : Store Heap}
    (hins : (w.object i).insert Kernel.allocator pos x w.start = .ok (v, s)) :
    ¬ Owned m nodes slab sz ⟨s, w.objects.set i v⟩ := by
  intro O
  rw [GrowthFits, Classical.not_imp] at hgrow
  obtain ⟨hge, hlarge⟩ := hgrow
  obtain ⟨v₁, hspace, hv, -⟩ :=
    (BaseVector.insert_eq_ok_iff (ok.nextCapacity_ne hsz)).mp hins
  have hcap : v.ptr ≠ none ∧ v.capacity = (w.object i).nextCapacity := by
    subst hv
    generalize s.heap = h' at hspace
    cases hspace with
    | fits hlt => omega
    | grown => exact ⟨by simp, rfl⟩
  obtain ⟨hw, hreach, -, hblock⟩ := O.block
  have hmem : v ∈ w.objects.set i v := List.mem_set hi v
  rcases hblock v hmem with hnull | ⟨b, hb, -, hsize⟩
  · exact hcap.1 hnull.1
  · have hle := hreach.size_le b hb
    rw [hcap.2] at hsize
    omega

/-- A vector without capacity is as if constructed. -/
theorem Inv.object_eq (I : Inv m nodes slab sz w) {i : Nat} (hi : i < w.objects.length)
    (hcap : (w.object i).capacity = 0) : w.object i = {} := by
  have hlen := (I.ok _ (object_mem hi)).len_le
  have hptr : (w.object i).ptr = none := by
    obtain ⟨hw, -, -, hback, -⟩ := I.lives
    cases hptr : (w.object i).ptr with
    | none => rfl
    | some p =>
        have hmem : (p, (w.object i).capacity * sz) ∈ w.objects.flatMap (BaseVector.range sz) :=
          List.mem_flatMap.mpr ⟨_, object_mem hi, BaseVector.mem_range.mpr ⟨hptr, rfl⟩⟩
        have hpos := (hback _ hmem).1
        rw [hcap, Nat.zero_mul] at hpos
        cases hpos
  cases hv : w.object i with
  | mk capacity len ptr =>
      rw [hv] at hcap hlen hptr
      simp only at hcap hlen hptr
      subst hcap hptr
      rw [Nat.le_zero.mp hlen]

/-- Empty vectors change nothing. -/
theorem Inv.append_empty (I : Inv m nodes slab sz w) :
    Inv m nodes slab sz ⟨w.store, w.objects ++ [({} : BaseVector)]⟩ := by
  refine ⟨?_, ?_⟩
  · intro v hv
    rcases List.mem_append.mp hv with hv | hv
    · exact I.ok v hv
    · rw [List.mem_singleton.mp hv]
      exact .empty sz
  · rw [List.flatMap_append]
    simpa [BaseVector.range] using I.lives

/-- A move keeps ownership exactly if there was nothing to move. -/
theorem move_spec (I : Inv m nodes slab sz w) {i : Nat} (hi : i < w.objects.length)
    (hs : w.step (.move i : ObjectOp sz) = .ok w') :
    ((w.object i).capacity = 0 → Inv m nodes slab sz w') ∧
      ((w.object i).capacity ≠ 0 → ¬ Owned m nodes slab sz w') := by
  cases hs
  constructor
  · intro hcap
    have hobj := I.object_eq hi hcap
    have hset : w.objects.set i ({} : BaseVector) = w.objects := by
      rw [← hobj, object, List.getD_eq_getElem _ _ hi, List.set_getElem_self]
    rw [hobj]
    change Inv m nodes slab sz ⟨w.store, w.objects.set i {} ++ [({} : BaseVector)]⟩
    rw [hset]
    exact I.append_empty
  · intro hcap O
    obtain ⟨hw, -, -, hblock⟩ := O.block
    have hmem : (w.object i).moveFrom.2 ∈
        w.objects.set i (w.object i).moveFrom.2 ++ [(w.object i).moveFrom.1] :=
      List.mem_append_left _ (List.mem_set hi _)
    rcases hblock _ hmem with hnull | ⟨b, -, hptr, -⟩
    · exact hcap hnull.2
    · cases hptr

/-- One operation: what it keeps, what it breaks, and where it writes. -/
theorem step_spec (F : MemPages.FreeList m fs) (hsz : 0 < sz) (I : Inv m nodes slab sz w)
    {op : ObjectOp sz} (ha : w.Allowed op) (hs : w.step op = .ok w') :
    (w.Keeps op → Inv m nodes slab sz w' ∧ ∀ i, op.target = some i →
      ∀ a, .write a ∈ w'.store.bus.log → (w'.object i).InBlock sz a) ∧
    (¬ w.Keeps op → ¬ Owned m nodes slab sz w') := by
  have hinsert : ∀ {i pos : Nat} {x : Elem sz} {v : BaseVector} {s : Store Heap},
      i < w.objects.length → pos ≤ (w.object i).len →
      (w.object i).insert Kernel.allocator pos x w.start = .ok (v, s) →
      (GrowthFits sz (w.object i) → Inv m nodes slab sz ⟨s, w.objects.set i v⟩ ∧
        ∀ j, some i = some j → ∀ a, .write a ∈ s.bus.log →
          (VectorWorld.object ⟨s, w.objects.set i v⟩ j).InBlock sz a) ∧
      (¬ GrowthFits sz (w.object i) → ¬ Owned m nodes slab sz ⟨s, w.objects.set i v⟩) := by
    intro i pos x v s hi hpos hins
    constructor
    · intro hgrow
      obtain ⟨I', hwrites⟩ := I.insert F hsz hi hpos hgrow hins
      refine ⟨I', ?_⟩
      rintro j ⟨⟩
      rw [object_set hi]
      exact hwrites
    · exact fun hgrow => not_owned_of_insert hsz hi (I.ok _ (object_mem hi)) hgrow hins
  cases op with
  | construct =>
      cases hs
      exact ⟨fun _ => ⟨I.append_empty, fun i hi => by cases hi⟩, fun h => absurd trivial h⟩
  | move i =>
      obtain ⟨hkeep, hbreak⟩ := move_spec I ha hs
      exact ⟨fun h => ⟨hkeep h, fun j hj => by cases hj⟩, hbreak⟩
  | insert i pos x =>
      obtain ⟨⟨v, s⟩, hins, hs⟩ := bind_ok hs
      cases hs
      exact hinsert ha.1 ha.2 hins
  | pushBack i x =>
      obtain ⟨⟨v, s⟩, hins, hs⟩ := bind_ok hs
      cases hs
      exact hinsert ha le_rfl hins

/-- Ownership over whole runs. As long as no vector with a capacity is moved from and no
growth goes beyond the limit of the heap, every vector has its own live block and insertions
write only there; and an operation that breaks this condition breaks ownership at once. -/
theorem owned_iff (F : MemPages.FreeList m fs) (hsz : 0 < sz) {hw : HeapWorld}
    (hreach : Reachable m nodes slab hw) (mem : Bytes) (w : VectorWorld)
    (hrun : Reach step (fun w (op : ObjectOp sz) => w.Allowed op ∧ w.Keeps op)
      (initial hw.heap mem) w) :
    Owned m nodes slab sz w ∧
      ∀ (op : ObjectOp sz) (w' : VectorWorld), w.Allowed op → w.step op = .ok w' →
        (Owned m nodes slab sz w' ↔ w.Keeps op) ∧
        (w.Keeps op → ∀ i, op.target = some i →
          ∀ a, .write a ∈ w'.store.bus.log → (w'.object i).InBlock sz a) := by
  have I : Inv m nodes slab sz w := by
    refine Reach.inv (I := Inv m nodes slab sz) ?_ ?_ hrun
    · exact ⟨fun v hv => absurd hv List.not_mem_nil, .nil hreach⟩
    · intro w op w' I ha hs
      exact ((step_spec F hsz I ha.1 hs).1 ha.2).1
  refine ⟨I.owned, ?_⟩
  intro op w' ha hs
  obtain ⟨hkeep, hbreak⟩ := step_spec F hsz I ha hs
  refine ⟨⟨fun O => ?_, fun h => (hkeep h).1.owned⟩, fun h => (hkeep h).2⟩
  by_contra h
  exact hbreak h O

/-- No objects yet, on a machine with four free pages and memory of zeros. -/
def boot : VectorWorld := initial (HeapWorld.machine 4).heap fun _ => 0#8

/-- A vector of bytes with its first element, as the only object. -/
def firstPush : Except Fault VectorWorld := do
  let w ← boot.step (.construct : ObjectOp 1)
  w.step (.pushBack 0 fun _ : Fin 1 => 7#8)

instance (w : VectorWorld) (op : ObjectOp sz) : Decidable (w.Allowed op ∧ w.Keeps op) :=
  match op with
  | .construct => inferInstanceAs (Decidable (True ∧ True))
  | .move _ => inferInstanceAs (Decidable (_ < _ ∧ _ = _))
  | .insert _ _ _ => inferInstanceAs (Decidable ((_ < _ ∧ _ ≤ _) ∧ (_ → _ ≤ _)))
  | .pushBack _ _ => inferInstanceAs (Decidable (_ < _ ∧ (_ → _ ≤ _)))

/-- Two vectors, one of which is moved from while it is empty; then the other one, the moved one
and the one it was moved to get elements. -/
def sampleOps : List (ObjectOp 1) :=
  [.construct, .construct, .move 0, .pushBack 1 fun _ => 7#8, .pushBack 0 fun _ => 8#8,
    .pushBack 2 fun _ => 9#8, .insert 1 0 fun _ => 10#8]

theorem owned_iff_sampleOps :
    ∃ w, Reach step (fun w (op : ObjectOp 1) => w.Allowed op ∧ w.Keeps op) boot w ∧
      w.objects.map (·.len) = [1, 2, 1] ∧
      Owned (MemPages.line 4) ⟨fun x => x, fun x => x⟩ (fun _ => {}) 1 w := by
  obtain ⟨tr, w, hrun, hlast⟩ := exists_of_runAnd step
    (fun w (op : ObjectOp 1) => w.Allowed op ∧ w.Keeps op) sampleOps boot
    (fun _ w => w.objects.map (·.len) == [1, 2, 1]) (by decide +kernel)
  have hreach : Reachable (MemPages.line 4) ⟨fun x => x, fun x => x⟩ (fun _ => {})
      (HeapWorld.machine 4) := .start
  exact ⟨w, hrun.reach, beq_iff_eq.mp hlast, (owned_iff
    (MemPages.line_freeList (n := 4) (by decide)) Nat.one_pos hreach _ w hrun.reach).1⟩

/-- The vector is moved from, and then gets another element. -/
def pushAfterMove : Except Fault VectorWorld := do
  let w ← firstPush
  let w ← w.step (.move 0 : ObjectOp 1)
  w.step (.pushBack 0 fun _ : Fin 1 => 9#8)

/-- The element goes through the null pointer. -/
theorem push_through_null :
    ∃ w, Reach step (fun w (op : ObjectOp 1) => w.Allowed op) boot w ∧
      w.object 0 = ⟨16, 1, none⟩ ∧ .write 0 ∈ w.store.bus.log := by
  obtain ⟨w, hw, hfacts⟩ := exists_of_okAnd (x := pushAfterMove)
    (p := fun w => decide (w.object 0 = ⟨16, 1, none⟩) && decide (.write 0 ∈ w.store.bus.log))
    (by decide +kernel)
  rw [Bool.and_eq_true, decide_eq_true_eq, decide_eq_true_eq] at hfacts
  refine ⟨w, ?_, hfacts⟩
  obtain ⟨w₂, hw₂, hw⟩ := bind_ok hw
  obtain ⟨w₃, hs₃, hs₄⟩ := bind_ok hw
  obtain ⟨w₁, hs₁, hs₂⟩ := bind_ok hw₂
  have hlen₂ : 0 < w₂.objects.length := by
    cases hs₁
    obtain ⟨r, -, hs₂⟩ := bind_ok hs₂
    cases hs₂
    exact Nat.one_pos
  have hlen₃ : 0 < w₃.objects.length := by
    cases hs₃
    rw [List.length_append]
    exact Nat.succ_pos _
  have hlen₁ : 0 < w₁.objects.length := by
    cases hs₁
    exact Nat.one_pos
  have hrun₂ : Reach step (fun w (op : ObjectOp 1) => w.Allowed op) boot w₂ :=
    .next (.next .start (o := .construct) trivial hs₁) (o := .pushBack 0 _) hlen₁ hs₂
  exact .next (.next hrun₂ (o := .move 0) hlen₂ hs₃) (o := .pushBack 0 _) hlen₃ hs₄

end VectorWorld

end

end Chestnut
