import Chestnut.Vector.Growth

/-!
# Removal

`Remove` moves the elements behind the position one slot down, but `memmove`
copies from the top: every slot is filled from the one above it after that one
has been overwritten, and all of them end as copies of the last element.
`PopBack` calls `Remove(len)`, whose length is `-sizeof(T)`: the loop runs
through almost 4 GiB below the vector.
-/

namespace Chestnut

open Lib Bus

namespace BaseVector

variable {sz pos : Nat} {v : BaseVector} {b : Bus}

theorem remove_len (hpos : pos < v.len) (hlt : v.len * sz < 2 ^ 31) :
    Kernel.int32 (sizeT (((v.len : Int) - pos - 1) * sz)) = ((v.len - pos - 1) * sz : Nat) := by
  have hle : (v.len - pos - 1) * sz ≤ v.len * sz := Nat.mul_le_mul_right sz (by omega)
  have hcast : ((v.len : Int) - pos - 1) * sz = ((v.len - pos - 1) * sz : Nat) := by
    rw [Int.natCast_mul]
    congr 1
    omega
  rw [hcast, int32_sizeT (by omega)]

/-- The memory behind `Remove`. -/
theorem remove_eq (hpos : pos < v.len) (hlt : v.len * sz < 2 ^ 31) :
    v.remove sz pos b =
      ({ v with len := (sizeT (v.len - 1)).toNat },
        memmove (slotPtr (kptr v.ptr) sz pos) (slotPtr (kptr v.ptr) sz (pos + 1))
          ((v.len - pos - 1) * sz : Nat) b) := by
  rw [remove, remove_len hpos hlt]

/-- Where the destination of the move ends. -/
theorem slotPtr_remove (arr : Int) (sz : Nat) (hpos : pos < v.len) :
    slotPtr arr sz pos + ((v.len - pos - 1) * sz : Nat) = slotPtr arr sz (v.len - 1) := by
  have hmul : pos * sz + (v.len - pos - 1) * sz = (v.len - 1) * sz := by
    rw [← Nat.add_mul]
    congr 1
    omega
  rw [slotPtr, slotPtr, ← hmul]
  omega

theorem elemAt_remove_lt (hpos : pos < v.len) (hlt : v.len * sz < 2 ^ 31) {i : Nat}
    (hi : i < pos) :
    elemAt (v.remove sz pos b).2.mem (kptr v.ptr) sz i = elemAt b.mem (kptr v.ptr) sz i := by
  have hn : (v.len - pos - 1) * sz ≤ v.len * sz := Nat.mul_le_mul_right sz (by omega)
  rw [remove_eq hpos hlt, memmove_eq (by omega)]
  ext1 c
  have hc := c.isLt
  have hsucc := slotPtr_succ (kptr v.ptr) sz i
  have hbelow := slotPtr_le (kptr v.ptr) sz (show i + 1 ≤ pos by omega)
  rw [elemAt, copyDown_mem_outside (by omega), elemAt]

/-- Every slot from the position on ends with the last element. -/
theorem elemAt_remove_ge (hpos : pos < v.len) (hlt : v.len * sz < 2 ^ 31) {i : Nat}
    (hi : pos ≤ i) (hi' : i < v.len - 1) :
    elemAt (v.remove sz pos b).2.mem (kptr v.ptr) sz i =
      elemAt b.mem (kptr v.ptr) sz (v.len - 1) := by
  have hn : (v.len - pos - 1) * sz ≤ v.len * sz := Nat.mul_le_mul_right sz (by omega)
  rw [remove_eq hpos hlt, memmove_eq (by omega)]
  ext1 c
  have hc := c.isLt
  have hend := slotPtr_remove (kptr v.ptr) sz hpos
  have hsucc := slotPtr_succ (kptr v.ptr) sz pos
  -- the byte lies `(len - 2 - i) * sz + (sz - 1 - c)` below the last one written
  have hmul : i * sz + (v.len - 2 - i) * sz + sz = (v.len - 1) * sz := by
    rw [← Nat.add_mul, ← Nat.succ_mul]
    congr 1
    omega
  have hlast : slotPtr (kptr v.ptr) sz (v.len - 1) =
      slotPtr (kptr v.ptr) sz i + ((v.len - 2 - i) * sz : Nat) + sz := by
    rw [slotPtr, slotPtr, ← hmul]
    omega
  have hmod : ((v.len - 2 - i) * sz + (sz - 1 - c)) % sz = sz - 1 - c := by
    rw [Nat.add_comm, Nat.add_mul_mod_self_right, Nat.mod_eq_of_lt (by omega)]
  have hsrc : slotPtr (kptr v.ptr) sz (pos + 1) + (((v.len - pos - 1) * sz : Nat) - 1) =
      slotPtr (kptr v.ptr) sz pos + (((v.len - pos - 1) * sz : Nat) - 1) + sz := by omega
  have haddr : slotPtr (kptr v.ptr) sz i + (c : Nat) =
      slotPtr (kptr v.ptr) sz pos + (((v.len - pos - 1) * sz : Nat) - 1) -
        ((v.len - 2 - i) * sz + (sz - 1 - c) : Nat) := by omega
  have hlow := slotPtr_le (kptr v.ptr) sz hi
  rw [elemAt, hsrc, haddr, copyDown_mem_below (by omega) (by omega), hmod, elemAt]
  congr 1
  omega

/-- The elements behind `Remove`. -/
theorem elements_remove (hsz : 0 < sz) (hpos : pos < v.len) (hlt : v.len * sz < 2 ^ 31) :
    elements sz (v.remove sz pos b).1 (v.remove sz pos b).2.mem =
      (elements sz v b.mem).take pos ++
        List.replicate (v.len - pos - 1) (elemAt b.mem (kptr v.ptr) sz (v.len - 1)) := by
  have hle : v.len ≤ v.len * sz := Nat.le_mul_of_pos_right _ hsz
  have hptr : (v.remove sz pos b).1.ptr = v.ptr := rfl
  have hlen : (v.remove sz pos b).1.len = v.len - 1 := by
    have hsize : sizeT ((v.len : Int) - 1) = (v.len - 1 : Nat) := by
      rw [sizeT, Int.emod_eq_of_lt (by omega) (by omega)]
      omega
    rw [remove]
    simp only [hsize, Int.toNat_natCast]
  rw [elements, hptr, hlen]
  apply List.ext_getElem
  · rw [List.length_map, List.length_range, List.length_append, List.length_take,
      elements_length, List.length_replicate]
    omega
  · intro i hi hi'
    rw [List.length_map, List.length_range] at hi
    rw [List.getElem_map, List.getElem_range, List.getElem_append]
    split
    next h =>
      rw [List.length_take, elements_length] at h
      simp only [List.getElem_take, elements, List.getElem_map, List.getElem_range]
      exact elemAt_remove_lt hpos hlt (by omega)
    next h =>
      rw [List.length_take, elements_length] at h
      rw [List.getElem_replicate]
      exact elemAt_remove_ge hpos hlt (by omega) hi

/-- `Remove` erases an element exactly if the elements behind it are all equal. -/
theorem elements_remove_iff (hsz : 0 < sz) (hpos : pos < v.len) (hlt : v.len * sz < 2 ^ 31) :
    elements sz (v.remove sz pos b).1 (v.remove sz pos b).2.mem =
        (elements sz v b.mem).eraseIdx pos ↔
      ∀ x ∈ (elements sz v b.mem).drop (pos + 1), ∀ y ∈ (elements sz v b.mem).drop (pos + 1),
        x = y := by
  rw [elements_remove hsz hpos hlt, List.eraseIdx_eq_take_drop_succ, List.append_right_inj,
    eq_comm, List.eq_replicate_iff]
  have hlast : ∀ x ∈ (elements sz v b.mem).drop (pos + 1),
      elemAt b.mem (kptr v.ptr) sz (v.len - 1) ∈ (elements sz v b.mem).drop (pos + 1) := by
    intro x hx
    have hne := List.length_pos_of_mem hx
    rw [List.length_drop, elements_length] at hne
    apply List.mem_of_getElem (i := v.len - pos - 2)
      (h := by rw [List.length_drop, elements_length]; omega)
    simp only [List.getElem_drop, elements, List.getElem_map, List.getElem_range]
    congr 1
    omega
  constructor
  · rintro ⟨-, hall⟩ x hx y hy
    rw [hall x hx, hall y hy]
  · intro hall
    refine ⟨?_, fun x hx => hall x hx _ (hlast x hx)⟩
    rw [List.length_drop, elements_length]
    omega

/-- `Remove` stays inside the block. -/
theorem remove_log (hpos : pos < v.len) (hlen : v.len ≤ v.capacity)
    (hmax : v.capacity * sz < 2 ^ 31) {y : ByteAccess}
    (hy : y ∈ (v.remove sz pos b).2.log) : y ∈ b.log ∨ InBlock sz v y.addr := by
  have hcap : v.len * sz ≤ v.capacity * sz := Nat.mul_le_mul_right sz hlen
  have hn : (v.len - pos - 1) * sz ≤ v.len * sz := Nat.mul_le_mul_right sz (by omega)
  have hlow := slotPtr_le (kptr v.ptr) sz (Nat.zero_le pos)
  have hzero : slotPtr (kptr v.ptr) sz 0 = kptr v.ptr := by
    rw [slotPtr, Nat.zero_mul]
    exact Int.add_zero _
  have hend := slotPtr_remove (kptr v.ptr) sz hpos
  have htop : slotPtr (kptr v.ptr) sz (v.len - 1) + sz = kptr v.ptr + (v.len * sz : Nat) := by
    rw [← slotPtr_succ, slotPtr, Nat.sub_add_cancel (by omega)]
  have hsucc := slotPtr_succ (kptr v.ptr) sz pos
  rw [remove_eq hpos (by omega)] at hy
  cases y with
  | write a =>
      rw [write_mem_memmove (by omega)] at hy
      apply hy.imp_right
      intro ha
      simp only [InBlock, ByteAccess.addr]
      omega
  | read a =>
      rw [read_mem_memmove (by omega)] at hy
      apply hy.imp_right
      intro ha
      simp only [InBlock, ByteAccess.addr]
      omega

/-- `PopBack` writes to the byte below the block. -/
theorem write_mem_popBack (hsz : 0 < sz) (hpos : 0 < v.len) (hmax : v.len * sz < 2 ^ 31) :
    .write (kptr v.ptr - 1) ∈ (v.popBack sz b).2.log := by
  have hone : 1 * sz ≤ v.len * sz := Nat.mul_le_mul_right sz hpos
  have hneg : ((v.len : Int) - v.len - 1) * sz = -sz := by
    rw [Int.sub_self, Int.zero_sub, Int.neg_mul, Int.one_mul]
  have hint : Kernel.int32 (sizeT (-(sz : Int))) = -sz := by
    rw [Kernel.int32, sizeT, Int.bmod_def]
    omega
  have hturns : (lenTurns (-(sz : Int)) : Int) = 2 ^ 32 - sz := by
    rw [lenTurns]
    omega
  rw [popBack, remove, hneg, hint]
  simp only [memmove, write_mem_copyDown, hturns, slotPtr]
  right
  omega

/-- A vector within its capacity, of less than 2 GiB. `Remove` erases the element and stays
inside the block exactly if all elements behind it are equal; `PopBack` on a vector that is
not empty never stays inside. -/
theorem remove_iff (hsz : 0 < sz) (v : BaseVector) (m : Bytes) (hlen : v.len ≤ v.capacity)
    (hmax : v.capacity * sz < 2 ^ 31) :
    (∀ pos, pos < v.len →
      ((elements sz (v.remove sz pos { mem := m }).1 (v.remove sz pos { mem := m }).2.mem =
          (elements sz v m).eraseIdx pos ∧
        ∀ y ∈ (v.remove sz pos { mem := m }).2.log, InBlock sz v y.addr) ↔
      ∀ x ∈ (elements sz v m).drop (pos + 1), ∀ y ∈ (elements sz v m).drop (pos + 1), x = y)) ∧
    (0 < v.len → ¬ ∀ y ∈ (v.popBack sz { mem := m }).2.log, InBlock sz v y.addr) := by
  have hlt : v.len * sz < 2 ^ 31 := lt_of_le_of_lt (Nat.mul_le_mul_right sz hlen) hmax
  constructor
  · intro pos hpos
    rw [elements_remove_iff (b := { mem := m }) hsz hpos hlt]
    apply and_iff_left
    intro y hy
    exact (remove_log hpos hlen hmax hy).resolve_left List.not_mem_nil
  · intro hpos hin
    have hbelow := hin _ (write_mem_popBack hsz hpos hlt)
    simp only [InBlock, ByteAccess.addr] at hbelow
    omega

theorem remove_iff_zeros :
    elements 1 ((⟨16, 2, some 0x1000⟩ : BaseVector).remove 1 0 { mem := fun _ => 0#8 }).1
        ((⟨16, 2, some 0x1000⟩ : BaseVector).remove 1 0 { mem := fun _ => 0#8 }).2.mem =
        (elements 1 ⟨16, 2, some 0x1000⟩ fun _ => 0#8).eraseIdx 0 ∧
      ∀ y ∈ ((⟨16, 2, some 0x1000⟩ : BaseVector).remove 1 0 { mem := fun _ => 0#8 }).2.log,
        InBlock 1 ⟨16, 2, some 0x1000⟩ y.addr := by
  have h := (remove_iff Nat.one_pos ⟨16, 2, some 0x1000⟩ (fun _ => 0#8) (by decide)
    (by decide)).1 0 (by decide)
  apply h.mpr
  intro x hx y hy
  obtain ⟨i, -, rfl⟩ := List.mem_map.mp (List.mem_of_mem_drop hx)
  obtain ⟨j, -, rfl⟩ := List.mem_map.mp (List.mem_of_mem_drop hy)
  rfl

end BaseVector

namespace VectorState

/-- One pushed byte, on the kernel's heap. -/
def pushByte (st : VectorState Heap) (x : BitVec 8) : Except Fault (VectorState Heap) :=
  step Kernel.allocator st (.pushBack fun _ : Fin 1 => x)

/-- The bytes of a vector of bytes. -/
def byteList (v : BaseVector) (m : Bytes) : List (BitVec 8) := (v.elements 1 m).map (· 0)

/-- A vector with the elements 1, 2, 3 without its first one has the elements 3, 3, and
without its last one has overwritten memory below its block. -/
theorem remove_repeats_last :
    ∃ tr st, Steps (step Kernel.allocator)
        (fun st (op : VectorOp 1) => Allowed Kernel.allocator st op)
        (initial (HeapWorld.machine 4).heap fun _ => 0#8) tr st ∧
      byteList st.vec st.store.bus.mem = [1#8, 2#8, 3#8] ∧
      byteList (st.vec.remove 1 0 st.store.bus).1 (st.vec.remove 1 0 st.store.bus).2.mem =
        [3#8, 3#8] ∧
      .write (kptr st.vec.ptr - 1) ∈ (st.vec.popBack 1 st.store.bus).2.log := by
  obtain ⟨⟨p, h₁⟩, halloc, -⟩ := exists_of_okAnd (x := Kernel.alloc 16 (HeapWorld.machine 4).heap)
    (p := fun _ => true) (by decide +kernel)
  -- each state on the way has room for one more element
  obtain ⟨st₁, hs₁, hst₁⟩ := exists_of_okAnd
    (x := pushByte (initial (HeapWorld.machine 4).heap fun _ => 0#8) 1#8)
    (p := fun st₁ => decide (st₁.vec.len < st₁.vec.capacity) && okAnd (pushByte st₁ 2#8) fun st₂ =>
      decide (st₂.vec.len < st₂.vec.capacity) && okAnd (pushByte st₂ 3#8) fun st₃ =>
        decide (st₃.vec.len = 3) && decide (byteList st₃.vec st₃.store.bus.mem = [1#8, 2#8, 3#8]) &&
        decide (byteList (st₃.vec.remove 1 0 st₃.store.bus).1
          (st₃.vec.remove 1 0 st₃.store.bus).2.mem = [3#8, 3#8])) (by decide +kernel)
  rw [Bool.and_eq_true, decide_eq_true_eq] at hst₁
  obtain ⟨st₂, hs₂, hst₂⟩ := exists_of_okAnd hst₁.2
  rw [Bool.and_eq_true, decide_eq_true_eq] at hst₂
  obtain ⟨st₃, hs₃, hst₃⟩ := exists_of_okAnd hst₂.2
  simp only [Bool.and_eq_true, decide_eq_true_eq] at hst₃
  have ha₁ : Allowed Kernel.allocator (initial (HeapWorld.machine 4).heap fun _ => 0#8)
      (.pushBack fun _ : Fin 1 => 1#8) := by
    refine ⟨(fun _ _ h => by cases h), fun _ => ⟨by decide, p, h₁, h₁, halloc, rfl, ?_⟩⟩
    exact fun _ h => by cases h
  have hroom : ∀ (st : VectorState Heap) (x : BitVec 8), st.vec.len < st.vec.capacity →
      Allowed Kernel.allocator st (.pushBack fun _ : Fin 1 => x) := by
    intro st x hlt
    exact ⟨(fun _ _ h => by cases h), fun h => absurd h (by omega)⟩
  refine ⟨_, st₃, .next (.next (.next .start ha₁ hs₁) (hroom st₁ 2#8 hst₁.1) hs₂)
    (hroom st₂ 3#8 hst₂.1) hs₃, hst₃.1.2, hst₃.2, ?_⟩
  exact BaseVector.write_mem_popBack (by decide) (by omega) (by omega)

end VectorState

end Chestnut
