import Chestnut.Lib.Reach
import Chestnut.Vector.Model

/-!
# Insertion

`Insert` implements list insertion. The shift is an upward move done from the
top down, so no byte is lost; a reallocation copies the elements into a block
apart from the old one. Every write goes into the block that the vector has
afterwards.
-/

namespace Chestnut

open Lib Bus

/-! ### The copy loops -/

section copies

variable {d s x : Int} {n : Nat} {b : Bus}

theorem int32_sizeT {n : Nat} (hn : n < 2 ^ 31) : Kernel.int32 (sizeT n) = n := by
  have hsize : sizeT n = n := Int.emod_eq_of_lt (by omega) (by omega)
  rw [hsize]
  exact Int.bmod_eq_of_le (by omega) (by omega)

theorem lenTurns_of_lt (hn : n < 2 ^ 31) : lenTurns n = n := by
  rw [lenTurns, Int.emod_eq_of_lt (by omega) (by omega), Int.toNat_natCast]

theorem memmove_eq (hn : n < 2 ^ 31) :
    memmove d s n b = b.copyDown n (d + (n - 1)) (s + (n - 1)) := by
  rw [memmove, lenTurns_of_lt hn]

theorem memcpy_mem (hn : n < 2 ^ 31) (h : d + n ≤ s ∨ s + n ≤ d) (x : Int) :
    (memcpy d s n b).mem x = if d ≤ x ∧ x < d + n then b.mem (x - d + s) else b.mem x := by
  rw [memcpy, lenTurns_of_lt hn, copyUp_mem (by omega)]

theorem write_mem_memcpy (hn : n < 2 ^ 31) :
    .write x ∈ (memcpy d s n b).log ↔ .write x ∈ b.log ∨ (d ≤ x ∧ x < d + n) := by
  rw [memcpy, lenTurns_of_lt hn, write_mem_copyUp]

/-- Towards higher addresses `memmove` is right. -/
theorem memmove_mem_up (hn : n < 2 ^ 31) (h : s ≤ d) (x : Int) :
    (memmove d s n b).mem x = if d ≤ x ∧ x < d + n then b.mem (x - d + s) else b.mem x := by
  rw [memmove_eq hn, copyDown_mem (by omega)]
  by_cases hx : d ≤ x ∧ x < d + n
  · rw [if_pos hx, if_pos (by omega)]
    congr 1
    omega
  · rw [if_neg hx, if_neg (by omega)]

theorem write_mem_memmove (hn : n < 2 ^ 31) :
    .write x ∈ (memmove d s n b).log ↔ .write x ∈ b.log ∨ (d ≤ x ∧ x < d + n) := by
  rw [memmove_eq hn, write_mem_copyDown]
  apply or_congr_right
  omega

theorem read_mem_memmove (hn : n < 2 ^ 31) :
    .read x ∈ (memmove d s n b).log ↔ .read x ∈ b.log ∨ (s ≤ x ∧ x < s + n) := by
  rw [memmove_eq hn, read_mem_copyDown]
  apply or_congr_right
  omega

end copies

namespace BaseVector

/-! ### Elements in memory -/

section elements

variable {sz i pos : Nat} {arr : Int} {m m' : Bytes} {v : BaseVector}

theorem slotPtr_succ (arr : Int) (sz i : Nat) :
    slotPtr arr sz (i + 1) = slotPtr arr sz i + sz := by
  rw [slotPtr, slotPtr, Nat.add_mul, Nat.one_mul]
  omega

/-- Slots of smaller indices lie below. -/
theorem slotPtr_le (arr : Int) (sz : Nat) {i j : Nat} (h : i ≤ j) :
    slotPtr arr sz i ≤ slotPtr arr sz j := by
  have hmul : i * sz ≤ j * sz := Nat.mul_le_mul_right sz h
  rw [slotPtr, slotPtr]
  omega

theorem elements_length : (elements sz v m).length = v.len := by simp [elements]

/-- Equal bytes below the end are equal elements. -/
theorem elements_congr {v' : BaseVector} (hlen : v'.len = v.len)
    (h : ∀ o : Nat, o < v.len * sz → m' (kptr v'.ptr + o) = m (kptr v.ptr + o)) :
    elements sz v' m' = elements sz v m := by
  rw [elements, elements, hlen]
  apply List.map_congr_left
  intro i hi
  ext1 c
  have hle : (i + 1) * sz ≤ v.len * sz := Nat.mul_le_mul_right sz (List.mem_range.mp hi)
  rw [Nat.add_mul, Nat.one_mul] at hle
  have hc := c.isLt
  have hbyte := h (i * sz + c) (by omega)
  simp only [elemAt, slotPtr, Int.add_assoc]
  exact_mod_cast hbyte

end elements

/-! ### Shift and construct -/

section place

variable {sz pos len : Nat} {arr : Int} {x : Elem sz} {b : Bus}

/-- The bytes behind the `memmove` and the placement `new` of `Insert`. -/
def place (arr : Int) (pos len : Nat) (x : Elem sz) (b : Bus) : Bus :=
  (memmove (slotPtr arr sz (pos + 1)) (slotPtr arr sz pos)
    (Kernel.int32 (sizeT ((len - pos) * sz))) b).storeAll (slotPtr arr sz pos) (List.ofFn x)

theorem shift_len (hpos : pos ≤ len) (hlt : len * sz < 2 ^ 31) :
    Kernel.int32 (sizeT (((len : Int) - pos) * sz)) = ((len - pos) * sz : Nat) := by
  have hle : (len - pos) * sz ≤ len * sz := Nat.mul_le_mul_right sz (Nat.sub_le len pos)
  have hcast : ((len : Int) - pos) * sz = ((len - pos) * sz : Nat) := by
    rw [Int.natCast_mul, Int.ofNat_sub hpos]
  rw [hcast, int32_sizeT (by omega)]

/-- Where the shift ends. -/
theorem slotPtr_shift (hpos : pos ≤ len) :
    slotPtr arr sz (pos + 1) + ((len - pos) * sz : Nat) = slotPtr arr sz (len + 1) := by
  have hmul : (pos + 1) * sz + (len - pos) * sz = (len + 1) * sz := by
    rw [← Nat.add_mul]
    congr 1
    omega
  rw [slotPtr, slotPtr, ← hmul]
  omega

/-- Memory behind `place`: below the position as before, then the new element, then the
old elements one slot further up. -/
theorem place_mem (hpos : pos ≤ len) (hlt : len * sz < 2 ^ 31) (a : Int) :
    (place arr pos len x b).mem a =
      if slotPtr arr sz pos ≤ a ∧ a < slotPtr arr sz (pos + 1) then
        (List.ofFn x).getD (a - slotPtr arr sz pos).toNat 0#8
      else if slotPtr arr sz (pos + 1) ≤ a ∧ a < slotPtr arr sz (len + 1) then b.mem (a - sz)
      else b.mem a := by
  have hsucc := slotPtr_succ arr sz pos
  have hle : (len - pos) * sz ≤ len * sz := Nat.mul_le_mul_right sz (Nat.sub_le len pos)
  rw [place, storeAll_mem, List.length_ofFn, ← hsucc, shift_len hpos hlt,
    memmove_mem_up (by omega) (by omega), slotPtr_shift hpos]
  congr 2
  congr 1
  omega

theorem elemAt_place_lt (hpos : pos ≤ len) (hlt : len * sz < 2 ^ 31) {i : Nat} (hi : i < pos) :
    elemAt (place arr pos len x b).mem arr sz i = elemAt b.mem arr sz i := by
  ext1 c
  have hc := c.isLt
  have hsucc := slotPtr_succ arr sz i
  have hbelow := slotPtr_le arr sz (show i + 1 ≤ pos by omega)
  have hnext := slotPtr_succ arr sz pos
  rw [elemAt, place_mem hpos hlt, if_neg (by omega), if_neg (by omega), elemAt]

theorem elemAt_place_eq (hpos : pos ≤ len) (hlt : len * sz < 2 ^ 31) :
    elemAt (place arr pos len x b).mem arr sz pos = x := by
  ext1 c
  have hc := c.isLt
  have hsucc := slotPtr_succ arr sz pos
  have hidx : (slotPtr arr sz pos + (c : Nat) - slotPtr arr sz pos).toNat = c := by omega
  rw [elemAt, place_mem hpos hlt, if_pos (by omega), hidx]
  simp

theorem elemAt_place_gt (hpos : pos ≤ len) (hlt : len * sz < 2 ^ 31) {i : Nat} (hi : pos ≤ i)
    (hi' : i < len) :
    elemAt (place arr pos len x b).mem arr sz (i + 1) = elemAt b.mem arr sz i := by
  ext1 c
  have hc := c.isLt
  have hsucc := slotPtr_succ arr sz i
  have habove := slotPtr_le arr sz (show pos + 1 ≤ i + 1 by omega)
  have hend := slotPtr_le arr sz (show i + 1 + 1 ≤ len + 1 by omega)
  have hnext := slotPtr_succ arr sz (i + 1)
  have hbelow := slotPtr_succ arr sz pos
  rw [elemAt, place_mem hpos hlt, if_neg (by omega), if_pos (by omega), elemAt]
  congr 1
  omega

/-- `place` inserts into the list of elements. -/
theorem map_elemAt_place (hpos : pos ≤ len) (hlt : len * sz < 2 ^ 31) :
    (List.range (len + 1)).map (elemAt (place arr pos len x b).mem arr sz) =
      ((List.range len).map (elemAt b.mem arr sz)).insertIdx pos x := by
  apply List.ext_getElem
  · simp [List.length_insertIdx, hpos]
  · intro i hi hi'
    rw [List.length_map, List.length_range] at hi
    rw [List.getElem_insertIdx]
    simp only [List.getElem_map, List.getElem_range]
    split
    next h => exact elemAt_place_lt hpos hlt h
    next h =>
      split
      next heq =>
        subst heq
        exact elemAt_place_eq hpos hlt
      next hne =>
        obtain ⟨j, rfl⟩ : ∃ j, i = j + 1 := ⟨i - 1, by omega⟩
        exact elemAt_place_gt hpos hlt (by omega) (by omega)

theorem write_mem_place (hpos : pos ≤ len) (hlt : len * sz < 2 ^ 31) {a : Int} :
    .write a ∈ (place arr pos len x b).log ↔
      .write a ∈ b.log ∨ (slotPtr arr sz pos ≤ a ∧ a < slotPtr arr sz (len + 1)) := by
  have hle : (len - pos) * sz ≤ len * sz := Nat.mul_le_mul_right sz (Nat.sub_le len pos)
  have hsucc := slotPtr_succ arr sz pos
  have hend := slotPtr_le arr sz (show pos + 1 ≤ len + 1 by omega)
  rw [place, write_mem_storeAll, shift_len hpos hlt, write_mem_memmove (by omega),
    slotPtr_shift hpos, List.length_ofFn, or_assoc]
  apply or_congr_right
  omega

end place

end BaseVector

end Chestnut
