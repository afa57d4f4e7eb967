import Chestnut.Lib.Bytes
import Mathlib.Tactic.Common

/-!
# Copying bytes

Memory with a log of the accesses made to it, and the two copy loops: upwards
from the first byte and downwards from the last. A copy is faithful if no byte
is overwritten before it is read. A downward copy whose destination lies below
an overlapping source repeats the top of the source.
-/

namespace Chestnut.Lib

/-- One access to a byte. -/
inductive ByteAccess
  | read (a : Int)
  | write (a : Int)
  deriving DecidableEq, Repr

def ByteAccess.addr : ByteAccess → Int
  | .read a => a
  | .write a => a

/-- Memory and the accesses made to it, latest first. -/
structure Bus where
  mem : Bytes
  log : List ByteAccess := []

namespace Bus

def store (a : Int) (v : BitVec 8) (b : Bus) : Bus where
  mem x := if x = a then v else b.mem x
  log := .write a :: b.log

/-- `*d = *s`. -/
def copyByte (d s : Int) (b : Bus) : Bus where
  mem x := if x = d then b.mem s else b.mem x
  log := .write d :: .read s :: b.log

/-- `*d++ = *s++`, `n` times. -/
def copyUp : Nat → Int → Int → Bus → Bus
  | 0, _, _, b => b
  | n + 1, d, s, b => copyUp n (d + 1) (s + 1) (b.copyByte d s)

/-- `*d-- = *s--`, `n` times. -/
def copyDown : Nat → Int → Int → Bus → Bus
  | 0, _, _, b => b
  | n + 1, d, s, b => copyDown n (d - 1) (s - 1) (b.copyByte d s)

/-- Store a byte string. -/
def storeAll : Int → List (BitVec 8) → Bus → Bus
  | _, [], b => b
  | a, v :: vs, b => storeAll (a + 1) vs (b.store a v)

variable {n : Nat} {d s x : Int} {b : Bus}

theorem copyByte_mem : (b.copyByte d s).mem x = if x = d then b.mem s else b.mem x := rfl

/-! ### What is accessed -/

variable {a : Int} {vs : List (BitVec 8)}

theorem write_mem_copyUp :
    .write a ∈ (copyUp n d s b).log ↔ .write a ∈ b.log ∨ (d ≤ a ∧ a < d + n) := by
  induction n generalizing d s b with
  | zero => exact (or_iff_left (by omega)).symm
  | succ n ih =>
      have hsplit : (d ≤ a ∧ a < d + (n + 1 : Nat)) ↔ a = d ∨ (d + 1 ≤ a ∧ a < d + 1 + n) := by
        omega
      rw [copyUp, ih, hsplit]
      simp only [copyByte, List.mem_cons, ByteAccess.write.injEq, reduceCtorEq, false_or]
      tauto

theorem write_mem_copyDown :
    .write a ∈ (copyDown n d s b).log ↔ .write a ∈ b.log ∨ (d - n < a ∧ a ≤ d) := by
  induction n generalizing d s b with
  | zero => exact (or_iff_left (by omega)).symm
  | succ n ih =>
      have hsplit : (d - (n + 1 : Nat) < a ∧ a ≤ d) ↔ a = d ∨ (d - 1 - n < a ∧ a ≤ d - 1) := by
        omega
      rw [copyDown, ih, hsplit]
      simp only [copyByte, List.mem_cons, ByteAccess.write.injEq, reduceCtorEq, false_or]
      tauto

theorem read_mem_copyDown :
    .read a ∈ (copyDown n d s b).log ↔ .read a ∈ b.log ∨ (s - n < a ∧ a ≤ s) := by
  induction n generalizing d s b with
  | zero => exact (or_iff_left (by omega)).symm
  | succ n ih =>
      have hsplit : (s - (n + 1 : Nat) < a ∧ a ≤ s) ↔ a = s ∨ (s - 1 - n < a ∧ a ≤ s - 1) := by
        omega
      rw [copyDown, ih, hsplit]
      simp only [copyByte, List.mem_cons, ByteAccess.read.injEq, reduceCtorEq, false_or]
      tauto

theorem write_mem_storeAll :
    .write a ∈ (storeAll d vs b).log ↔ .write a ∈ b.log ∨ (d ≤ a ∧ a < d + vs.length) := by
  induction vs generalizing d b with
  | nil => exact (or_iff_left (by simp only [List.length_nil]; omega)).symm
  | cons v vs ih =>
      have hsplit : (d ≤ a ∧ a < d + ((v :: vs).length : Int)) ↔
          a = d ∨ (d + 1 ≤ a ∧ a < d + 1 + vs.length) := by
        rw [List.length_cons]
        omega
      rw [storeAll, ih, hsplit]
      simp only [store, List.mem_cons, ByteAccess.write.injEq]
      tauto

/-! ### What memory holds behind a copy -/

/-- An upward copy is faithful unless the destination starts inside the source. -/
theorem copyUp_mem (h : d ≤ s ∨ s + n ≤ d) (x : Int) :
    (copyUp n d s b).mem x = if d ≤ x ∧ x < d + n then b.mem (x - d + s) else b.mem x := by
  induction n generalizing d s b with
  | zero =>
      rw [if_neg (by omega)]
      rfl
  | succ n ih =>
      rw [copyUp, ih (by omega), copyByte_mem, copyByte_mem]
      by_cases hx : x = d
      · rw [if_neg (by omega), if_pos hx, if_pos (by omega)]
        congr 1
        omega
      · by_cases hin : d + 1 ≤ x ∧ x < d + 1 + n
        · rw [if_pos hin, if_neg (by omega), if_pos (by omega)]
          congr 1
          omega
        · rw [if_neg hin, if_neg hx, if_neg (by omega)]

/-- A downward copy is faithful unless the destination ends inside the source. The pointers
are those to the last bytes. -/
theorem copyDown_mem (h : s ≤ d ∨ d + n ≤ s) (x : Int) :
    (copyDown n d s b).mem x = if d - n < x ∧ x ≤ d then b.mem (x - d + s) else b.mem x := by
  induction n generalizing d s b with
  | zero =>
      rw [if_neg (by omega)]
      rfl
  | succ n ih =>
      rw [copyDown, ih (by omega), copyByte_mem, copyByte_mem]
      by_cases hx : x = d
      · rw [if_neg (by omega), if_pos hx, if_pos (by omega)]
        congr 1
        omega
      · by_cases hin : d - 1 - n < x ∧ x ≤ d - 1
        · rw [if_pos hin, if_neg (by omega), if_pos (by omega)]
          congr 1
          omega
        · rw [if_neg hin, if_neg hx, if_neg (by omega)]

/-- A downward copy touches nothing outside its destination. -/
theorem copyDown_mem_outside (hx : x ≤ d - n ∨ d < x) : (copyDown n d s b).mem x = b.mem x := by
  induction n generalizing d s b with
  | zero => rfl
  | succ n ih => rw [copyDown, ih (by omega), copyByte_mem, if_neg (by omega)]

theorem succ_mod {i z : Nat} (hz : 0 < z) :
    (i + 1) % z = if i % z + 1 = z then 0 else i % z + 1 := by
  have hlt := Nat.mod_lt i hz
  have hsplit : i + 1 = i % z + 1 + z * (i / z) := by
    have hdiv := Nat.mod_add_div i z
    omega
  rw [hsplit, Nat.add_mul_mod_self_left]
  by_cases h : i % z + 1 = z
  · rw [if_pos h, h, Nat.mod_self]
  · rw [if_neg h, Nat.mod_eq_of_lt (by omega)]

/-- A downward copy by `z` bytes towards lower addresses: every byte it writes comes from
the `z` bytes on top of its destination. -/
theorem copyDown_mem_below {z : Nat} (hz : 0 < z) {j : Nat} (hj : j < n) :
    (copyDown n d (d + z) b).mem (d - j) = b.mem (d + z - (j % z : Nat)) := by
  induction n generalizing d b j with
  | zero => cases hj
  | succ n ih =>
      have hstep : copyDown (n + 1) d (d + z) b =
          copyDown n (d - 1) (d - 1 + z) (b.copyByte d (d + z)) := by
        rw [copyDown]
        congr 1
        omega
      rw [hstep]
      cases j with
      | zero =>
          rw [copyDown_mem_outside (by omega), copyByte_mem, if_pos (by omega), Nat.zero_mod]
          congr 1
          omega
      | succ i =>
          have hlt := Nat.mod_lt i hz
          have hpos : d - ((i + 1 : Nat) : Int) = d - 1 - (i : Int) := by omega
          rw [hpos, ih (by omega), copyByte_mem, succ_mod hz]
          by_cases hwrap : i % z + 1 = z
          · rw [if_pos hwrap, if_pos (by omega)]
            congr 1
            omega
          · rw [if_neg hwrap, if_neg (by omega)]
            congr 1
            omega

theorem storeAll_mem (a : Int) (vs : List (BitVec 8)) (x : Int) :
    (storeAll a vs b).mem x =
      if a ≤ x ∧ x < a + vs.length then vs.getD (x - a).toNat 0#8 else b.mem x := by
  induction vs generalizing a b with
  | nil =>
      rw [if_neg (by simp only [List.length_nil]; omega)]
      rfl
  | cons v vs ih =>
      rw [storeAll, ih]
      simp only [List.length_cons, store]
      by_cases hx : x = a
      · have hidx : (x - a).toNat = 0 := by omega
        rw [if_neg (by omega), if_pos hx, if_pos (by omega), hidx]
        rfl
      · by_cases hin : a + 1 ≤ x ∧ x < a + 1 + vs.length
        · have hidx : (x - a).toNat = (x - (a + 1)).toNat + 1 := by omega
          rw [if_pos hin, if_pos (by omega), hidx]
          rfl
        · rw [if_neg hin, if_neg hx, if_neg (by omega)]

end Bus

end Chestnut.Lib
