import Mathlib.Algebra.Group.Int.Defs
import Mathlib.Algebra.Group.Nat.Defs
import Mathlib.Data.List.Basic

/-!
# Flat byte memory

Bytes at integer addresses, little-endian words and byte strings in memory.
Addresses are not cut off at a word size, so a pointer may step out of an
object on either side. `span a n` lists the addresses of an object.
-/

namespace Chestnut.Lib

abbrev Bytes : Type := Int → BitVec 8

/-- The addresses of the `n` bytes from `a` upwards. -/
def span (a : Int) (n : Nat) : List Int := (List.range n).map fun i : Nat => a + (i : Int)

@[simp] theorem mem_span {a x : Int} {n : Nat} : x ∈ span a n ↔ a ≤ x ∧ x < a + n := by
  simp only [span, List.mem_map, List.mem_range]
  constructor
  · rintro ⟨i, hi, rfl⟩
    omega
  · rintro ⟨hle, hlt⟩
    exact ⟨(x - a).toNat, by omega, by omega⟩

namespace Bytes

def u8 (m : Bytes) (a : Int) : Nat := (m a).toNat

def u32 (m : Bytes) (a : Int) : Nat :=
  m.u8 a + 2 ^ 8 * m.u8 (a + 1) + 2 ^ 16 * m.u8 (a + 2) + 2 ^ 24 * m.u8 (a + 3)

def u64 (m : Bytes) (a : Int) : Nat := m.u32 a + 2 ^ 32 * m.u32 (a + 4)

/-- A word of four bytes as a signed number. -/
def i32 (m : Bytes) (a : Int) : Int := Int.bmod (m.u32 a) (2 ^ 32)

theorem u8_lt (m : Bytes) (a : Int) : m.u8 a < 2 ^ 8 := (m a).isLt

theorem u32_lt (m : Bytes) (a : Int) : m.u32 a < 2 ^ 32 := by
  have h0 := m.u8_lt a
  have h1 := m.u8_lt (a + 1)
  have h2 := m.u8_lt (a + 2)
  have h3 := m.u8_lt (a + 3)
  rw [u32]
  omega

theorem u64_lt (m : Bytes) (a : Int) : m.u64 a < 2 ^ 64 := by
  have h0 := m.u32_lt a
  have h1 := m.u32_lt (a + 4)
  rw [u64]
  omega

theorem i32_of_lt {m : Bytes} {a : Int} (h : m.u32 a < 2 ^ 31) : m.i32 a = m.u32 a :=
  Int.bmod_eq_of_le (by omega) (by omega)

/-- The byte string `bs` lies at `a`. -/
def Holds (m : Bytes) : Int → List (BitVec 8) → Prop
  | _, [] => True
  | a, b :: bs => m a = b ∧ Holds m (a + 1) bs

@[simp] theorem holds_nil {m : Bytes} {a : Int} : m.Holds a [] := trivial

@[simp] theorem holds_cons {m : Bytes} {a : Int} {b : BitVec 8} {bs : List (BitVec 8)} :
    m.Holds a (b :: bs) ↔ m a = b ∧ m.Holds (a + 1) bs := Iff.rfl

@[simp] theorem holds_append {m : Bytes} {a : Int} {bs cs : List (BitVec 8)} :
    m.Holds a (bs ++ cs) ↔ m.Holds a bs ∧ m.Holds (a + bs.length) cs := by
  induction bs generalizing a with
  | nil => simp
  | cons b bs ih =>
      have hnext : a + 1 + (bs.length : Int) = a + ((b :: bs).length : Int) := by
        rw [List.length_cons]
        omega
      rw [List.cons_append, holds_cons, ih, holds_cons, hnext, and_assoc]

theorem holds_of_getD {m : Bytes} {a : Int} {bs : List (BitVec 8)}
    (h : ∀ i : Nat, i < bs.length → m (a + i) = bs.getD i 0#8) : m.Holds a bs := by
  induction bs generalizing a with
  | nil => exact holds_nil
  | cons b bs ih =>
      have hfirst := h 0 (Nat.zero_lt_succ _)
      refine ⟨by simpa using hfirst, ih fun i hi => ?_⟩
      have hnext := h (i + 1) (Nat.succ_lt_succ hi)
      rw [List.getD_cons_succ] at hnext
      rw [← hnext]
      congr 1
      omega

/-- The four bytes of a word, lowest first. -/
def le32 (n : Nat) : List (BitVec 8) :=
  [BitVec.ofNat 8 n, BitVec.ofNat 8 (n / 2 ^ 8), BitVec.ofNat 8 (n / 2 ^ 16),
    BitVec.ofNat 8 (n / 2 ^ 24)]

@[simp] theorem length_le32 (n : Nat) : (le32 n).length = 4 := rfl

/-- Read back a word. -/
theorem Holds.u32_eq {m : Bytes} {a : Int} {n : Nat} (h : m.Holds a (le32 n)) (hn : n < 2 ^ 32) :
    m.u32 a = n := by
  obtain ⟨h0, h1, h2, h3, -⟩ := h
  have e2 : a + 1 + 1 = a + 2 := by omega
  have e3 : a + 2 + 1 = a + 3 := by omega
  rw [e2] at h2
  rw [e2, e3] at h3
  simp only [u32, u8, h0, h1, h2, h3, BitVec.toNat_ofNat]
  omega

/-- Memory that is zero outside a byte string. -/
def ofList (a : Int) (bs : List (BitVec 8)) : Bytes := fun x =>
  if x < a then 0#8 else bs.getD (x - a).toNat 0#8

theorem holds_ofList (a : Int) (bs : List (BitVec 8)) : (ofList a bs).Holds a bs := by
  suffices h : ∀ pre : List (BitVec 8), (ofList a (pre ++ bs)).Holds (a + pre.length) bs by
    simpa using h []
  induction bs with
  | nil => exact fun _ => trivial
  | cons b bs ih =>
      intro pre
      have hrest := ih (pre ++ [b])
      rw [List.append_assoc, List.length_append] at hrest
      refine ⟨?_, ?_⟩
      · rw [ofList, if_neg (by omega)]
        have hidx : (a + (pre.length : Int) - a).toNat = pre.length := by omega
        rw [hidx, List.getD_eq_getElem?_getD, List.getElem?_append_right (Nat.le_refl _),
          Nat.sub_self]
        rfl
      · rw [Int.add_assoc]
        exact hrest

end Bytes

end Chestnut.Lib
