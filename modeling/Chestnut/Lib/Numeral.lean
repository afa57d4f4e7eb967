import Mathlib.Algebra.Order.BigOperators.Group.List
import Mathlib.Data.Nat.Digits.Lemmas

/-!
# Positional numerals

The numeral of a number, most significant digit first, with the digits `0` to
`9` and `a` to `z` as bytes. Zero has the numeral `0`; no other numeral begins
with that digit, and reading a numeral back gives the number.
-/

namespace Chestnut.Lib

/-- The digits of a number, least significant first; zero has one digit. -/
def digitList (base n : Nat) : List Nat := if n = 0 then [0] else Nat.digits base n

def digitChar (d : Nat) : BitVec 8 := BitVec.ofNat 8 (if d < 10 then 48 + d else 87 + d)

def charDigit (c : BitVec 8) : Nat := if c.toNat < 87 then c.toNat - 48 else c.toNat - 87

/-- The numeral of a number. -/
def numeral (base n : Nat) : List (BitVec 8) := ((digitList base n).map digitChar).reverse

/-- The number that a numeral stands for. -/
def numeralValue (base : Nat) (cs : List (BitVec 8)) : Nat :=
  Nat.ofDigits base (cs.reverse.map charDigit)

theorem charDigit_digitChar {d : Nat} (hd : d < 36) : charDigit (digitChar d) = d := by
  by_cases h : d < 10
  · have hval : (digitChar d).toNat = 48 + d := by
      rw [digitChar, if_pos h, BitVec.toNat_ofNat, Nat.mod_eq_of_lt (by omega)]
    rw [charDigit, hval, if_pos (by omega), Nat.add_sub_cancel_left]
  · have hval : (digitChar d).toNat = 87 + d := by
      rw [digitChar, if_neg h, BitVec.toNat_ofNat, Nat.mod_eq_of_lt (by omega)]
    rw [charDigit, hval, if_neg (by omega), Nat.add_sub_cancel_left]

variable {base n : Nat}

theorem digitList_cons (hb : 1 < base) (n : Nat) :
    digitList base n =
      n % base :: if n / base = 0 then [] else digitList base (n / base) := by
  by_cases hn : n = 0
  · simp [digitList, hn]
  · rw [digitList, if_neg hn, Nat.digits_def' hb (Nat.pos_of_ne_zero hn)]
    by_cases hq : n / base = 0
    · simp [hq]
    · simp [digitList, hq]

theorem digitList_lt (hb : 1 < base) {d : Nat} (hd : d ∈ digitList base n) : d < base := by
  rw [digitList] at hd
  split at hd
  · rw [List.mem_singleton.mp hd]
    omega
  · exact Nat.digits_lt_base hb hd

theorem digitList_length_le (hb : 1 < base) {k : Nat} (hk : 1 ≤ k) (hn : n < base ^ k) :
    (digitList base n).length ≤ k := by
  rw [digitList]
  split
  · exact hk
  · exact (Nat.digits_length_le_iff hb n).mpr hn

@[simp] theorem length_numeral : (numeral base n).length = (digitList base n).length := by
  simp [numeral]

/-- Reading back. -/
theorem numeralValue_numeral (hb : 1 < base) (hb' : base ≤ 36) (n : Nat) :
    numeralValue base (numeral base n) = n := by
  have hmap : ((digitList base n).map digitChar).map charDigit = digitList base n := by
    rw [List.map_map]
    refine (List.map_congr_left fun d hd => ?_).trans (List.map_id _)
    exact charDigit_digitChar (Nat.lt_of_lt_of_le (digitList_lt hb hd) hb')
  rw [numeralValue, numeral, List.reverse_reverse, hmap, digitList]
  split
  · next hn => rw [hn, Nat.ofDigits_singleton]
  · exact Nat.ofDigits_digits base n

/-- There are no leading zeros. -/
theorem numeral_head (hb : 1 < base) (hb' : base ≤ 36) (hn : n ≠ 0) :
    (numeral base n).head? ≠ some (digitChar 0) := by
  have hne : Nat.digits base n ≠ [] := Nat.digits_ne_nil_iff_ne_zero.mpr hn
  rw [numeral, digitList, if_neg hn, List.head?_reverse, List.getLast?_map,
    List.getLast?_eq_some_getLast hne, Option.map_some, Ne, Option.some.injEq]
  intro heq
  have hlt : (Nat.digits base n).getLast hne < base :=
    Nat.digits_lt_base hb (List.getLast_mem hne)
  have hzero := congrArg charDigit heq
  rw [charDigit_digitChar (by omega), charDigit_digitChar (by omega)] at hzero
  exact Nat.getLast_digit_ne_zero base hn hzero

theorem numeral_inj (hb : 1 < base) (hb' : base ≤ 36) {k : Nat} :
    numeral base n = numeral base k ↔ n = k := by
  refine ⟨fun h => ?_, fun h => by rw [h]⟩
  rw [← numeralValue_numeral hb hb' n, h, numeralValue_numeral hb hb' k]

/-- A smaller number has no longer numeral. -/
theorem length_numeral_mono (hb : 1 < base) {k : Nat} (h : n ≤ k) :
    (numeral base n).length ≤ (numeral base k).length := by
  rw [length_numeral, length_numeral]
  by_cases hk : k = 0
  · have hn : n = 0 := by omega
    rw [hk, hn]
  · have hlt : n < base ^ (Nat.digits base k).length :=
      Nat.lt_of_le_of_lt h (Nat.lt_base_pow_length_digits hb)
    have hpos : 1 ≤ (Nat.digits base k).length := by
      rw [Nat.one_le_iff_ne_zero, Ne, List.length_eq_zero_iff]
      exact Nat.digits_ne_nil_iff_ne_zero.mpr hk
    have hlist : digitList base k = Nat.digits base k := if_neg hk
    rw [hlist]
    exact digitList_length_le hb hpos hlt

/-- Texts that are piecewise no shorter agree as a whole only if they agree
piece by piece. -/
theorem flatMap_eq_iff {α β : Type*} {f g : α → List β} {l : List α}
    (hlen : ∀ x ∈ l, (g x).length ≤ (f x).length) :
    l.flatMap f = l.flatMap g ↔ ∀ x ∈ l, f x = g x := by
  refine ⟨fun h => ?_, fun h => by rw [List.flatMap_congr h]⟩
  induction l with
  | nil => exact fun x hx => absurd hx List.not_mem_nil
  | cons a l ih =>
      have hrest : ∀ x ∈ l, (g x).length ≤ (f x).length :=
        fun x hx => hlen x (List.mem_cons_of_mem a hx)
      have hsum : (l.flatMap g).length ≤ (l.flatMap f).length := by
        rw [List.length_flatMap, List.length_flatMap]
        exact List.sum_le_sum hrest
      rw [List.flatMap_cons, List.flatMap_cons] at h
      have htotal := congrArg List.length h
      rw [List.length_append, List.length_append] at htotal
      have hhead := hlen a List.mem_cons_self
      obtain ⟨ha, hl⟩ := List.append_inj h (by omega)
      intro x hx
      rcases List.mem_cons.mp hx with rfl | hx
      · exact ha
      · exact ih hrest hl x hx

end Chestnut.Lib
