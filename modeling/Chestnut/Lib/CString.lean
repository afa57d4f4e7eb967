import Chestnut.Lib.Bytes
import Mathlib.Data.BitVec
import Mathlib.Tactic.Common

/-!
# Strings that end with a zero byte

A text in flat memory, without zero bytes and with one behind it, and the
difference of two texts at the first place where they differ, a text that has
ended counting as zero there. The sign of the difference is the lexicographic
order of the unsigned bytes.
-/

namespace Chestnut.Lib

/-- The text `bs` lies at `a`. -/
structure CString (m : Bytes) (a : Int) (bs : List (BitVec 8)) : Prop where
  held : m.Holds a (bs ++ [0#8])
  text : 0#8 ∉ bs

namespace CString

variable {m m' : Bytes} {a a' : Int} {b : BitVec 8} {bs cs : List (BitVec 8)}

theorem nil_iff : CString m a [] ↔ m a = 0#8 := by
  constructor
  · exact fun h => h.held.1
  · exact fun h => ⟨⟨h, trivial⟩, List.not_mem_nil⟩

theorem cons_iff : CString m a (b :: bs) ↔ m a = b ∧ b ≠ 0#8 ∧ CString m (a + 1) bs := by
  constructor
  · rintro ⟨⟨hb, hbs⟩, htext⟩
    obtain ⟨hne, hrest⟩ := not_or.mp fun h => htext (List.mem_cons.mpr h)
    exact ⟨hb, Ne.symm hne, hbs, hrest⟩
  · rintro ⟨hb, hne, hbs, htext⟩
    refine ⟨⟨hb, hbs⟩, fun h => ?_⟩
    rcases List.mem_cons.mp h with h | h
    · exact hne h.symm
    · exact htext h

/-- The byte behind the text. -/
theorem end_eq (h : CString m a bs) : m (a + bs.length) = 0#8 := by
  induction bs generalizing a with
  | nil => simpa using nil_iff.mp h
  | cons b bs ih =>
      obtain ⟨-, -, hrest⟩ := cons_iff.mp h
      rw [← ih hrest, List.length_cons]
      congr 1
      omega

theorem ne_zero (h : CString m a bs) {i : Nat} (hi : i < bs.length) : m (a + i) ≠ 0#8 := by
  induction bs generalizing a i with
  | nil => cases hi
  | cons b bs ih =>
      obtain ⟨hb, hne, hrest⟩ := cons_iff.mp h
      cases i with
      | zero => simpa [hb] using hne
      | succ i =>
          have hpos : a + ((i + 1 : Nat) : Int) = a + 1 + i := by omega
          rw [hpos]
          exact ih hrest (Nat.lt_of_succ_lt_succ hi)

/-- The same bytes at another place. -/
theorem translate (h : CString m a bs)
    (hm : ∀ i : Nat, i ≤ bs.length → m' (a' + i) = m (a + i)) : CString m' a' bs := by
  induction bs generalizing a a' with
  | nil =>
      have hzero := hm 0 (Nat.le_refl 0)
      simp only [Nat.cast_zero, Int.add_zero] at hzero
      exact nil_iff.mpr (hzero.trans (nil_iff.mp h))
  | cons b bs ih =>
      obtain ⟨hb, hne, hrest⟩ := cons_iff.mp h
      have hfirst := hm 0 (Nat.zero_le _)
      simp only [Nat.cast_zero, Int.add_zero] at hfirst
      refine cons_iff.mpr ⟨hfirst.trans hb, hne, ih hrest fun i hi => ?_⟩
      have hnext := hm (i + 1) (Nat.succ_le_succ hi)
      have hpos : a' + ((i + 1 : Nat) : Int) = a' + 1 + i := by omega
      have hpos' : a + ((i + 1 : Nat) : Int) = a + 1 + i := by omega
      rwa [hpos, hpos'] at hnext

/-- A memory that agrees on the text and the byte behind it. -/
theorem frame (h : CString m a bs)
    (hm : ∀ x, a ≤ x → x ≤ a + bs.length → m' x = m x) : CString m' a bs :=
  h.translate fun i hi => hm _ (by omega) (by omega)

/-- A text whose end is taken by another text. -/
theorem append (h : ∀ i : Nat, i < bs.length → m (a + i) = bs.getD i 0#8) (hbs : 0#8 ∉ bs)
    (hcs : CString m (a + bs.length) cs) : CString m a (bs ++ cs) := by
  refine ⟨?_, fun hmem => (List.mem_append.mp hmem).elim hbs hcs.text⟩
  rw [List.append_assoc, Bytes.holds_append]
  exact ⟨Bytes.holds_of_getD h, hcs.held⟩

theorem getD_eq (h : CString m a bs) {i : Nat} (hi : i < bs.length) :
    m (a + i) = bs.getD i 0#8 := by
  induction bs generalizing a i with
  | nil => cases hi
  | cons b bs ih =>
      obtain ⟨hb, -, hrest⟩ := cons_iff.mp h
      cases i with
      | zero => simpa using hb
      | succ i =>
          have hpos : a + ((i + 1 : Nat) : Int) = a + 1 + i := by omega
          rw [hpos, List.getD_cons_succ]
          exact ih hrest (Nat.lt_of_succ_lt_succ hi)

theorem holds_take (h : CString m a bs) (n : Nat) : m.Holds a (bs.take n) := by
  have hheld := h.held
  rw [← List.take_append_drop n bs, List.append_assoc, Bytes.holds_append] at hheld
  exact hheld.1

end CString

/-! ### The first difference -/

/-- The difference of the first bytes that differ. -/
def firstDiff : List (BitVec 8) → List (BitVec 8) → Int
  | [], [] => 0
  | [], c :: _ => 0 - c.toNat
  | b :: _, [] => b.toNat
  | b :: bs, c :: cs => if b = c then firstDiff bs cs else b.toNat - c.toNat

theorem firstDiff_self (bs : List (BitVec 8)) : firstDiff bs bs = 0 := by
  induction bs with
  | nil => rfl
  | cons b bs ih => rw [firstDiff, if_pos rfl, ih]

theorem firstDiff_swap (bs cs : List (BitVec 8)) : firstDiff cs bs = -firstDiff bs cs := by
  induction bs generalizing cs with
  | nil =>
      cases cs with
      | nil => rfl
      | cons c cs => simp [firstDiff]
  | cons b bs ih =>
      cases cs with
      | nil => simp [firstDiff]
      | cons c cs =>
          rw [firstDiff, firstDiff]
          by_cases h : b = c
          · rw [if_pos h, if_pos h.symm, ih]
          · rw [if_neg h, if_neg (Ne.symm h), Int.neg_sub]

/-- A negative difference is the lexicographic order. -/
theorem firstDiff_neg_iff {bs cs : List (BitVec 8)} (hcs : 0#8 ∉ cs) :
    firstDiff bs cs < 0 ↔ bs < cs := by
  induction bs generalizing cs with
  | nil =>
      cases cs with
      | nil => simp [firstDiff]
      | cons c cs =>
          have hne : c ≠ 0#8 := fun h => hcs (h ▸ List.mem_cons_self)
          have hpos : c.toNat ≠ 0 := fun h => hne (BitVec.eq_of_toNat_eq h)
          simp only [firstDiff, List.nil_lt_cons, iff_true]
          omega
  | cons b bs ih =>
      cases cs with
      | nil =>
          simp only [firstDiff, List.not_lt_nil, iff_false]
          omega
      | cons c cs =>
          rw [firstDiff, List.cons_lt_cons_iff]
          by_cases h : b = c
          · rw [if_pos h, ih fun hm => hcs (List.mem_cons_of_mem c hm)]
            simp [h]
          · rw [if_neg h, BitVec.lt_def]
            simp only [h, false_and, or_false]
            omega

theorem firstDiff_eq_zero_iff {bs cs : List (BitVec 8)} (hbs : 0#8 ∉ bs) (hcs : 0#8 ∉ cs) :
    firstDiff bs cs = 0 ↔ bs = cs := by
  constructor
  · intro h
    -- neither text precedes the other
    have hle : ¬ bs < cs := fun hlt => by
      have hneg := (firstDiff_neg_iff hcs).mpr hlt
      omega
    have hge : ¬ cs < bs := fun hlt => by
      have hneg := (firstDiff_neg_iff hbs).mpr hlt
      rw [firstDiff_swap] at hneg
      omega
    exact List.le_antisymm hge hle
  · rintro rfl
    exact firstDiff_self bs

end Chestnut.Lib
