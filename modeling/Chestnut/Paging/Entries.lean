import Chestnut.Paging.Model
import Mathlib.Data.Nat.Bitwise
import Mathlib.Tactic.NormNum

/-!
# What an entry holds

An entry made by the code is a page number and flags below bit 12. Setting a
flag, testing one and masking the address act on the two parts separately. The
fields of a kernel address that select entries are those of the physical one.
-/

namespace Chestnut

/-- The entry with the page number `p` and the flags `f`. -/
def Entry.word (p f : Nat) : Entry := BitVec.ofNat 64 (pageSize * p + f)

namespace Entry

variable {p f k : Nat}

theorem word_getLsbD (hf : f < 4096) (i : Nat) :
    (word p f).getLsbD i =
      (decide (i < 64) && if i < 12 then f.testBit i else p.testBit (i - 12)) := by
  rw [word, BitVec.getLsbD_ofNat, pageSize]
  congr 1
  exact Nat.testBit_two_pow_mul_add p (i := 12) hf i

theorem toNat_word (hp : p < 2 ^ 52) (hf : f < 4096) :
    (word p f).toNat = pageSize * p + f := by
  rw [word, BitVec.toNat_ofNat, Nat.mod_eq_of_lt]
  rw [pageSize]
  omega

theorem flag_getLsbD (k i : Nat) : (1#64 <<< k).getLsbD i = decide (i < 64 ∧ i = k) := by
  rw [BitVec.getLsbD_shiftLeft]
  by_cases h : i = k
  · subst h
    simp
  · by_cases hk : i < k
    · simp [hk, h]
    · have hsub : i - k ≠ 0 := by omega
      simp [h, hsub]

theorem getFlag_eq (e : Entry) (hk : k < 64) : getFlag k e = e.getLsbD k := by
  rw [getFlag, Bool.eq_iff_iff, bne_iff_ne, ne_eq]
  constructor
  · intro hne
    by_contra hb
    apply hne
    apply BitVec.eq_of_getLsbD_eq
    intro i hi
    rw [BitVec.getLsbD_and, flag_getLsbD, BitVec.getLsbD_zero]
    by_cases h : i = k
    · subst h
      simp [Bool.eq_false_iff.mpr hb]
    · simp [h]
  · intro hb he
    have := congrArg (fun w => BitVec.getLsbD w k) he
    simp only [BitVec.getLsbD_and, flag_getLsbD, BitVec.getLsbD_zero, hb, Bool.true_and] at this
    simp at this
    omega

theorem getFlag_word (hf : f < 4096) (hk : k < 12) : getFlag k (word p f) = f.testBit k := by
  rw [getFlag_eq _ (by omega), word_getLsbD hf, if_pos hk, decide_eq_true (by omega : k < 64),
    Bool.true_and]

theorem setFlag_true_word (hf : f < 4096) (hk : k < 12) :
    setFlag true k (word p f) = word p (f ||| 2 ^ k) := by
  have hpow : 2 ^ k < 2 ^ 12 := Nat.pow_lt_pow_right (by omega) hk
  have hor : f ||| 2 ^ k < 4096 := Nat.or_lt_two_pow (n := 12) hf hpow
  apply BitVec.eq_of_getLsbD_eq
  intro i hi
  simp only [setFlag, if_true, BitVec.getLsbD_or, flag_getLsbD, word_getLsbD hf, word_getLsbD hor,
    Nat.testBit_or, Nat.testBit_two_pow]
  by_cases h12 : i < 12
  · simp [h12, hi, eq_comm]
  · have : i ≠ k := by omega
    simp [h12, hi, this]

theorem setFlag_false_word (hf : f < 4096) (hk : f.testBit k = false) (h12 : k < 12) :
    setFlag false k (word p f) = word p f := by
  apply BitVec.eq_of_getLsbD_eq
  intro i hi
  simp only [setFlag, Bool.false_eq_true, if_false, BitVec.getLsbD_and, BitVec.getLsbD_not,
    flag_getLsbD, word_getLsbD hf]
  by_cases h : i = k
  · subst h
    simp [h12, hk]
  · simp [h, hi]

theorem ofPaddr_page (p : Nat) : ofPaddr (pageSize * p) = word p 3 := by
  have h₁ : setPresent true (word p 0) = word p 1 :=
    setFlag_true_word (by norm_num) (by norm_num)
  have h₃ : setReadWrite true (word p 1) = word p 3 :=
    setFlag_true_word (by norm_num) (by norm_num)
  rw [← h₃, ← h₁]
  rfl

theorem physicalAddress_word (hp : p < 2 ^ 52) (hf : f < 512) :
    physicalAddress (word p f) = pageSize * p := by
  have hmask : word p f &&& ~~~0x1FF#64 = word p 0 := by
    apply BitVec.eq_of_getLsbD_eq
    intro i hi
    have h511 : (0x1FF#64).getLsbD i = decide (i < 9) := by
      rw [BitVec.getLsbD_ofNat, decide_eq_true hi, Bool.true_and]
      exact Nat.testBit_two_pow_sub_one 9 i
    rw [BitVec.getLsbD_and, BitVec.getLsbD_not, h511, word_getLsbD (by omega),
      word_getLsbD (by omega)]
    by_cases h9 : i < 9
    · simp [h9, hi, (by omega : i < 12)]
    · have hpow : 2 ^ 9 ≤ 2 ^ i := Nat.pow_le_pow_right (by omega) (by omega)
      have hz : f.testBit i = false := Nat.testBit_lt_two_pow (lt_of_lt_of_le hf hpow)
      by_cases h12 : i < 12 <;> simp [h9, hi, h12, hz]
  rw [physicalAddress, hmask, toNat_word hp (by omega), Nat.add_zero]

end Entry

namespace Paging

variable {l a : Nat}

theorem frame_word {x f : Nat} (hl : l < 3) (hx : x * 512 ^ l < 2 ^ 40) (hf : f < 4096) :
    frame l (Entry.word (x * 512 ^ l) f) = pageSize * (x * 512 ^ l) := by
  rw [frame, Entry.toNat_word (by omega) hf, pageSize]
  obtain rfl | rfl | rfl : l = 0 ∨ l = 1 ∨ l = 2 := by omega
  all_goals
    norm_num at hx ⊢
    omega

theorem frame_page {p f : Nat} (hp : p < 2 ^ 40) (hf : f < 4096) :
    frame 0 (Entry.word p f) = pageSize * p := by
  have h := frame_word (l := 0) (x := p) (by norm_num) (by simpa using hp) hf
  simpa using h

theorem slotOf_kern (hl : l < 3) :
    slotOf l (kernOffset + a) = a / pageSize / 512 ^ l % 512 := by
  rw [slotOf, kernOffset, pageSize]
  obtain rfl | rfl | rfl : l = 0 ∨ l = 1 ∨ l = 2 := by omega
  all_goals
    norm_num
    omega

theorem slotOf_root (ha : a < 2 ^ 39) : slotOf 3 (kernOffset + a) = 510 := by
  rw [slotOf, kernOffset]
  norm_num
  omega

/-- A kernel address does not wrap. -/
theorem kernel_address (ha : a < 2 ^ 40) : (kernOffset + a) % u64Size = kernOffset + a :=
  Nat.mod_eq_of_lt (by rw [kernOffset, u64Size]; omega)

/-- All the nine-bit fields of a kernel address are those of the physical one. -/
theorem offset_kern (hl : l < 3) (ha : a < 2 ^ 40) :
    offset (l + 1) ((kernOffset + a) % u64Size) = a / pageSize / 512 ^ l % 512 := by
  have hland : ∀ n, n &&& 0x1FF = n % 512 := fun n => Nat.and_two_pow_sub_one_eq_mod n 9
  rw [offset, hland, Nat.shiftRight_eq_div_pow, kernel_address ha, kernOffset, pageSize]
  obtain rfl | rfl | rfl : l = 0 ∨ l = 1 ∨ l = 2 := by omega
  all_goals
    norm_num
    omega

/-- Kernel addresses share one entry of the top-level table. -/
theorem offset_root (ha : a < 2 ^ 39) : offset 4 ((kernOffset + a) % u64Size) = 510 := by
  have hland : ∀ n, n &&& 0x1FF = n % 512 := fun n => Nat.and_two_pow_sub_one_eq_mod n 9
  rw [offset, hland, Nat.shiftRight_eq_div_pow, kernel_address (by omega), kernOffset]
  norm_num
  omega

end Paging

end Chestnut
