import Chestnut.Lib.Reach
import Chestnut.Slab.Model
import Mathlib.Data.Finset.Card
import Mathlib.Data.Finset.Range

/-!
# Bitmap slabs

A `BitmapSlab<n>` stripes its slots over `n` words: slot `idx * n + row` is
bit `idx` of word `row`, 1 while the slot is free. The mask of a slot comes
from an `int` shift, so bits 31 to 63 of a word always move together: slot
`31 * n + row` owns all of them and there is no slot beyond it. A slab whose
page has room for `64 * n` objects is therefore full with half of them.
-/

namespace Chestnut

open Lib BaseBitmapSlab

/-- The bitmap shows exactly the slots outside `live` as free. -/
structure BitmapRep (n : Nat) (bitmap : Nat → BitVec 64) (live : Finset Nat) : Prop where
  bounded : ∀ s ∈ live, s < 32 * n
  bit : ∀ r < n, ∀ b < 64, (bitmap r).getLsbD b = decide (min b 31 * n + r ∉ live)

namespace BaseBitmapSlab

/-- The mask of an index is its own bit, and all upper bits for index 31. -/
theorem intBit_getLsbD {idx b : Nat} (hi : idx < 32) (hb : b < 64) :
    (intBit idx).getLsbD b = decide (min b 31 = idx) := by
  have hmask : intBit idx = (BitVec.twoPow 32 idx).signExtend 64 := by
    rw [intBit, Nat.mod_eq_of_lt hi]
    rfl
  rw [hmask, BitVec.getLsbD_signExtend, BitVec.msb_eq_getLsbD_last]
  simp only [BitVec.getLsbD_twoPow, hi, hb, decide_true, Bool.true_and]
  by_cases hb32 : b < 32
  · have hmin : min b 31 = b := by omega
    simp [hb32, hmin, eq_comm]
  · have hmin : min b 31 = 31 := by omega
    simp [hb32, hmin, eq_comm]

theorem ctzl_lt_iff {w : BitVec 64} : ctzl w < 64 ↔ w ≠ 0#64 := by
  rw [← BitVec.ctz_lt_iff_ne_zero, BitVec.lt_def]
  simp [ctzl]

/-- The search loop ends on a row with the least count of trailing zeros, or
on its start values when every word is zero. -/
theorem lowest_spec (n : Nat) (bitmap : Nat → BitVec 64) :
    (∀ r < n, (lowest n bitmap).1 ≤ ctzl (bitmap r)) ∧
      (lowest n bitmap = (64, 0) ∨ ((lowest n bitmap).2 < n ∧
        (lowest n bitmap).1 = ctzl (bitmap (lowest n bitmap).2))) := by
  induction n with
  | zero => exact ⟨by simp, Or.inl rfl⟩
  | succ n ih =>
      have hstep : lowest (n + 1) bitmap =
          if ctzl (bitmap n) < (lowest n bitmap).1 then (ctzl (bitmap n), n)
          else lowest n bitmap := by
        simp only [lowest, List.range_succ, List.foldl_append, List.foldl_cons, List.foldl_nil]
        rfl
      obtain ⟨hle, hrow⟩ := ih
      rw [hstep]
      split
      · rename_i hlt
        refine ⟨?_, Or.inr ⟨by omega, rfl⟩⟩
        intro r hr
        rcases Nat.lt_succ_iff_lt_or_eq.mp hr with h | h
        · exact le_trans hlt.le (hle r h)
        · rw [h]
      · rename_i hge
        refine ⟨?_, ?_⟩
        · intro r hr
          rcases Nat.lt_succ_iff_lt_or_eq.mp hr with h | h
          · exact hle r h
          · rw [h]
            exact Nat.le_of_not_lt hge
        · rcases hrow with h | ⟨h₁, h₂⟩
          · exact Or.inl h
          · exact Or.inr ⟨by omega, h₂⟩

end BaseBitmapSlab

namespace BitmapRep

variable {n : Nat} {bitmap : Nat → BitVec 64} {live : Finset Nat}

/-- Two slots agree exactly in index and row. -/
theorem slot_inj {i j r s : Nat} (hr : r < n) (hs : s < n) :
    i * n + r = j * n + s ↔ i = j ∧ r = s := by
  constructor
  · intro h
    have hi := congrArg (· / n) h
    have hm := congrArg (· % n) h
    simp only [Nat.add_comm _ r, Nat.add_comm _ s] at hi hm
    rw [Nat.add_mul_div_right _ _ (by omega), Nat.add_mul_div_right _ _ (by omega),
      Nat.div_eq_of_lt hr, Nat.div_eq_of_lt hs] at hi
    rw [Nat.add_mul_mod_self_right, Nat.add_mul_mod_self_right, Nat.mod_eq_of_lt hr,
      Nat.mod_eq_of_lt hs] at hm
    exact ⟨by omega, hm⟩
  · rintro ⟨rfl, rfl⟩
    rfl

/-- The slots of the first `k` indices are the first `k * n`. -/
theorem slot_lt {i k r : Nat} (hi : i < k) (hr : r < n) : i * n + r < k * n := by
  calc i * n + r < i * n + n := by omega
    _ = (i + 1) * n := by rw [Nat.add_mul, Nat.one_mul]
    _ ≤ k * n := Nat.mul_le_mul_right n hi

theorem init (n : Nat) (r : SlabRec) : BitmapRep n (BitmapSlab.init n r).bitmap ∅ := by
  refine ⟨by simp, ?_⟩
  intro i hi b hb
  simp only [BitmapSlab.init, hi, if_true, BitVec.getLsbD_allOnes, hb, Finset.notMem_empty,
    not_false_eq_true, decide_true]

/-- Every slot of a zero word is live. -/
theorem mem_of_zero (R : BitmapRep n bitmap live) {r idx : Nat} (hr : r < n) (hi : idx < 32)
    (hz : bitmap r = 0#64) : idx * n + r ∈ live := by
  have h := R.bit r hr idx (by omega)
  have hmin : min idx 31 = idx := by omega
  rw [hz, hmin] at h
  simpa using h.symm

/-- A word is zero exactly when its 32 slots are live. -/
theorem zero_iff (R : BitmapRep n bitmap live) {r : Nat} (hr : r < n) :
    bitmap r = 0#64 ↔ ∀ idx < 32, idx * n + r ∈ live := by
  constructor
  · intro hz idx hi
    exact R.mem_of_zero hr hi hz
  · intro hall
    apply BitVec.eq_of_getLsbD_eq
    intro b hb
    have := hall (min b 31) (by omega)
    simp [R.bit r hr b hb, this]

/-- The lowest free index of a word with a free slot is at most 31. -/
theorem ctzl_le (R : BitmapRep n bitmap live) {r : Nat} (hr : r < n)
    (hnz : bitmap r ≠ 0#64) : ctzl (bitmap r) < 32 ∧ ctzl (bitmap r) * n + r ∉ live := by
  have hlt := ctzl_lt_iff.mpr hnz
  have hset : (bitmap r).getLsbD (ctzl (bitmap r)) = true :=
    BitVec.getLsbD_true_ctz_of_ne_zero hnz
  have hbit := R.bit r hr _ hlt
  rw [hset] at hbit
  have hle : ctzl (bitmap r) < 32 := by
    by_contra hge
    have hlow : (bitmap r).getLsbD 31 = false :=
      BitVec.getLsbD_false_of_lt_ctz (show 31 < ctzl (bitmap r) by omega)
    have hmin : min (ctzl (bitmap r)) 31 = 31 := by omega
    rw [R.bit r hr 31 (by omega)] at hlow
    rw [hmin] at hbit
    simp_all
  have hmin : min (ctzl (bitmap r)) 31 = ctzl (bitmap r) := by omega
  rw [hmin] at hbit
  exact ⟨hle, by simpa using hbit.symm⟩

/-- Toggling the mask of one slot moves exactly that slot. -/
theorem toggle (R : BitmapRep n bitmap live) {idx row : Nat} (hi : idx < 32) (hr : row < n)
    {live' : Finset Nat} (hb : ∀ s ∈ live', s < 32 * n)
    (hl : ∀ s, (s ∈ live' ↔ s ∈ live) ↔ s ≠ idx * n + row) :
    BitmapRep n (Function.update bitmap row (bitmap row ^^^ intBit idx)) live' := by
  refine ⟨hb, ?_⟩
  intro r hrn b hbb
  have hiff := hl (min b 31 * n + r)
  by_cases hrr : r = row
  · subst hrr
    rw [Function.update_self, BitVec.getLsbD_xor, R.bit r hrn b hbb, intBit_getLsbD hi hbb]
    have hslot := slot_inj (i := min b 31) (j := idx) hrn hrn
    simp only [and_true] at hslot
    rw [ne_eq, hslot] at hiff
    by_cases he : min b 31 = idx
    · have hflip : ¬ (min b 31 * n + r ∈ live' ↔ min b 31 * n + r ∈ live) :=
        fun h => hiff.mp h he
      rw [decide_eq_true he, Bool.xor_true, ← decide_not]
      exact decide_eq_decide.mpr (by tauto)
    · simp [hiff.mpr he, he]
  · rw [Function.update_of_ne hrr, R.bit r hrn b hbb]
    have hne : min b 31 * n + r ≠ idx * n + row := fun e => hrr ((slot_inj hrn hr).mp e).2
    have := hiff.mpr hne
    simp [this]

/-- `AllocFromBitmapArray` on a bitmap with a free slot takes a free slot. -/
theorem alloc (R : BitmapRep n bitmap live) (hfree : ∃ r < n, bitmap r ≠ 0#64) :
    (allocFromBitmapArray n bitmap).1 < 32 * n ∧ (allocFromBitmapArray n bitmap).1 ∉ live ∧
      BitmapRep n (allocFromBitmapArray n bitmap).2
        (insert (allocFromBitmapArray n bitmap).1 live) := by
  obtain ⟨r, hr, hnz⟩ := hfree
  obtain ⟨hle, hrow⟩ := lowest_spec n bitmap
  have h64 : (lowest n bitmap).1 < 64 := lt_of_le_of_lt (hle r hr) (ctzl_lt_iff.mpr hnz)
  obtain ⟨hrn, heq⟩ : (lowest n bitmap).2 < n ∧
      (lowest n bitmap).1 = ctzl (bitmap (lowest n bitmap).2) := by
    rcases hrow with h | h
    · rw [h] at h64
      omega
    · exact h
  have hnz' : bitmap (lowest n bitmap).2 ≠ 0#64 := ctzl_lt_iff.mp (heq ▸ h64)
  obtain ⟨h32, hnl⟩ := R.ctzl_le hrn hnz'
  rw [← heq] at h32 hnl
  have hslot : (lowest n bitmap).1 * n + (lowest n bitmap).2 < 32 * n := slot_lt h32 hrn
  refine ⟨hslot, hnl, R.toggle h32 hrn ?_ ?_⟩
  · intro s hs
    rcases Finset.mem_insert.mp hs with h | h
    · rw [h]
      exact hslot
    · exact R.bounded s h
  · intro s
    by_cases hs : s = (lowest n bitmap).1 * n + (lowest n bitmap).2
    · simp [allocFromBitmapArray, hs, hnl]
    · simp [allocFromBitmapArray, hs]

/-- `FreeToBitmapArray` of a live slot frees it. -/
theorem free (R : BitmapRep n bitmap live) {s : Nat} (hs : s ∈ live) :
    BitmapRep n (freeToBitmapArray n bitmap s) (live.erase s) := by
  have hlt := R.bounded s hs
  have hn : 0 < n := by omega
  have hidx : s / n < 32 := (Nat.div_lt_iff_lt_mul hn).mpr hlt
  have hdiv : s / n * n + s % n = s := by
    rw [Nat.mul_comm]
    exact Nat.div_add_mod s n
  refine R.toggle hidx (Nat.mod_lt s hn) ?_ ?_
  · intro t ht
    exact R.bounded t (Finset.mem_of_mem_erase ht)
  · intro t
    rw [hdiv]
    by_cases ht : t = s
    · simp [ht, hs]
    · simp [ht]

theorem foldl_and_eq (l : List Nat) (w : BitVec 64) :
    l.foldl (fun s i => s &&& bitmap i) w = BitVec.allOnes 64 ↔
      w = BitVec.allOnes 64 ∧ ∀ i ∈ l, bitmap i = BitVec.allOnes 64 := by
  induction l generalizing w with
  | nil => simp
  | cons a l ih =>
      rw [List.foldl_cons, ih, BitVec.and_eq_allOnes_iff]
      simp [and_assoc]

theorem foldl_or_eq (l : List Nat) (w : BitVec 64) :
    l.foldl (fun s i => s ||| bitmap i) w = 0#64 ↔ w = 0#64 ∧ ∀ i ∈ l, bitmap i = 0#64 := by
  induction l generalizing w with
  | nil => simp
  | cons a l ih =>
      rw [List.foldl_cons, ih, BitVec.or_eq_zero_iff]
      simp [and_assoc]

/-- The rows that the loops of `is_empty` and `is_full` join. -/
theorem forall_rows (hn : 1 ≤ n) (P : Nat → Prop) :
    (P 0 ∧ ∀ i ∈ List.range' 1 (n - 1), P i) ↔ ∀ i < n, P i := by
  constructor
  · rintro ⟨h0, h⟩ i hi
    rcases Nat.eq_zero_or_pos i with rfl | hpos
    · exact h0
    · exact h i (List.mem_range'_1.mpr ⟨hpos, by omega⟩)
  · intro h
    refine ⟨h 0 (by omega), fun i hi => h i ?_⟩
    have := List.mem_range'_1.mp hi
    omega

/-- `is_empty` holds exactly when no slot is live. -/
theorem isEmpty_iff {r : SlabRec} (R : BitmapRep n r.bitmap live) (hn : 1 ≤ n) :
    BitmapSlab.isEmpty n r = true ↔ live = ∅ := by
  rw [BitmapSlab.isEmpty, beq_iff_eq, foldl_and_eq,
    forall_rows hn fun i => r.bitmap i = BitVec.allOnes 64]
  constructor
  · intro hall
    rw [Finset.eq_empty_iff_forall_notMem]
    intro s hs
    have hlt := R.bounded s hs
    have hidx : s / n < 32 := (Nat.div_lt_iff_lt_mul (by omega)).mpr hlt
    have hmod : s % n < n := Nat.mod_lt s (by omega)
    have hbit := R.bit (s % n) hmod (s / n) (by omega)
    have hmin : min (s / n) 31 = s / n := by omega
    rw [hall _ hmod, hmin, Nat.mul_comm, Nat.div_add_mod] at hbit
    simp only [BitVec.getLsbD_allOnes, hs, not_true_eq_false, decide_false,
      decide_eq_false_iff_not] at hbit
    omega
  · rintro rfl i hi
    apply BitVec.eq_of_getLsbD_eq
    intro b hb
    simp only [R.bit i hi b hb, BitVec.getLsbD_allOnes, hb, Finset.notMem_empty,
      not_false_eq_true]

theorem isFull_iff_rows {r : SlabRec} (hn : 1 ≤ n) :
    BitmapSlab.isFull n r = true ↔ ∀ i < n, r.bitmap i = 0#64 := by
  rw [BitmapSlab.isFull, beq_iff_eq, foldl_or_eq, forall_rows hn fun i => r.bitmap i = 0#64]

/-- `is_full` holds exactly when all `32 * n` slots are live. -/
theorem isFull_iff {r : SlabRec} (R : BitmapRep n r.bitmap live) (hn : 1 ≤ n) :
    BitmapSlab.isFull n r = true ↔ live = Finset.range (32 * n) := by
  rw [isFull_iff_rows hn]
  constructor
  · intro hall
    apply Finset.Subset.antisymm
    · intro s hs
      exact Finset.mem_range.mpr (R.bounded s hs)
    · intro s hs
      have hlt := Finset.mem_range.mp hs
      have hidx : s / n < 32 := (Nat.div_lt_iff_lt_mul (by omega)).mpr hlt
      have hmod : s % n < n := Nat.mod_lt s (by omega)
      have hmem := R.mem_of_zero hmod hidx (hall _ hmod)
      rwa [Nat.mul_comm, Nat.div_add_mod] at hmem
  · rintro rfl i hi
    rw [R.zero_iff hi]
    intro idx hidx
    exact Finset.mem_range.mpr (slot_lt hidx hi)

theorem card_le (R : BitmapRep n bitmap live) : live.card ≤ 32 * n := by
  rw [← Finset.card_range (32 * n)]
  exact Finset.card_le_card fun s hs => Finset.mem_range.mpr (R.bounded s hs)

theorem isFull_iff_card {r : SlabRec} (R : BitmapRep n r.bitmap live) (hn : 1 ≤ n) :
    BitmapSlab.isFull n r = true ↔ live.card = 32 * n := by
  rw [R.isFull_iff hn]
  constructor
  · intro h
    rw [h, Finset.card_range]
  · intro h
    refine Finset.eq_of_subset_of_card_le (fun s hs => Finset.mem_range.mpr (R.bounded s hs)) ?_
    rw [h, Finset.card_range]

/-- A bitmap that is not full has a word with a free slot. -/
theorem exists_free {r : SlabRec} (R : BitmapRep n r.bitmap live) (hn : 1 ≤ n)
    (hlt : live.card < 32 * n) : ∃ i < n, r.bitmap i ≠ 0#64 := by
  by_contra hall
  push Not at hall
  rw [← isFull_iff_rows hn, R.isFull_iff_card hn] at hall
  omega

end BitmapRep

/-- The calls on one bitmap slab. -/
inductive BitmapOp
  | alloc
  | free (objIdx : Nat)
  deriving DecidableEq, Repr

/-- A bitmap slab and the indices that callers hold. -/
structure BitmapWorld where
  slab : SlabRec
  live : Finset Nat

namespace BitmapWorld

def step (n : Nat) (w : BitmapWorld) : BitmapOp → Except Fault BitmapWorld
  | .alloc =>
      let (idx, bitmap) := allocFromBitmapArray n w.slab.bitmap
      .ok ⟨{ w.slab with bitmap := bitmap }, insert idx w.live⟩
  | .free objIdx =>
      .ok ⟨{ w.slab with bitmap := freeToBitmapArray n w.slab.bitmap objIdx },
        w.live.erase objIdx⟩

/-- A slot is taken only from a slab that is not full, and only live slots are
given back. -/
def Allowed (n : Nat) (w : BitmapWorld) : BitmapOp → Prop
  | .alloc => BitmapSlab.isFull n w.slab = false
  | .free objIdx => objIdx ∈ w.live

/-- The states of a slab after `Init`. -/
def Reachable (n : Nat) (r : SlabRec) (w : BitmapWorld) : Prop :=
  Reach (step n) (Allowed n) ⟨BitmapSlab.init n r, ∅⟩ w

variable {n : Nat} {r : SlabRec} {w : BitmapWorld}

/-- `Alloc` on a slab that is not full takes a free slot. -/
theorem alloc_rep (hn : 1 ≤ n) (R : BitmapRep n w.slab.bitmap w.live)
    (hfull : BitmapSlab.isFull n w.slab = false) :
    (allocFromBitmapArray n w.slab.bitmap).1 ∉ w.live ∧
      BitmapRep n (allocFromBitmapArray n w.slab.bitmap).2
        (insert (allocFromBitmapArray n w.slab.bitmap).1 w.live) := by
  rw [← Bool.not_eq_true, R.isFull_iff_card hn] at hfull
  exact (R.alloc (R.exists_free hn (Nat.lt_of_le_of_ne R.card_le hfull))).2

theorem step_rep (hn : 1 ≤ n) {w' : BitmapWorld} {op : BitmapOp}
    (R : BitmapRep n w.slab.bitmap w.live) (ha : w.Allowed n op) (hs : w.step n op = .ok w') :
    BitmapRep n w'.slab.bitmap w'.live := by
  cases op with
  | alloc =>
      cases hs
      exact (alloc_rep hn R ha).2
  | free objIdx =>
      cases hs
      exact R.free ha

theorem Reachable.rep (hn : 1 ≤ n) (hw : Reachable n r w) :
    BitmapRep n w.slab.bitmap w.live :=
  Reach.inv (I := fun w => BitmapRep n w.slab.bitmap w.live) (BitmapRep.init n r)
    (fun _ _ _ R ha hs => step_rep hn R ha hs) hw

/-- Any number of slots up to `32 * n` can be live. -/
theorem exists_reachable_card (hn : 1 ≤ n) (r : SlabRec) {k : Nat} (hk : k ≤ 32 * n) :
    ∃ w, Reachable n r w ∧ w.live.card = k := by
  induction k with
  | zero => exact ⟨_, .start, rfl⟩
  | succ k ih =>
      obtain ⟨w, hw, hcard⟩ := ih (by omega)
      have R := hw.rep hn
      have hfull : BitmapSlab.isFull n w.slab = false := by
        rw [← Bool.not_eq_true, R.isFull_iff_card hn]
        omega
      refine ⟨⟨{ w.slab with bitmap := (allocFromBitmapArray n w.slab.bitmap).2 },
        insert (allocFromBitmapArray n w.slab.bitmap).1 w.live⟩,
        .next (o := .alloc) hw hfull rfl, ?_⟩
      rw [Finset.card_insert_of_notMem (alloc_rep hn R hfull).1, hcard]

/-- For the three bitmap caches, `is_full` and `is_empty` speak of the objects of
the whole page exactly while fewer than half of them are live. -/
theorem whole_page_iff (n objSize : Nat) (hcache : (n, objSize) ∈ [(4, 16), (2, 32), (1, 64)])
    (hw : Reachable n r w) :
    ((BitmapSlab.isFull n w.slab = true ↔ w.live = Finset.range (pageSize / objSize)) ∧
      (BitmapSlab.isEmpty n w.slab = true ↔ w.live = ∅)) ↔ w.live.card < 32 * n := by
  have hsize : 1 ≤ n ∧ pageSize / objSize = 64 * n := by
    simp only [List.mem_cons, Prod.mk.injEq, List.not_mem_nil, or_false] at hcache
    rcases hcache with ⟨rfl, rfl⟩ | ⟨rfl, rfl⟩ | ⟨rfl, rfl⟩ <;> decide
  obtain ⟨hn, hpage⟩ := hsize
  have R := hw.rep hn
  have hle := R.card_le
  have hnever : w.live ≠ Finset.range (64 * n) := by
    intro h
    rw [h, Finset.card_range] at hle
    omega
  rw [hpage, and_iff_left (R.isEmpty_iff hn), iff_false_right hnever, R.isFull_iff_card hn]
  omega

/-- With 127 of the 256 objects of 16 bytes the two predicates are still right; with 128 they
are not. -/
theorem whole_page_iff_live :
    (∃ w, Reachable 4 {} w ∧ w.live.card = 127 ∧
      (BitmapSlab.isFull 4 w.slab = true ↔ w.live = Finset.range (pageSize / 16)) ∧
      (BitmapSlab.isEmpty 4 w.slab = true ↔ w.live = ∅)) ∧
    ∃ w, Reachable 4 {} w ∧ w.live.card = 128 ∧
      ¬ ((BitmapSlab.isFull 4 w.slab = true ↔ w.live = Finset.range (pageSize / 16)) ∧
        (BitmapSlab.isEmpty 4 w.slab = true ↔ w.live = ∅)) := by
  obtain ⟨w, hw, hcard⟩ := exists_reachable_card (n := 4) (by decide) {} (k := 127) (by decide)
  obtain ⟨w', hw', hcard'⟩ := exists_reachable_card (n := 4) (by decide) {} (k := 128) (by decide)
  refine ⟨⟨w, hw, hcard, (whole_page_iff 4 16 (by decide) hw).mpr (by omega)⟩,
    w', hw', hcard', fun h => ?_⟩
  have hlt := (whole_page_iff 4 16 (by decide) hw').mp h
  omega

/-- 32 objects of 64 bytes fill a slab whose page has room for 64. -/
theorem half_page_full :
    ∃ w, Reachable 1 {} w ∧ BitmapSlab.isFull 1 w.slab = true ∧ w.live.card = 32 ∧
      w.live ≠ Finset.range (pageSize / 64) := by
  obtain ⟨w, hw, hcard⟩ := exists_reachable_card (n := 1) (by decide) {} (k := 32) (by decide)
  refine ⟨w, hw, ((hw.rep (by decide)).isFull_iff_card (by decide)).mpr hcard, hcard, ?_⟩
  intro h
  rw [h, Finset.card_range] at hcard
  revert hcard
  decide

end BitmapWorld

end Chestnut
