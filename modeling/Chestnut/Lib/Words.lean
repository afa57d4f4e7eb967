import Mathlib.Algebra.Group.Nat.Defs
import Mathlib.Data.List.Basic

/-!
# A downward stack in byte memory

Little-endian accesses of four and eight bytes, and `Stacked m a ds`: the
dwords `ds` lie in memory from address `a` upwards. Addresses are taken modulo
`2^64`; a stack may lie across the end of memory as long as it does not
overlap itself. Pushing extends the list at the front, reserving space extends
it by what memory holds there, a store inside replaces one element.
-/

namespace Chestnut.Lib

abbrev Memory : Type := BitVec 64 → BitVec 8

def load32 (m : Memory) (a : BitVec 64) : BitVec 32 :=
  m (a + 3#64) ++ m (a + 2#64) ++ m (a + 1#64) ++ m a

def store32 (m : Memory) (a : BitVec 64) (v : BitVec 32) : Memory := fun x =>
  if x = a then v.extractLsb' 0 8
  else if x = a + 1#64 then v.extractLsb' 8 8
  else if x = a + 2#64 then v.extractLsb' 16 8
  else if x = a + 3#64 then v.extractLsb' 24 8
  else m x

/-- The low half of a word. -/
def lo (w : BitVec 64) : BitVec 32 := w.extractLsb' 0 32

/-- The high half of a word. -/
def hi (w : BitVec 64) : BitVec 32 := w.extractLsb' 32 32

def load64 (m : Memory) (a : BitVec 64) : BitVec 64 := load32 m (a + 4#64) ++ load32 m a

def store64 (m : Memory) (a : BitVec 64) (w : BitVec 64) : Memory :=
  store32 (store32 m a (lo w)) (a + 4#64) (hi w)

theorem hi_append_lo (w : BitVec 64) : (hi w ++ lo w : BitVec 64) = w := by
  rw [hi, lo, BitVec.extractLsb'_append_extractLsb'_eq_extractLsb' (by rfl)]
  exact BitVec.extractLsb'_eq_self

theorem lo_append (u l : BitVec 32) : lo (u ++ l) = l := by
  rw [lo, BitVec.extractLsb'_append_eq_of_add_le (by decide)]
  exact BitVec.extractLsb'_eq_self

theorem hi_append (u l : BitVec 32) : hi (u ++ l) = u := by
  rw [hi, BitVec.extractLsb'_append_eq_of_le (by decide)]
  exact BitVec.extractLsb'_eq_self

theorem load32_store32 (m : Memory) (a : BitVec 64) (v : BitVec 32) :
    load32 (store32 m a v) a = v := by
  have h1 : a + 1#64 ≠ a := by bv_omega
  have h2 : a + 2#64 ≠ a := by bv_omega
  have h3 : a + 3#64 ≠ a := by bv_omega
  have h21 : a + 2#64 ≠ a + 1#64 := by bv_omega
  have h31 : a + 3#64 ≠ a + 1#64 := by bv_omega
  have h32 : a + 3#64 ≠ a + 2#64 := by bv_omega
  simp only [load32, store32, if_pos, if_neg h1, if_neg h2, if_neg h3, if_neg h21, if_neg h31,
    if_neg h32]
  rw [BitVec.extractLsb'_append_extractLsb'_eq_extractLsb' (by rfl),
    BitVec.extractLsb'_append_extractLsb'_eq_extractLsb' (by rfl),
    BitVec.extractLsb'_append_extractLsb'_eq_extractLsb' (by rfl)]
  exact BitVec.extractLsb'_eq_self

/-- A store does not reach dwords at a distance of four bytes or more, seen
around the end of memory in both directions. -/
theorem load32_store32_apart (m : Memory) {a b : BitVec 64} (v : BitVec 32)
    (h : 4 ≤ (b - a).toNat) (h' : (b - a).toNat ≤ 2 ^ 64 - 4) :
    load32 (store32 m a v) b = load32 m b := by
  have hbyte : ∀ k : BitVec 64, k.toNat < 4 → store32 m a v (b + k) = m (b + k) := by
    intro k hk
    have h0 : b + k ≠ a := by bv_omega
    have h1 : b + k ≠ a + 1#64 := by bv_omega
    have h2 : b + k ≠ a + 2#64 := by bv_omega
    have h3 : b + k ≠ a + 3#64 := by bv_omega
    simp only [store32, if_neg h0, if_neg h1, if_neg h2, if_neg h3]
  have h0 := hbyte 0#64 (by decide)
  rw [BitVec.add_zero] at h0
  simp only [load32, h0, hbyte 1#64 (by decide), hbyte 2#64 (by decide), hbyte 3#64 (by decide)]

/-- The bytes `b 0, …, b (n - 1)` stored one after the other, upwards. -/
def storeBytes (m : Memory) (a : BitVec 64) (b : Nat → BitVec 8) : Nat → Memory
  | 0 => m
  | n + 1 => Function.update (storeBytes m a b n) (a + BitVec.ofNat 64 n) (b n)

/-- What memory holds after a run of byte stores that does not overlap itself. -/
theorem storeBytes_apply (m : Memory) (a : BitVec 64) (b : Nat → BitVec 8) {n : Nat}
    (hn : n ≤ 2 ^ 64) (x : BitVec 64) :
    storeBytes m a b n x = if (x - a).toNat < n then b (x - a).toNat else m x := by
  induction n with
  | zero => rfl
  | succ n ih =>
      by_cases hx : x = a + BitVec.ofNat 64 n
      · have hdist : (x - a).toNat = n := by
          subst hx
          bv_omega
        rw [storeBytes, hx, Function.update_self, ← hx, hdist, if_pos (Nat.lt_succ_self n)]
      · have hdist : (x - a).toNat ≠ n := by
          intro h
          apply hx
          rw [← h]
          bv_omega
        rw [storeBytes, Function.update_of_ne hx, ih (by omega)]
        exact if_congr (by omega) rfl rfl

/-- The dwords of a list of words, low halves first. -/
def dwords : List (BitVec 64) → List (BitVec 32)
  | [] => []
  | w :: ws => lo w :: hi w :: dwords ws

@[simp] theorem length_dwords (ws : List (BitVec 64)) : (dwords ws).length = 2 * ws.length := by
  induction ws with
  | nil => rfl
  | cons w ws ih =>
      simp only [dwords, List.length_cons, ih]
      omega

theorem dwords_append (ws ws' : List (BitVec 64)) :
    dwords (ws ++ ws') = dwords ws ++ dwords ws' := by
  induction ws with
  | nil => rfl
  | cons w ws ih => simp [dwords, ih]

/-- An even number of dwords are words. -/
theorem exists_dwords {n : Nat} {ds : List (BitVec 32)} (h : ds.length = 2 * n) :
    ∃ ws, ws.length = n ∧ dwords ws = ds := by
  induction n generalizing ds with
  | zero => exact ⟨[], rfl, (List.length_eq_zero_iff.mp h).symm⟩
  | succ n ih =>
      match ds, h with
      | l :: u :: ds, h =>
          obtain ⟨ws, hlen, rfl⟩ := ih (show ds.length = 2 * n by simp at h; omega)
          refine ⟨(u ++ l) :: ws, by simp [hlen], ?_⟩
          rw [dwords, lo_append, hi_append]

theorem getElem?_dwords {ws : List (BitVec 64)} {i : Nat} {w : BitVec 64} (h : ws[i]? = some w) :
    (dwords ws)[2 * i]? = some (lo w) ∧ (dwords ws)[2 * i + 1]? = some (hi w) := by
  induction ws generalizing i with
  | nil => simp at h
  | cons w' ws ih =>
      cases i with
      | zero =>
          cases h
          exact ⟨rfl, rfl⟩
      | succ i => exact ih (by simpa using h)

theorem dwords_set (ws : List (BitVec 64)) (i : Nat) (w : BitVec 64) :
    ((dwords ws).set (2 * i) (lo w)).set (2 * i + 1) (hi w) = dwords (ws.set i w) := by
  induction ws generalizing i with
  | nil => rfl
  | cons w' ws ih =>
      cases i with
      | zero => rfl
      | succ i => simpa [dwords, Nat.mul_succ] using ih i

/-- Consecutive stores, upwards. -/
def storeDwords (m : Memory) (a : BitVec 64) : List (BitVec 32) → Memory
  | [] => m
  | v :: vs => storeDwords (store32 m a v) (a + 4#64) vs

/-- Memory that holds dwords, the first at the lowest address. -/
structure Stacked (m : Memory) (a : BitVec 64) (ds : List (BitVec 32)) : Prop where
  room : 4 * ds.length ≤ 2 ^ 64
  read : ∀ i d, ds[i]? = some d → load32 m (a + BitVec.ofNat 64 (4 * i)) = d

namespace Stacked

variable {m m' : Memory} {a b : BitVec 64} {ds xs ys : List (BitVec 32)}

theorem nil (m : Memory) (a : BitVec 64) : Stacked m a [] := ⟨by simp, by simp⟩

/-- Only the bytes of the list matter. -/
theorem congr (h : Stacked m a ds) (hm : ∀ x, (x - a).toNat < 4 * ds.length → m' x = m x) :
    Stacked m' a ds := by
  refine ⟨h.room, fun i d hd => ?_⟩
  have hi := (List.getElem?_eq_some_iff.mp hd).1
  have hroom := h.room
  have hbyte : ∀ k : BitVec 64, k.toNat < 4 →
      m' (a + BitVec.ofNat 64 (4 * i) + k) = m (a + BitVec.ofNat 64 (4 * i) + k) := by
    intro k hk
    apply hm
    have hdist : a + BitVec.ofNat 64 (4 * i) + k - a = BitVec.ofNat 64 (4 * i) + k := by bv_omega
    rw [hdist, BitVec.toNat_add, BitVec.toNat_ofNat]
    omega
  have h0 := hbyte 0#64 (by decide)
  rw [BitVec.add_zero] at h0
  rw [← h.read i d hd, load32, load32, h0, hbyte 1#64 (by decide), hbyte 2#64 (by decide),
    hbyte 3#64 (by decide)]

theorem left (h : Stacked m a (xs ++ ys)) : Stacked m a xs := by
  have hroom := h.room
  rw [List.length_append] at hroom
  refine ⟨by omega, fun i d hd => h.read i d ?_⟩
  rw [List.getElem?_append_left (List.getElem?_eq_some_iff.mp hd).1, hd]

theorem right (h : Stacked m a (xs ++ ys)) :
    Stacked m (a + BitVec.ofNat 64 (4 * xs.length)) ys := by
  have hroom := h.room
  rw [List.length_append] at hroom
  refine ⟨by omega, fun i d hd => ?_⟩
  rw [BitVec.add_assoc, ← BitVec.ofNat_add, ← Nat.mul_add]
  apply h.read
  rw [List.getElem?_append_right (Nat.le_add_right _ _), Nat.add_sub_cancel_left, hd]

/-- Reserve space: the list begins with what memory holds there. -/
theorem grow (h : Stacked m a ds) {n : Nat} (hroom : 4 * (n + ds.length) ≤ 2 ^ 64) :
    ∃ gap : List (BitVec 32), gap.length = n ∧
      Stacked m (a - BitVec.ofNat 64 (4 * n)) (gap ++ ds) := by
  refine ⟨List.ofFn fun i : Fin n =>
      load32 m (a - BitVec.ofNat 64 (4 * n) + BitVec.ofNat 64 (4 * i)), List.length_ofFn,
    by simpa using hroom, fun i d hd => ?_⟩
  rcases Nat.lt_or_ge i n with hi | hi
  · rw [List.getElem?_append_left (by simpa using hi)] at hd
    simp only [List.getElem?_ofFn, hi, dite_true, Option.some.injEq] at hd
    exact hd
  · rw [List.getElem?_append_right (by simpa using hi), List.length_ofFn] at hd
    have haddr : a - BitVec.ofNat 64 (4 * n) + BitVec.ofNat 64 (4 * i) =
        a + BitVec.ofNat 64 (4 * (i - n)) := by
      have hsplit : 4 * i = 4 * n + 4 * (i - n) := by omega
      rw [hsplit, BitVec.ofNat_add]
      bv_omega
    rw [haddr]
    exact h.read _ _ hd

theorem store (h : Stacked m a ds) {i : Nat} (hi : i < ds.length) (v : BitVec 32) :
    Stacked (store32 m (a + BitVec.ofNat 64 (4 * i)) v) a (ds.set i v) := by
  have hroom := h.room
  refine ⟨by simpa using hroom, fun j d hd => ?_⟩
  have hj := (List.getElem?_eq_some_iff.mp hd).1
  rw [List.length_set] at hj
  by_cases hij : i = j
  · subst hij
    rw [List.getElem?_set_self hi] at hd
    cases hd
    exact load32_store32 _ _ _
  · rw [List.getElem?_set_ne hij] at hd
    rw [load32_store32_apart _ _ _ _, h.read j d hd]
    · rw [BitVec.toNat_sub, BitVec.toNat_add, BitVec.toNat_add, BitVec.toNat_ofNat,
        BitVec.toNat_ofNat]
      omega
    · rw [BitVec.toNat_sub, BitVec.toNat_add, BitVec.toNat_add, BitVec.toNat_ofNat,
        BitVec.toNat_ofNat]
      omega

/-- Overwrite a run of dwords. -/
theorem storeDwords (xs vs : List (BitVec 32)) {old : List (BitVec 32)}
    (h : Stacked m a (xs ++ (old ++ ys))) (hlen : old.length = vs.length) :
    Stacked (storeDwords m (a + BitVec.ofNat 64 (4 * xs.length)) vs) a (xs ++ (vs ++ ys)) := by
  induction vs generalizing m xs old with
  | nil =>
      rw [List.length_eq_zero_iff.mp hlen] at h
      exact h
  | cons v vs ih =>
      cases old with
      | nil => cases hlen
      | cons o old =>
          have hset := h.store (i := xs.length) (by simp) v
          simp only [List.cons_append, List.set_append_right _ _ (Nat.le_refl _), Nat.sub_self,
            List.set_cons_zero] at hset
          rw [List.append_cons] at hset
          have hnext := ih (xs ++ [v]) hset (by simpa using hlen)
          simp only [List.length_append, List.length_singleton, Nat.mul_add, BitVec.ofNat_add,
            List.append_assoc, List.singleton_append, ← BitVec.add_assoc] at hnext
          exact hnext

/-- Read a word. -/
theorem loadWord (xs : List (BitVec 32)) {ws : List (BitVec 64)} {i : Nat} {w : BitVec 64}
    (h : Stacked m a (xs ++ (dwords ws ++ ys))) (hw : ws[i]? = some w)
    (hb : b = a + BitVec.ofNat 64 (4 * xs.length + 8 * i)) : load64 m b = w := by
  obtain ⟨hlo, hhi⟩ := getElem?_dwords hw
  have hi := (List.getElem?_eq_some_iff.mp hlo).1
  have hi' := (List.getElem?_eq_some_iff.mp hhi).1
  have hl := h.right.left.read _ _ hlo
  have hh := h.right.left.read _ _ hhi
  have hb' : b = a + BitVec.ofNat 64 (4 * xs.length) + BitVec.ofNat 64 (4 * (2 * i)) := by
    rw [hb, BitVec.add_assoc, ← BitVec.ofNat_add]
    congr 2
    omega
  have hb4 : b + 4#64 =
      a + BitVec.ofNat 64 (4 * xs.length) + BitVec.ofNat 64 (4 * (2 * i + 1)) := by
    rw [hb', BitVec.add_assoc, ← BitVec.ofNat_add]
    congr 2
  rw [load64, hb4, hh, hb', hl]
  exact hi_append_lo w

/-- Replace a word. -/
theorem storeWord (xs : List (BitVec 32)) {ws : List (BitVec 64)} {i : Nat}
    (h : Stacked m a (xs ++ (dwords ws ++ ys))) (hlt : i < ws.length)
    (hb : b = a + BitVec.ofNat 64 (4 * xs.length + 8 * i)) (w : BitVec 64) :
    Stacked (store64 m b w) a (xs ++ (dwords (ws.set i w) ++ ys)) := by
  have hlen : xs.length + (2 * i + 1) < (xs ++ (dwords ws ++ ys)).length := by
    simp only [List.length_append, length_dwords]
    omega
  have hset := (h.store (i := xs.length + 2 * i) (by omega) (lo w)).store
    (i := xs.length + (2 * i + 1)) (by simpa using hlen) (hi w)
  have hb' : b = a + BitVec.ofNat 64 (4 * (xs.length + 2 * i)) := by
    rw [hb]
    congr 2
    omega
  have hb4 : b + 4#64 = a + BitVec.ofNat 64 (4 * (xs.length + (2 * i + 1))) := by
    rw [hb', BitVec.add_assoc, ← BitVec.ofNat_add]
    congr 2
  rw [← hb', ← hb4, List.set_append_right _ _ (Nat.le_add_right _ _), Nat.add_sub_cancel_left,
    List.set_append_right _ _ (Nat.le_add_right _ _), Nat.add_sub_cancel_left,
    List.set_append_left _ _ (by simp; omega), List.set_append_left _ _ (by simp; omega),
    dwords_set] at hset
  exact hset

/-- Push a word. -/
theorem push (h : Stacked m a ds) (hroom : 4 * (2 + ds.length) ≤ 2 ^ 64) (w : BitVec 64) :
    Stacked (store64 m (a - 8#64) w) (a - 8#64) (dwords [w] ++ ds) := by
  obtain ⟨gap, hgap, hgrown⟩ := h.grow hroom
  have hold : 4 * ([] : List (BitVec 32)).length = 0 := rfl
  have hover := hgrown.storeDwords [] (dwords [w]) hgap
  rw [List.nil_append, hold, BitVec.add_zero] at hover
  exact hover

end Stacked

end Chestnut.Lib
