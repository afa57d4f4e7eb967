import Mathlib.Algebra.Order.Ring.Nat
import Mathlib.Tactic.Common

/-!
# Radix trees by level and index

A tree whose nodes of one level are numbered: with fan-out `b`, the node `x`
of level `l` covers the keys `y` with `y / b ^ l = x`, and its parent is the
node `x / b` of level `l + 1`. A node is empty, a table of `b` children, or a
leaf that carries a value for all the keys it covers.
-/

namespace Chestnut.Lib

/-- One node of a radix tree. -/
inductive Node (τ ν : Type)
  | empty
  | table (t : τ)
  | leaf (v : ν)

namespace Node

variable {τ ν : Type} {n : Node τ ν}

theorem ne_empty_of_table {t : τ} (h : n = .table t) : n ≠ .empty := by
  simp [h]

theorem ne_empty_of_leaf {v : ν} (h : n = .leaf v) : n ≠ .empty := by
  simp [h]

theorem ne_table_of_empty (h : n = .empty) (t : τ) : n ≠ .table t := by
  simp [h]

theorem ne_table_of_leaf {v : ν} (h : n = .leaf v) (t : τ) : n ≠ .table t := by
  simp [h]

end Node

/-- The nodes of a tree, by level and index. -/
abbrev Radix (τ ν : Type) : Type := Nat → Nat → Node τ ν

namespace Radix

variable {τ ν : Type} {b top l l' x x' y : Nat} {T : Radix τ ν} {v w : ν}

/-- Replace one node. -/
def set (T : Radix τ ν) (l x : Nat) (n : Node τ ν) : Radix τ ν := fun l' x' =>
  if l' = l ∧ x' = x then n else T l' x'

@[simp] theorem set_self (n : Node τ ν) : T.set l x n l x = n := by
  simp [set]

theorem set_of_ne (n : Node τ ν) (h : ¬ (l' = l ∧ x' = x)) : T.set l x n l' x' = T l' x' :=
  if_neg h

/-- A table of the changed tree is the new node or an old table. -/
theorem table_of_set {n : Node τ ν} {t : τ} (h : T.set l x n l' x' = .table t) :
    (l' = l ∧ x' = x ∧ n = .table t) ∨ T l' x' = .table t := by
  by_cases hc : l' = l ∧ x' = x
  · obtain ⟨rfl, rfl⟩ := hc
    rw [set_self] at h
    exact Or.inl ⟨rfl, rfl, h⟩
  · rw [set_of_ne n hc] at h
    exact Or.inr h

/-- The key `y` lies under a leaf that carries `v`. -/
def Mapped (b : Nat) (T : Radix τ ν) (y : Nat) (v : ν) : Prop := ∃ l, T l (y / b ^ l) = .leaf v

/-- The descent from a node of level `l` to the leaf over the key `y`. -/
def find (b : Nat) (T : Radix τ ν) (y : Nat) : Nat → Option ν
  | 0 =>
      match T 0 (y / b ^ 0) with
      | .leaf v => some v
      | _ => none
  | l + 1 =>
      match T (l + 1) (y / b ^ (l + 1)) with
      | .leaf v => some v
      | .table _ => find b T y l
      | .empty => none

/-- The number of tables that are missing on the way from a node of level `l`
down to the key `y`. -/
def missing (b : Nat) (T : Radix τ ν) (y : Nat) : Nat → Nat
  | 0 => 0
  | l + 1 =>
      match T (l + 1) (y / b ^ (l + 1)) with
      | .empty => l + 1
      | .table _ => missing b T y l
      | .leaf _ => 0

/-- Below the root, a node stands in a table of the next level. -/
structure Rooted (b top : Nat) (T : Radix τ ν) : Prop where
  level : ∀ {l x}, T l x ≠ .empty → l ≤ top
  parent : ∀ {l x}, T l x ≠ .empty → l < top → ∃ t, T (l + 1) (x / b) = .table t

/-- Every table covers a key with the property `P`. -/
def Inhabited (b : Nat) (T : Radix τ ν) (P : Nat → Prop) : Prop :=
  ∀ l x t, T l x = .table t → ∃ y, y / b ^ l = x ∧ P y

theorem div_pow_succ (y b l : Nat) : y / b ^ (l + 1) = y / b ^ l / b := by
  rw [Nat.div_div_eq_div_mul, pow_succ]

/-- Filling an empty node maps the keys under the new leaf, and no others. -/
theorem mapped_set (n : Node τ ν) (h : T l x = .empty) :
    Mapped b (T.set l x n) y w ↔ Mapped b T y w ∨ y / b ^ l = x ∧ n = .leaf w := by
  constructor
  · rintro ⟨k, hk⟩
    by_cases he : k = l ∧ y / b ^ k = x
    · obtain ⟨rfl, hx⟩ := he
      rw [hx, set_self] at hk
      exact Or.inr ⟨hx, hk⟩
    · rw [set_of_ne n he] at hk
      exact Or.inl ⟨k, hk⟩
  · rintro (⟨k, hk⟩ | ⟨hx, rfl⟩)
    · refine ⟨k, ?_⟩
      rw [set_of_ne n, hk]
      rintro ⟨rfl, hx⟩
      rw [hx, h] at hk
      cases hk
    · refine ⟨l, ?_⟩
      rw [hx, set_self]

/-- A table in an empty place leaves the leaves as they are. -/
theorem set_table_eq_leaf_iff (t : τ) (h : T l x = .empty) :
    T.set l x (.table t) l' x' = .leaf v ↔ T l' x' = .leaf v := by
  by_cases he : l' = l ∧ x' = x
  · obtain ⟨rfl, rfl⟩ := he
    rw [set_self, h]
    simp
  · rw [set_of_ne _ he]

namespace Inhabited

variable {P Q : Nat → Prop}

theorem mono (I : Inhabited b T P) (h : ∀ y, P y → Q y) : Inhabited b T Q := by
  intro l x t ht
  obtain ⟨y, hy, hp⟩ := I l x t ht
  exact ⟨y, hy, h y hp⟩

theorem set (I : Inhabited b T P) (n : Node τ ν) (hy : P y) :
    Inhabited b (T.set l (y / b ^ l) n) P := by
  intro k x t ht
  by_cases he : k = l ∧ x = y / b ^ l
  · obtain ⟨rfl, rfl⟩ := he
    exact ⟨y, rfl, hy⟩
  · rw [set_of_ne n he] at ht
    exact I k x t ht

/-- A node that covers no mapped key is empty. -/
theorem empty_of_unmapped (I : Inhabited b T fun y => ∃ v, Mapped b T y v)
    (h : ∀ y' v, y' / b ^ l = y / b ^ l → ¬ Mapped b T y' v) : T l (y / b ^ l) = .empty := by
  cases hn : T l (y / b ^ l) with
  | empty => rfl
  | table t =>
      obtain ⟨y', hy', v, hv⟩ := I _ _ _ hn
      exact absurd hv (h y' v hy')
  | leaf v => exact absurd ⟨l, hn⟩ (h y v rfl)

end Inhabited

namespace Rooted

/-- Changing a node that is no table keeps the tree rooted if its parent is one. -/
theorem set (R : Rooted b top T) (n : Node τ ν) (h : ∀ t, T l x ≠ .table t) (hl : l ≤ top)
    (hp : l < top → ∃ t, T (l + 1) (x / b) = .table t) : Rooted b top (T.set l x n) := by
  constructor
  · intro l' x' hne
    by_cases he : l' = l ∧ x' = x
    · omega
    · rw [set_of_ne n he] at hne
      exact R.level hne
  · intro l' x' hne hlt
    have hpar : ∃ t, T (l' + 1) (x' / b) = .table t := by
      by_cases he : l' = l ∧ x' = x
      · obtain ⟨rfl, rfl⟩ := he
        exact hp hlt
      · rw [set_of_ne n he] at hne
        exact R.parent hne hlt
    obtain ⟨t, ht⟩ := hpar
    refine ⟨t, ?_⟩
    rw [set_of_ne n, ht]
    rintro ⟨rfl, hx⟩
    rw [hx] at ht
    exact h t ht

/-- The children of a node that is no table are empty. -/
theorem child_empty (R : Rooted b top T) (hl : l < top)
    (h : ∀ t, T (l + 1) (x / b) ≠ .table t) : T l x = .empty := by
  by_contra hne
  obtain ⟨t, ht⟩ := R.parent hne hl
  exact h t ht

/-- Every node above a nonempty one is a table. -/
theorem ancestor (R : Rooted b top T) (h : T l (y / b ^ l) ≠ .empty) {k : Nat} (hlt : l < k)
    (hk : k ≤ top) : ∃ t, T k (y / b ^ k) = .table t := by
  induction k, hlt using Nat.le_induction with
  | base =>
      obtain ⟨t, ht⟩ := R.parent h (by omega)
      rw [← div_pow_succ] at ht
      exact ⟨t, ht⟩
  | succ k _ ih =>
      obtain ⟨t, ht⟩ := ih (by omega)
      obtain ⟨t', ht'⟩ := R.parent (Node.ne_empty_of_table ht) (by omega)
      rw [← div_pow_succ] at ht'
      exact ⟨t', ht'⟩

end Rooted

theorem missing_congr {T' : Radix τ ν} (h : ∀ k ≤ l, T' k (y / b ^ k) = T k (y / b ^ k)) :
    T'.missing b y l = T.missing b y l := by
  induction l with
  | zero => rfl
  | succ l ih => rw [missing, missing, h (l + 1) (Nat.le_refl _), ih fun k hk => h k (by omega)]

/-- Below an empty node every table is missing. -/
theorem missing_of_empty (h : T l (y / b ^ l) = .empty) : T.missing b y l = l := by
  cases l with
  | zero => rfl
  | succ l => rw [missing, h]

theorem find_of_leaf (h : T l (y / b ^ l) = .leaf v) : T.find b y l = some v := by
  cases l with
  | zero => simp only [find, h]
  | succ l => simp only [find, h]

theorem mapped_of_find (h : T.find b y l = some v) : Mapped b T y v := by
  induction l with
  | zero =>
      simp only [find] at h
      split at h
      · next w hw =>
          cases h
          exact ⟨0, hw⟩
      · cases h
  | succ l ih =>
      simp only [find] at h
      split at h
      · next w hw =>
          cases h
          exact ⟨l + 1, hw⟩
      · exact ih h
      · cases h

/-- In a rooted tree the descent from the top finds every leaf. -/
theorem Rooted.find_eq_some_iff (R : Rooted b top T) :
    T.find b y top = some v ↔ Mapped b T y v := by
  refine ⟨mapped_of_find, ?_⟩
  rintro ⟨l, hl⟩
  have hne := Node.ne_empty_of_leaf hl
  -- the descent reaches the leaf from every level above it
  have hfrom : ∀ k, l + k ≤ top → T.find b y (l + k) = some v := by
    intro k hk
    induction k with
    | zero => exact find_of_leaf hl
    | succ k ih =>
        obtain ⟨t, ht⟩ := R.ancestor hne (k := l + k + 1) (by omega) hk
        rw [← Nat.add_assoc, find, ht]
        exact ih (by omega)
  have htop := R.level hne
  have h := hfrom (top - l) (by omega)
  rwa [Nat.add_sub_cancel' htop] at h

end Radix

end Chestnut.Lib
