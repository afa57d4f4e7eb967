import Chestnut.Base
import Mathlib.Data.BitVec
import Mathlib.Data.Nat.Bitwise
import Mathlib.Tactic.NormNum

/-!
# The processor's walk

The four-level walk of x86-64 through the tables that `cr3` points to. Where an
address leads depends on the entries of the tables only as far as they are
present, and not on the bit that allows writes.

## Implementation notes

The translation is that of the tables as they are in memory; translations that
the processor has kept from earlier are not modelled. `boot.asm` leaves bit 16 of
`cr0` clear, so the kernel may write where an entry does not allow it.
-/

namespace Chestnut

/-- A 64-bit entry of a table, `CommonBaseEntry::entry`. -/
abbrev Entry := BitVec 64

/-- What a walk yields: the physical address, whether every level allows
writes, and the write-through bit of the leaf. -/
structure Translation where
  paddr : Nat
  writable : Bool
  writeThrough : Bool
  deriving DecidableEq, Repr

namespace Paging

/-- The frame an entry of level `l` points to: bits 51 down to `12 + 9 l`. -/
def frame (l : Nat) (e : Entry) : Nat :=
  e.toNat / 2 ^ (12 + 9 * l) % 2 ^ (40 - 9 * l) * 2 ^ (12 + 9 * l)

/-- The nine bits of an address that select an entry of a table of level `l`. -/
def slotOf (l va : Nat) : Nat := va / 2 ^ (12 + 9 * l) % 512

def leafAt (l va : Nat) (e : Entry) : Translation :=
  ⟨frame l e + va % 2 ^ (12 + 9 * l), e.getLsbD 1, e.getLsbD 3⟩

/-- The walk from an entry of level `l`: bit 0 is present, bit 1 writable,
bit 7 ends the walk at levels 1 and 2. -/
def walkFrom (mem : Nat → Entry) (va : Nat) : Nat → Entry → Option Translation
  | 0, e => if e.getLsbD 0 then some (leafAt 0 va e) else none
  | l + 1, e =>
      if !e.getLsbD 0 then none
      else if e.getLsbD 7 && decide (l < 2) then some (leafAt (l + 1) va e)
      else
        (walkFrom mem va l (mem (frame 0 e + 8 * slotOf l va))).map fun t =>
          { t with writable := t.writable && e.getLsbD 1 }

/-- The walk of a canonical address through the table in `cr3`. -/
def walk (mem : Nat → Entry) (cr3 : Entry) (va : Nat) : Option Translation :=
  if va < 2 ^ 47 ∨ 2 ^ 64 - 2 ^ 47 ≤ va ∧ va < 2 ^ 64 then
    walkFrom mem va 3 (mem (frame 0 cr3 + 8 * slotOf 3 va))
  else none

/-- Both entries are not present, or they differ in the bit that allows writes at most. -/
structure SameWay (e e' : Entry) : Prop where
  present : e.getLsbD 0 = e'.getLsbD 0
  bits : e.getLsbD 0 = true → ∀ i, i ≠ 1 → e.getLsbD i = e'.getLsbD i

theorem SameWay.refl (e : Entry) : SameWay e e := ⟨rfl, fun _ _ _ => rfl⟩

/-- Two entries that are not present. -/
theorem SameWay.of_absent {e e' : Entry} (h : e.getLsbD 0 = false) (h' : e'.getLsbD 0 = false) :
    SameWay e e' :=
  ⟨h.trans h'.symm, fun hp => absurd (hp.symm.trans h) (by decide)⟩

theorem frame_congr {e e' : Entry} (h : ∀ i, i ≠ 1 → e.getLsbD i = e'.getLsbD i) (l : Nat) :
    frame l e = frame l e' := by
  have hdiv : e.toNat / 2 ^ (12 + 9 * l) = e'.toNat / 2 ^ (12 + 9 * l) := by
    apply Nat.eq_of_testBit_eq
    intro i
    rw [Nat.testBit_div_two_pow, Nat.testBit_div_two_pow]
    exact h _ (by omega)
  rw [frame, frame, hdiv]

section Congr

variable {mem mem' : Nat → Entry} (hmem : ∀ a, SameWay (mem a) (mem' a))

include hmem

/-- Entries that lead the same way lead to the same place. -/
theorem walkFrom_congr (va l : Nat) {e e' : Entry} (he : SameWay e e') :
    (walkFrom mem va l e).map Translation.paddr =
      (walkFrom mem' va l e').map Translation.paddr := by
  induction l generalizing e e' with
  | zero =>
      rw [walkFrom, walkFrom, ← he.present]
      by_cases hp : e.getLsbD 0 = true
      · rw [if_pos hp, if_pos hp]
        simp only [Option.map_some, leafAt, frame_congr (he.bits hp)]
      · rw [if_neg hp, if_neg hp]
  | succ l ih =>
      rw [walkFrom, walkFrom, ← he.present]
      by_cases hp : e.getLsbD 0 = true
      · rw [← he.bits hp 7 (by decide), ← frame_congr (he.bits hp) 0]
        simp only [hp, Bool.not_true, Bool.false_eq_true, if_false]
        split
        · simp only [Option.map_some, leafAt, frame_congr (he.bits hp)]
        · rw [Option.map_map, Option.map_map]
          exact ih (hmem _)
      · rw [Bool.not_eq_true] at hp
        simp only [hp, Bool.not_false, if_true, Option.map_none]

theorem walk_congr (cr3 : Entry) (va : Nat) :
    (walk mem cr3 va).map Translation.paddr = (walk mem' cr3 va).map Translation.paddr := by
  rw [walk, walk]
  split
  · exact walkFrom_congr hmem va 3 (hmem _)
  · rfl

end Congr

end Paging

end Chestnut
