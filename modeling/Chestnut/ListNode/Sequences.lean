import Mathlib.Data.List.Nodup
import Mathlib.Data.Set.Insert
import Mathlib.Order.BooleanAlgebra.Set

/-!
# Sequences of nodes

What intrusive lists are for: every head owns a sequence of nodes, a node is
linked in beside another one, and a member is linked out. Nothing here
mentions a pointer.

## Implementation notes

That no node has two places is a part of `Sequences`, so a state with a node
in two lists does not exist, and an operation has an outcome only where its
result is again a `Sequences`.
-/

namespace Chestnut

/-- The sequences of a family of heads. No node has two places in them. -/
structure Sequences (ν : Type*) where
  heads : Set ν
  seq : ν → List ν
  nodup : ∀ hd ∈ heads, (hd :: seq hd).Nodup
  disjoint : ∀ hd ∈ heads, ∀ hd' ∈ heads, hd ≠ hd' →
    List.Disjoint (hd :: seq hd) (hd' :: seq hd')

/-- The methods of `ListNode` that write, with the nodes that they are called on. -/
inductive ListOp (ν : Type*)
  | initHead (this : ν)
  | insertAfter (this parent : ν)
  | insertBefore (this children : ν)
  | delete (this : ν)
  deriving DecidableEq, Repr

namespace ListOp

variable {ν : Type*}

/-- The node that the method is called on. -/
def this : ListOp ν → ν
  | .initHead x | .insertAfter x _ | .insertBefore x _ | .delete x => x

/-- What an operation makes of the sequence of the head `hd`. A list is
circular: right after the head is in front of all members, and right before
the head is behind them. -/
inductive Edits : ListOp ν → ν → List ν → List ν → Prop
  | afterHead (x hd : ν) (xs : List ν) : Edits (.insertAfter x hd) hd xs (x :: xs)
  | afterMember (x n hd : ν) (l t : List ν) :
      Edits (.insertAfter x n) hd (l ++ n :: t) (l ++ n :: x :: t)
  | beforeHead (x hd : ν) (xs : List ν) : Edits (.insertBefore x hd) hd xs (xs ++ [x])
  | beforeMember (x n hd : ν) (l t : List ν) :
      Edits (.insertBefore x n) hd (l ++ n :: t) (l ++ x :: n :: t)
  | delete (x hd : ν) (l t : List ν) : Edits (.delete x) hd (l ++ x :: t) (l ++ t)

namespace Edits

variable {op : ListOp ν} {x n hd : ν} {xs ys : List ν}

theorem parent_mem (e : Edits (.insertAfter x n) hd xs ys) : n ∈ hd :: xs := by
  cases e <;> simp

theorem children_mem (e : Edits (.insertBefore x n) hd xs ys) : n ∈ hd :: xs := by
  cases e <;> simp

theorem deleted_mem (e : Edits (.delete x) hd xs ys) : x ∈ xs := by
  cases e
  simp

end Edits

end ListOp

namespace Sequences

variable {ν : Type*} {S S' : Sequences ν} {op : ListOp ν} {ops : List (ListOp ν)} {x hd : ν}

def Member (S : Sequences ν) (x : ν) : Prop := ∃ hd ∈ S.heads, x ∈ S.seq hd

/-- In no list, neither as a head nor as a member. -/
def Loose (S : Sequences ν) (x : ν) : Prop := x ∉ S.heads ∧ ¬ S.Member x

/-- The calls that the lists are made for. -/
def Allowed (S : Sequences ν) : ListOp ν → Prop
  | .initHead x => S.Loose x
  | .insertAfter x n | .insertBefore x n => S.Loose x ∧ (n ∈ S.heads ∨ S.Member n)
  | .delete x => S.Member x

/-- One operation on the sequences: an edit of one of them, or a new one that is empty. -/
inductive Step (S : Sequences ν) : ListOp ν → Sequences ν → Prop
  | initHead {x : ν} {S' : Sequences ν} (ha : S.Allowed (.initHead x))
      (heads : S'.heads = insert x S.heads) (new : S'.seq x = [])
      (others : ∀ hd ∈ S.heads, S'.seq hd = S.seq hd) : Step S (.initHead x) S'
  | edit {op : ListOp ν} {hd : ν} {S' : Sequences ν} (ha : S.Allowed op)
      (heads : S'.heads = S.heads) (hhd : hd ∈ S.heads)
      (edits : op.Edits hd (S.seq hd) (S'.seq hd))
      (others : ∀ hd' ∈ S.heads, hd' ≠ hd → S'.seq hd' = S.seq hd') : Step S op S'

/-- One operation after the other. -/
inductive Runs : Sequences ν → List (ListOp ν) → Sequences ν → Prop
  | nil (S : Sequences ν) : Runs S [] S
  | cons {S S₁ S' : Sequences ν} {op : ListOp ν} {ops : List (ListOp ν)} (hs : S.Step op S₁)
      (tail : Runs S₁ ops S') : Runs S (op :: ops) S'

/-- No list yet. -/
def start : Sequences ν where
  heads := ∅
  seq _ := []
  nodup _ hh := absurd hh (Set.notMem_empty _)
  disjoint _ hh := absurd hh (Set.notMem_empty _)

/-- An allowed call that links a node in or out edits the sequence of one head. -/
theorem Allowed.exists_edits (ha : S.Allowed op) (hop : ∀ x, op ≠ .initHead x) :
    ∃ hd ∈ S.heads, ∃ ys, op.Edits hd (S.seq hd) ys := by
  cases op with
  | initHead x => exact absurd rfl (hop x)
  | insertAfter x n =>
      rcases ha.2 with hh | ⟨hd, hh, hn⟩
      · exact ⟨n, hh, _, .afterHead x n _⟩
      · obtain ⟨l, t, hs⟩ := List.append_of_mem hn
        refine ⟨hd, hh, l ++ n :: x :: t, ?_⟩
        rw [hs]
        exact .afterMember x n hd l t
  | insertBefore x n =>
      rcases ha.2 with hh | ⟨hd, hh, hn⟩
      · exact ⟨n, hh, _, .beforeHead x n _⟩
      · obtain ⟨l, t, hs⟩ := List.append_of_mem hn
        refine ⟨hd, hh, l ++ x :: n :: t, ?_⟩
        rw [hs]
        exact .beforeMember x n hd l t
  | delete x =>
      obtain ⟨hd, hh, hx⟩ := ha
      obtain ⟨l, t, hs⟩ := List.append_of_mem hx
      refine ⟨hd, hh, l ++ t, ?_⟩
      rw [hs]
      exact .delete x hd l t

end Sequences

end Chestnut
