import Chestnut.ListNode.Model
import Chestnut.ListNode.Sequences

/-!
# List nodes refine sequences

`Lists` says that the pointers of a heap run along the sequences. The methods
of `ListNode` keep this, call by call and over whole runs, and write no node
outside the list that they edit and the node that they are called on.

## Implementation notes

The neighbours of a node may be one node or the head. The edits of rings
split the circular list where it is written and need no case for that, so
none appears here either; what is left to the calls is which sequence they
edit.
-/

namespace Chestnut

open Lib

/-- The method on the heap. -/
def ListOp.exec {ν : Type*} [DecidableEq ν] (h : NodeHeap ν) : ListOp ν → NodeHeap ν
  | .initHead this => ListNode.initHead h this
  | .insertAfter this parent => ListNode.insertAfter h this parent
  | .insertBefore this children => ListNode.insertBefore h this children
  | .delete this => ListNode.delete h this

namespace Sequences

variable {ν : Type*}

theorem loose_iff {S : Sequences ν} {x : ν} : S.Loose x ↔ Lib.Loose S.heads S.seq x := by
  constructor
  · rintro ⟨hh, hm⟩ hd hhd hx
    rcases List.mem_cons.mp hx with rfl | hx
    · exact hh hhd
    · exact hm ⟨hd, hhd, hx⟩
  · intro hl
    refine ⟨fun hh => hl x hh List.mem_cons_self, ?_⟩
    rintro ⟨hd, hhd, hx⟩
    exact hl hd hhd (List.mem_cons_of_mem _ hx)

/-- The sequences of a family of rings. -/
def ofRings {h : Links ν} {heads : Set ν} {seq : ν → List ν} (R : Rings h heads seq) :
    Sequences ν where
  heads := heads
  seq := seq
  nodup hd hh := (R.ring hd hh).nodup
  disjoint := R.disjoint

end Sequences

namespace ListNode

section Lists

variable {ν : Type*} {h : NodeHeap ν} {S S' : Sequences ν}

/-- Every head of `S` owns a well-formed circular list of its sequence: the
forward pointers lead from the head through the members and back to it, and
every backward pointer undoes the forward one. -/
def Lists (h : NodeHeap ν) (S : Sequences ν) : Prop :=
  ∀ hd ∈ S.heads, (hd :: S.seq hd ++ [hd]).IsChain fun a b => (h a).next = b ∧ (h b).prev = a

theorem Lists.rings (L : Lists h S) : Rings (links h) S.heads S.seq :=
  ⟨fun hd hh => ⟨S.nodup hd hh, L hd hh⟩, S.disjoint⟩

theorem lists_of_rings {heads : Set ν} {seq : ν → List ν} (R : Rings (links h) heads seq)
    (hheads : S.heads = heads) (hseq : ∀ hd ∈ heads, S.seq hd = seq hd) : Lists h S := by
  intro hd hh
  rw [hheads] at hh
  rw [hseq hd hh]
  exact (R.ring hd hh).chain

/-- The invariant that the slab and scheduler models keep of their link tables is that of a
heap of lists. -/
theorem rings_iff_lists {l : Links ν} {heads : Set ν} {seq : ν → List ν} :
    Rings l heads seq ↔
      ∃ S : Sequences ν, S.heads = heads ∧ S.seq = seq ∧ Lists (ofLinks l) S := by
  constructor
  · intro R
    have R' : Rings (links (ofLinks l)) heads seq := by rwa [links_ofLinks]
    exact ⟨.ofRings R, rfl, rfl, lists_of_rings R' rfl fun _ _ => rfl⟩
  · rintro ⟨S, rfl, rfl, L⟩
    exact L.rings

/-- The heap determines the sequences of its heads. -/
theorem Lists.unique (L : Lists h S) (L' : Lists h S') (hheads : S'.heads = S.heads) :
    ∀ hd ∈ S.heads, S'.seq hd = S.seq hd := by
  intro hd hh
  exact (L'.rings.ring hd (hheads ▸ hh)).unique (L.rings.ring hd hh)

end Lists

variable {ν : Type*} [DecidableEq ν] {h : NodeHeap ν} {S S' : Sequences ν}
variable {op : ListOp ν} {ops : List (ListOp ν)} {hd : ν}

/-- `is_empty` of a head tells whether its sequence is empty. -/
theorem Lists.isEmpty_iff (L : Lists h S) (hh : hd ∈ S.heads) :
    isEmpty h hd = true ↔ S.seq hd = [] := by
  rw [← (L.rings.ring hd hh).next_eq_head_iff]
  exact beq_iff_eq

/-- The rings after an edit of one sequence. -/
theorem Lists.rings_of_edits {ys : List ν} (L : Lists h S) (ha : S.Allowed op)
    (hh : hd ∈ S.heads) (e : op.Edits hd (S.seq hd) ys) :
    Rings (links (op.exec h)) S.heads (Function.update S.seq hd ys) := by
  have R := L.rings
  generalize hxs : S.seq hd = xs at e
  cases e with
  | afterHead x =>
      rw [ListOp.exec, links_insertAfter, ← hxs]
      exact R.push hh (Sequences.loose_iff.mp ha.1)
  | afterMember x n _ l t =>
      rw [ListOp.exec, links_insertAfter]
      have hs : hd :: S.seq hd = (hd :: l) ++ n :: t := by rw [hxs, List.cons_append]
      exact R.insertAfter hh (Sequences.loose_iff.mp ha.1) hs rfl
  | beforeHead x =>
      rw [ListOp.exec, links_insertBefore, ← hxs]
      exact R.append hh (Sequences.loose_iff.mp ha.1)
  | beforeMember x n _ l t =>
      rw [ListOp.exec, links_insertBefore]
      have hs : S.seq hd ++ [hd] = l ++ n :: (t ++ [hd]) := by
        rw [hxs, List.append_assoc, List.cons_append]
      exact R.insertBefore hh (Sequences.loose_iff.mp ha.1) hs (List.append_assoc ..)
  | delete x _ l t =>
      rw [ListOp.exec, links_delete]
      exact R.delete hh hxs

/-- One call on the heap is one operation on the sequences. -/
theorem Lists.step (L : Lists h S) (s : S.Step op S') : Lists (op.exec h) S' := by
  cases s with
  | @initHead x _ ha heads new others =>
      have R := L.rings.initHead (Sequences.loose_iff.mp ha)
      rw [← links_initHead] at R
      refine lists_of_rings R heads ?_
      rintro hd (rfl | hh)
      · rw [new, Function.update_self]
      · have hne : hd ≠ x := fun e => ha.1 (e ▸ hh)
        rw [others hd hh, Function.update_of_ne hne]
  | @edit _ hd _ ha heads hh edits others =>
      refine lists_of_rings (L.rings_of_edits ha hh edits) heads fun hd' hh' => ?_
      by_cases he : hd' = hd
      · subst he
        rw [Function.update_self]
      · rw [others hd' hh' he, Function.update_of_ne he]

/-- Whatever calls are made, one after the other. -/
theorem Lists.run (L : Lists h S) (r : S.Runs ops S') : Lists (ops.foldl ListOp.exec h) S' := by
  induction r generalizing h with
  | nil => exact L
  | cons hs _ ih => exact ih (L.step hs)

/-- From a memory with arbitrary pointers, where no list has been made yet. -/
theorem lists_of_runs (h : NodeHeap ν) (r : Sequences.start.Runs ops S) :
    Lists (ops.foldl ListOp.exec h) S := by
  have L : Lists h Sequences.start := fun hd hh => absurd hh (Set.notMem_empty hd)
  exact L.run r

/-- Every allowed call has an outcome on the sequences, and the heap has it. -/
theorem Lists.exists_step (L : Lists h S) (ha : S.Allowed op) :
    ∃ S', S.Step op S' ∧ Lists (op.exec h) S' := by
  have hstep : ∃ S', S.Step op S' := by
    by_cases hop : ∃ x, op = .initHead x
    · obtain ⟨x, rfl⟩ := hop
      have R := L.rings.initHead (Sequences.loose_iff.mp ha)
      refine ⟨.ofRings R, .initHead ha rfl (Function.update_self ..) fun hd hh => ?_⟩
      have hne : hd ≠ x := fun e => ha.1 (e ▸ hh)
      exact Function.update_of_ne hne ..
    · obtain ⟨hd, hh, ys, e⟩ := ha.exists_edits fun x hx => hop ⟨x, hx⟩
      refine ⟨.ofRings (L.rings_of_edits ha hh e), .edit ha rfl hh ?_ ?_⟩
      · show op.Edits hd (S.seq hd) (Function.update S.seq hd ys hd)
        rw [Function.update_self]
        exact e
      · exact fun hd' _ hne => Function.update_of_ne hne ..
  obtain ⟨S', s⟩ := hstep
  exact ⟨S', s, L.step s⟩

/-- The outcome is determined, because the heap is. -/
theorem Lists.step_unique {S₁ S₂ : Sequences ν} (L : Lists h S) (s₁ : S.Step op S₁)
    (s₂ : S.Step op S₂) :
    S₂.heads = S₁.heads ∧ ∀ hd ∈ S₁.heads, S₂.seq hd = S₁.seq hd := by
  have hheads : S₂.heads = S₁.heads := by
    cases s₁ with
    | initHead _ heads₁ =>
        cases s₂ with
        | initHead _ heads₂ => rw [heads₁, heads₂]
        | edit _ _ _ edits => cases edits
    | edit _ heads₁ _ edits =>
        cases s₂ with
        | initHead => cases edits
        | edit _ heads₂ => rw [heads₁, heads₂]
  exact ⟨hheads, (L.step s₁).unique (L.step s₂) hheads⟩

/-- A call touches the list that it edits and the node that it is made on; the
other lists and all loose nodes keep their pointers. -/
theorem Lists.exec_of_not_mem {a : ν} {ys : List ν} (L : Lists h S) (ha : S.Allowed op)
    (hh : hd ∈ S.heads) (e : op.Edits hd (S.seq hd) ys) (hthis : a ≠ op.this)
    (hout : a ∉ hd :: S.seq hd) : op.exec h a = h a := by
  have r := L.rings.ring hd hh
  have hne : ∀ {b : ν}, b ∈ hd :: S.seq hd → a ≠ b := fun hb he => hout (he ▸ hb)
  cases op with
  | initHead x => cases e
  | insertAfter x n =>
      have hn := e.parent_mem
      have hxn : x ≠ n := fun he => Sequences.loose_iff.mp ha.1 hd hh (he ▸ hn)
      exact insertAfter_of_ne hxn hthis (hne hn) (hne (r.next_mem hn))
  | insertBefore x n =>
      have hn := e.children_mem
      have hxn : x ≠ n := fun he => Sequences.loose_iff.mp ha.1 hd hh (he ▸ hn)
      exact insertBefore_of_ne hxn hthis (hne hn) (hne (r.prev_mem hn))
  | delete x =>
      have hx := e.deleted_mem
      have hm := List.mem_cons_of_mem hd hx
      exact delete_of_ne (r.prev_ne hx) (hne (r.prev_mem hm)) (hne (r.next_mem hm))

/-- The methods of `ListNode` refine the operations on sequences. -/
theorem listNode_refines_sequences (L : Lists h S) :
    (∀ x n, S.Loose x → n ∈ S.heads ∨ S.Member n →
      ∃ S', S.Step (.insertAfter x n) S' ∧ Lists (insertAfter h x n) S') ∧
    (∀ x n, S.Loose x → n ∈ S.heads ∨ S.Member n →
      ∃ S', S.Step (.insertBefore x n) S' ∧ Lists (insertBefore h x n) S') ∧
    (∀ x, S.Member x → ∃ S', S.Step (.delete x) S' ∧ Lists (delete h x) S') ∧
    ∀ hd ∈ S.heads, isEmpty h hd = true ↔ S.seq hd = [] := by
  refine ⟨?_, ?_, ?_, fun hd hh => L.isEmpty_iff hh⟩
  · intro x n hx hn
    have ha : S.Allowed (.insertAfter x n) := ⟨hx, hn⟩
    exact L.exists_step ha
  · intro x n hx hn
    have ha : S.Allowed (.insertBefore x n) := ⟨hx, hn⟩
    exact L.exists_step ha
  · intro x hx
    have ha : S.Allowed (.delete x) := hx
    exact L.exists_step ha

/-- A list with one member, whose two pointers agree, and an empty one. -/
def twoLists : NodeHeap Nat := fun a => if a = 0 then ⟨1, 1⟩ else if a = 1 then ⟨0, 0⟩ else ⟨a, a⟩

def twoSequences : Sequences Nat where
  heads := {0, 10}
  seq a := if a = 0 then [1] else []
  nodup := by
    rintro a (rfl | rfl) <;> simp
  disjoint := by
    rintro a (rfl | rfl) b (rfl | rfl) <;> simp

theorem listNode_refines_two_lists :
    Lists twoLists twoSequences ∧
      (∃ S', twoSequences.Step (.insertAfter 2 1) S' ∧ Lists (insertAfter twoLists 2 1) S') ∧
      (∃ S', twoSequences.Step (.insertBefore 2 10) S' ∧ Lists (insertBefore twoLists 2 10) S') ∧
      (∃ S', twoSequences.Step (.delete 1) S' ∧ Lists (delete twoLists 1) S') ∧
      isEmpty twoLists 0 = false ∧ isEmpty twoLists 10 = true := by
  have L : Lists twoLists twoSequences := by
    rintro a (rfl | rfl) <;> simp [twoSequences, twoLists]
  have hmem : twoSequences.Member 1 := ⟨0, by simp [twoSequences]⟩
  have hloose : twoSequences.Loose 2 := by
    refine ⟨by simp [twoSequences], ?_⟩
    rintro ⟨hd, rfl | rfl, hm⟩ <;> simp [twoSequences] at hm
  have hhead : 10 ∈ twoSequences.heads := by simp [twoSequences]
  obtain ⟨hafter, hbefore, hdelete, hempty⟩ := listNode_refines_sequences L
  exact ⟨L, hafter 2 1 hloose (Or.inr hmem), hbefore 2 10 hloose (Or.inl hhead), hdelete 1 hmem,
    rfl, (hempty 10 hhead).mpr rfl⟩

end ListNode

end Chestnut
