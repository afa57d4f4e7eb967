import Mathlib.Data.List.Chain
import Mathlib.Data.List.Nodup
import Mathlib.Data.Set.Basic

/-!
# Rings of doubly linked nodes

A link table stores the two pointers of every node. A ring is a circular
list through a head node: walking forward visits the listed members once and
comes back to the head, and every backward pointer undoes the forward one.
The edits below write the same pointers in the same order as an intrusive
list does; each is shown to edit the represented sequence.

## Implementation notes

A ring is the chain `head :: members ++ [head]`. An edit splits that chain at
the written nodes, and the rest is carried over by `linked_transport`, which
only asks about the forward pointers of the non-last and the backward
pointers of the non-first nodes. Aliasing (a neighbour that is the head, a
single member) needs no case of its own in this form.
-/

namespace Chestnut.Lib

/-- The forward and backward pointer of every node. -/
structure Links (ν : Type*) where
  next : ν → ν
  prev : ν → ν

namespace Links

variable {ν : Type*} [DecidableEq ν]

/-- Overwrite one forward pointer. -/
def setNext (h : Links ν) (a b : ν) : Links ν :=
  { h with next := Function.update h.next a b }

/-- Overwrite one backward pointer. -/
def setPrev (h : Links ν) (a b : ν) : Links ν :=
  { h with prev := Function.update h.prev a b }

@[simp] theorem setNext_next (h : Links ν) (a b : ν) :
    (h.setNext a b).next = Function.update h.next a b := rfl

@[simp] theorem setNext_prev (h : Links ν) (a b : ν) :
    (h.setNext a b).prev = h.prev := rfl

@[simp] theorem setPrev_next (h : Links ν) (a b : ν) :
    (h.setPrev a b).next = h.next := rfl

@[simp] theorem setPrev_prev (h : Links ν) (a b : ν) :
    (h.setPrev a b).prev = Function.update h.prev a b := rfl

/-- Link `x` in right after `parent`. -/
def insertAfter (h : Links ν) (x parent : ν) : Links ν :=
  let h := h.setNext x (h.next parent)
  let h := h.setPrev x parent
  let h := h.setNext (h.prev x) x
  h.setPrev (h.next x) x

/-- Link `x` in right before `child`. -/
def insertBefore (h : Links ν) (x child : ν) : Links ν :=
  let h := h.setNext x child
  let h := h.setPrev x (h.prev child)
  let h := h.setPrev child x
  h.setNext (h.prev x) x

/-- Unlink `x`; its own two pointers are left as they are. -/
def delete (h : Links ν) (x : ν) : Links ν :=
  let h := h.setNext (h.prev x) (h.next x)
  h.setPrev (h.next x) (h.prev x)

/-- Make `x` a head whose ring is empty. -/
def initHead (h : Links ν) (x : ν) : Links ν :=
  (h.setNext x x).setPrev x x

/-- The test an intrusive list makes for emptiness. -/
def isEmpty (h : Links ν) (x : ν) : Bool := h.next x == x

end Links

section Chain

variable {ν : Type*}

/-- `b` follows `a` and `a` precedes `b`. -/
def Linked (h : Links ν) (a b : ν) : Prop := h.next a = b ∧ h.prev b = a

/-- The circular list of the head `hd` with members `xs`, in forward order. -/
structure Ring (h : Links ν) (hd : ν) (xs : List ν) : Prop where
  nodup : (hd :: xs).Nodup
  chain : (hd :: xs ++ [hd]).IsChain (Linked h)

/-- A chain reads the forward pointer of every node but the last and the
backward pointer of every node but the first. -/
theorem linked_transport {h h' : Links ν} {l : List ν} (hl : l.IsChain (Linked h))
    (hn : ∀ a ∈ l.dropLast, h'.next a = h.next a)
    (hp : ∀ b ∈ l.tail, h'.prev b = h.prev b) : l.IsChain (Linked h') := by
  induction l with
  | nil => exact List.isChain_nil
  | cons a l ih =>
      cases l with
      | nil => exact List.isChain_singleton a
      | cons b l =>
          obtain ⟨hab, hbl⟩ := List.isChain_cons_cons.mp hl
          refine List.isChain_cons_cons.mpr ⟨⟨?_, ?_⟩, ih hbl ?_ ?_⟩
          · rw [hn a (by simp), hab.1]
          · rw [hp b (by simp), hab.2]
          · intro c hc
            exact hn c (by simp [hc])
          · intro c hc
            exact hp c (by simp at hc ⊢; exact Or.inr hc)

theorem Ring.not_mem {h : Links ν} {hd : ν} {xs : List ν} (r : Ring h hd xs) :
    hd ∉ xs := (List.nodup_cons.mp r.nodup).1

/-- Rings read no pointer outside their own nodes. -/
theorem Ring.transport {h h' : Links ν} {hd : ν} {xs : List ν} (r : Ring h hd xs)
    (hn : ∀ a ∈ hd :: xs, h'.next a = h.next a)
    (hp : ∀ a ∈ hd :: xs, h'.prev a = h.prev a) : Ring h' hd xs := by
  refine ⟨r.nodup, linked_transport r.chain ?_ ?_⟩
  · intro a ha
    rw [List.dropLast_concat] at ha
    exact hn a ha
  · intro a ha
    apply hp
    simp only [List.cons_append, List.tail_cons, List.mem_append, List.mem_singleton] at ha
    simp only [List.mem_cons]
    exact ha.symm

/-- The forward pointer of the head is the first member, or the head itself. -/
theorem Ring.next_head {h : Links ν} {hd : ν} {xs : List ν} (r : Ring h hd xs) :
    h.next hd = xs.headD hd := by
  cases xs with
  | nil => exact (List.isChain_pair.mp r.chain).1
  | cons x xs => exact (List.isChain_cons_cons.mp r.chain).1.1

/-- The backward pointer of the head is the last member, or the head itself. -/
theorem Ring.prev_head {h : Links ν} {hd : ν} {xs : List ν} (r : Ring h hd xs) :
    h.prev hd = (hd :: xs).getLast (by simp) := by
  obtain ⟨l, x, hl⟩ := (List.eq_nil_or_concat' (hd :: xs)).resolve_left (by simp)
  have hc := r.chain
  rw [hl, List.append_assoc, List.singleton_append, List.isChain_append_cons_cons] at hc
  simp only [hl, List.getLast_append_singleton]
  exact hc.2.1.2

/-- A head is seen as empty exactly when its ring has no member. -/
theorem Ring.next_eq_head_iff {h : Links ν} {hd : ν} {xs : List ν} (r : Ring h hd xs) :
    h.next hd = hd ↔ xs = [] := by
  rw [r.next_head]
  cases xs with
  | nil => simp
  | cons x xs =>
      have hx : x ≠ hd := fun he => r.not_mem (by simp [he])
      simp [hx]

/-- The two pointers of the head agree exactly when the ring has at most one member. -/
theorem Ring.next_eq_prev_iff {h : Links ν} {hd : ν} {xs : List ν} (r : Ring h hd xs) :
    h.next hd = h.prev hd ↔ xs.length ≤ 1 := by
  rw [r.next_head, r.prev_head]
  cases xs with
  | nil => simp
  | cons x xs =>
      cases xs with
      | nil => simp
      | cons y ys =>
          have hnd := (List.nodup_cons.mp r.nodup).2
          have hx : x ∉ y :: ys := (List.nodup_cons.mp hnd).1
          have hlast : (y :: ys).getLast (by simp) ∈ y :: ys := List.getLast_mem _
          simp only [List.headD_cons, List.length_cons, List.getLast_cons_cons]
          constructor
          · intro he
            exact absurd (he ▸ hlast) hx
          · intro he
            omega

/-- A ring determines its member list. -/
theorem Ring.unique {h : Links ν} {hd : ν} {xs ys : List ν} (rx : Ring h hd xs)
    (ry : Ring h hd ys) : xs = ys := by
  have key : ∀ (a : ν) (us vs : List ν), hd ∉ us → hd ∉ vs →
      (a :: us ++ [hd]).IsChain (Linked h) → (a :: vs ++ [hd]).IsChain (Linked h) →
      us = vs := by
    intro a us
    induction us generalizing a with
    | nil =>
        intro vs _ hv hu hw
        cases vs with
        | nil => rfl
        | cons v vs =>
            have h₁ := (List.isChain_cons_cons.mp hu).1.1
            have h₂ := (List.isChain_cons_cons.mp hw).1.1
            exact absurd (h₁.symm.trans h₂) (fun he => hv (by simp [he]))
    | cons u us ih =>
        intro vs hu hv hcu hcv
        cases vs with
        | nil =>
            have h₁ := (List.isChain_cons_cons.mp hcu).1.1
            have h₂ := (List.isChain_cons_cons.mp hcv).1.1
            exact absurd (h₂.symm.trans h₁) (fun he => hu (by simp [he]))
        | cons v vs =>
            obtain ⟨h₁, hcu'⟩ := List.isChain_cons_cons.mp hcu
            obtain ⟨h₂, hcv'⟩ := List.isChain_cons_cons.mp hcv
            have huv : u = v := h₁.1.symm.trans h₂.1
            subst huv
            rw [ih u vs (fun hm => hu (by simp [hm])) (fun hm => hv (by simp [hm])) hcu' hcv']
  exact key hd xs ys rx.not_mem ry.not_mem rx.chain ry.chain

theorem Ring.nodup_tail {h : Links ν} {hd : ν} {xs : List ν} (r : Ring h hd xs) :
    (xs ++ [hd]).Nodup :=
  (List.perm_append_singleton hd xs).nodup_iff.mpr r.nodup

theorem Ring.nodup_dropLast {h : Links ν} {hd : ν} {xs : List ν} (r : Ring h hd xs) :
    (hd :: xs ++ [hd]).dropLast.Nodup := by
  rw [List.dropLast_concat]
  exact r.nodup

/-- The chain of a ring, cut after a chosen node. -/
theorem Ring.exists_cut {h : Links ν} {hd n : ν} {xs l t : List ν} (r : Ring h hd xs)
    (hs : hd :: xs = l ++ n :: t) :
    ∃ y t', hd :: xs ++ [hd] = l ++ n :: y :: t' ∧ t ++ [hd] = y :: t' ∧ h.next n = y := by
  obtain ⟨y, t', ht⟩ : ∃ y t', t ++ [hd] = y :: t' := by
    cases t with
    | nil => exact ⟨hd, [], rfl⟩
    | cons y t => exact ⟨y, t ++ [hd], rfl⟩
  have he : hd :: xs ++ [hd] = l ++ n :: y :: t' := by
    rw [hs, List.append_assoc, List.cons_append, ht]
  have hc := r.chain
  rw [he] at hc
  exact ⟨y, t', he, ht, (List.isChain_append_cons_cons.mp hc).2.1.1⟩

/-- Every node of a ring has a successor in the ring. -/
theorem Ring.exists_succ {h : Links ν} {hd n : ν} {xs : List ν} (r : Ring h hd xs)
    (hn : n ∈ hd :: xs) : ∃ y ∈ hd :: xs, Linked h n y := by
  obtain ⟨l, t, hs⟩ := List.append_of_mem hn
  obtain ⟨y, t', he, ht, _⟩ := r.exists_cut hs
  have hc := r.chain
  rw [he] at hc
  refine ⟨y, ?_, (List.isChain_append_cons_cons.mp hc).2.1⟩
  have hmem : y ∈ t ++ [hd] := by simp [ht]
  rcases List.mem_append.mp hmem with hm | hm
  · rw [hs]
    simp [hm]
  · rw [List.mem_singleton.mp hm]
    simp

/-- Every node of a ring has a predecessor in the ring. -/
theorem Ring.exists_pred {h : Links ν} {hd n : ν} {xs : List ν} (r : Ring h hd xs)
    (hn : n ∈ hd :: xs) : ∃ p ∈ hd :: xs, Linked h p n := by
  obtain ⟨l, t, he⟩ : ∃ l t, hd :: xs ++ [hd] = hd :: l ++ n :: t := by
    have hmem : n ∈ xs ++ [hd] := by simpa [or_comm] using hn
    obtain ⟨l, t, hs⟩ := List.append_of_mem hmem
    exact ⟨l, t, by rw [List.cons_append, hs, List.cons_append]⟩
  obtain ⟨l', p, hl⟩ := (List.eq_nil_or_concat' (hd :: l)).resolve_left (by simp)
  have hc := r.chain
  rw [he, hl, List.append_assoc, List.singleton_append] at hc
  refine ⟨p, ?_, (List.isChain_append_cons_cons.mp hc).2.1⟩
  have hsplit := congrArg List.dropLast he
  rw [List.dropLast_concat, List.dropLast_append_of_ne_nil (by simp), hl] at hsplit
  rw [hsplit]
  simp

/-- The pointers of a node of a ring stay inside the ring. -/
theorem Ring.next_mem {h : Links ν} {hd n : ν} {xs : List ν} (r : Ring h hd xs)
    (hn : n ∈ hd :: xs) : h.next n ∈ hd :: xs := by
  obtain ⟨y, hy, hl⟩ := r.exists_succ hn
  rwa [hl.1]

theorem Ring.prev_mem {h : Links ν} {hd n : ν} {xs : List ν} (r : Ring h hd xs)
    (hn : n ∈ hd :: xs) : h.prev n ∈ hd :: xs := by
  obtain ⟨p, hp, hl⟩ := r.exists_pred hn
  rwa [hl.2]

/-- The two pointers of a ring undo each other. -/
theorem Ring.prev_next {h : Links ν} {hd n : ν} {xs : List ν} (r : Ring h hd xs)
    (hn : n ∈ hd :: xs) : h.prev (h.next n) = n := by
  obtain ⟨y, _, hl⟩ := r.exists_succ hn
  rw [hl.1, hl.2]

theorem Ring.next_prev {h : Links ν} {hd n : ν} {xs : List ν} (r : Ring h hd xs)
    (hn : n ∈ hd :: xs) : h.next (h.prev n) = n := by
  obtain ⟨p, _, hl⟩ := r.exists_pred hn
  rw [hl.2, hl.1]

/-- A member never precedes itself. -/
theorem Ring.prev_ne {h : Links ν} {hd n : ν} {xs : List ν} (r : Ring h hd xs)
    (hn : n ∈ xs) : h.prev n ≠ n := by
  intro he
  obtain ⟨l, t, hs⟩ := List.append_of_mem hn
  obtain ⟨y, t', _, ht, hy⟩ := r.exists_cut (l := hd :: l) (n := n) (t := t) (by simp [hs])
  have hnn := r.next_prev (List.mem_cons_of_mem hd hn)
  rw [he, hy] at hnn
  have hyt : y ∈ t ++ [hd] := by simp [ht]
  have hnd := r.nodup
  rw [hs, List.nodup_cons] at hnd
  rcases List.mem_append.mp hyt with hm | hm
  · rw [hnn] at hm
    exact (List.nodup_cons.mp (List.nodup_append.mp hnd.2).2.1).1 hm
  · rw [hnn, List.mem_singleton] at hm
    exact hnd.1 (by simp [hm])

end Chain

section Edit

variable {ν : Type*} [DecidableEq ν] {h : Links ν} {hd x n : ν} {xs l t : List ν}

theorem Links.insertAfter_next :
    (h.insertAfter x n).next = Function.update (Function.update h.next x (h.next n)) n x := by
  simp [Links.insertAfter]

theorem Links.insertAfter_prev (hx : x ≠ n) :
    (h.insertAfter x n).prev =
      Function.update (Function.update h.prev x n) (h.next n) x := by
  simp [Links.insertAfter, Function.update_of_ne hx]

theorem Links.insertBefore_next (hx : x ≠ n) :
    (h.insertBefore x n).next =
      Function.update (Function.update h.next x n) (h.prev n) x := by
  simp [Links.insertBefore, Function.update_of_ne hx]

theorem Links.insertBefore_prev :
    (h.insertBefore x n).prev = Function.update (Function.update h.prev x (h.prev n)) n x := by
  simp [Links.insertBefore]

/-- Before a node is after its predecessor. -/
theorem Links.insertBefore_eq (hx : x ≠ n) (hxp : x ≠ h.prev n) (hn : h.next (h.prev n) = n) :
    h.insertBefore x n = h.insertAfter x (h.prev n) := by
  have hnext : (h.insertBefore x n).next = (h.insertAfter x (h.prev n)).next := by
    rw [insertBefore_next hx, insertAfter_next, hn]
  have hprev : (h.insertBefore x n).prev = (h.insertAfter x (h.prev n)).prev := by
    rw [insertBefore_prev, insertAfter_prev hxp, hn]
  exact congrArg₂ Links.mk hnext hprev

theorem Links.delete_next :
    (h.delete x).next = Function.update h.next (h.prev x) (h.next x) := rfl

/-- The successor of the unlinked node is read after its predecessor was
written, so the node must not precede itself. -/
theorem Links.delete_prev (hx : h.prev x ≠ x) :
    (h.delete x).prev = Function.update h.prev (h.next x) (h.prev x) := by
  simp [Links.delete, Function.update_of_ne hx.symm]

/-- Adding `x` between two neighbours of a chain whose nodes repeat only at
its two ends. -/
theorem linked_insert {y : ν} {h' : Links ν}
    (hc : (l ++ n :: y :: t).IsChain (Linked h))
    (hnd : (l ++ n :: y :: t).dropLast.Nodup) (htl : (l ++ n :: y :: t).tail.Nodup)
    (hx : x ∉ l ++ n :: y :: t)
    (hn : h'.next = Function.update (Function.update h.next x y) n x)
    (hp : h'.prev = Function.update (Function.update h.prev x n) y x) :
    (l ++ n :: x :: y :: t).IsChain (Linked h') := by
  simp only [List.mem_append, List.mem_cons, not_or] at hx
  obtain ⟨hxl, hxn, hxy, hxt⟩ := hx
  obtain ⟨hl, _, hy⟩ := List.isChain_append_cons_cons.mp hc
  have hdl : (l ++ n :: y :: t).dropLast = l ++ n :: (y :: t).dropLast := by
    rw [List.dropLast_append_of_ne_nil (by simp)]
    simp
  rw [hdl] at hnd
  have htail : (l ++ n :: y :: t).tail = (l ++ [n]).tail ++ y :: t := by
    cases l <;> simp
  rw [htail] at htl
  refine List.isChain_append_cons_cons.mpr ⟨?_, ?_, List.isChain_cons_cons.mpr ⟨?_, ?_⟩⟩
  · refine linked_transport hl ?_ ?_
    · intro a ha
      rw [List.dropLast_concat] at ha
      have han : a ≠ n := fun he => List.disjoint_of_nodup_append hnd ha (by simp [he])
      have hax : a ≠ x := fun he => hxl (he ▸ ha)
      rw [hn, Function.update_of_ne han, Function.update_of_ne hax]
    · intro b hb
      have hby : b ≠ y := fun he => List.disjoint_of_nodup_append htl hb (by simp [he])
      have hbx : b ≠ x := by
        rintro rfl
        have := List.mem_of_mem_tail hb
        simp only [List.mem_append, List.mem_singleton] at this
        exact this.elim hxl hxn
      rw [hp, Function.update_of_ne hby, Function.update_of_ne hbx]
  · exact ⟨by simp [hn], by simp [hp, hxy]⟩
  · exact ⟨by simp [hn, hxn], by simp [hp]⟩
  · refine linked_transport hy ?_ ?_
    · intro a ha
      have han : a ≠ n := by
        rintro rfl
        exact (List.nodup_cons.mp (List.nodup_append.mp hnd).2.1).1 ha
      have hax : a ≠ x := by
        rintro rfl
        have := List.dropLast_subset _ ha
        simp only [List.mem_cons] at this
        exact this.elim hxy hxt
      rw [hn, Function.update_of_ne han, Function.update_of_ne hax]
    · intro b hb
      have hby : b ≠ y := by
        rintro rfl
        exact (List.nodup_cons.mp (List.nodup_append.mp htl).2.1).1 hb
      have hbx : b ≠ x := fun he => hxt (he ▸ hb)
      rw [hp, Function.update_of_ne hby, Function.update_of_ne hbx]

/-- Removing a node from between two neighbours of such a chain. -/
theorem linked_remove {p y : ν} {h' : Links ν}
    (hc : (l ++ p :: x :: y :: t).IsChain (Linked h))
    (hnd : (l ++ p :: x :: y :: t).dropLast.Nodup)
    (htl : (l ++ p :: x :: y :: t).tail.Nodup)
    (hn : h'.next = Function.update h.next p y)
    (hp : h'.prev = Function.update h.prev y p) :
    (l ++ p :: y :: t).IsChain (Linked h') := by
  obtain ⟨hl, _, hxy⟩ := List.isChain_append_cons_cons.mp hc
  have hy := (List.isChain_cons_cons.mp hxy).2
  have hdl : (l ++ p :: x :: y :: t).dropLast = l ++ p :: x :: (y :: t).dropLast := by
    rw [List.dropLast_append_of_ne_nil (by simp)]
    simp
  rw [hdl] at hnd
  have htail : (l ++ p :: x :: y :: t).tail = (l ++ [p]).tail ++ x :: y :: t := by
    cases l <;> simp
  rw [htail] at htl
  refine List.isChain_append_cons_cons.mpr ⟨?_, ⟨by simp [hn], by simp [hp]⟩, ?_⟩
  · refine linked_transport hl ?_ ?_
    · intro a ha
      rw [List.dropLast_concat] at ha
      have hap : a ≠ p := fun he => List.disjoint_of_nodup_append hnd ha (by simp [he])
      rw [hn, Function.update_of_ne hap]
    · intro b hb
      have hby : b ≠ y := fun he => List.disjoint_of_nodup_append htl hb (by simp [he])
      rw [hp, Function.update_of_ne hby]
  · refine linked_transport hy ?_ ?_
    · intro a ha
      have hap : a ≠ p := by
        rintro rfl
        exact (List.nodup_cons.mp (List.nodup_append.mp hnd).2.1).1 (by simp [ha])
      rw [hn, Function.update_of_ne hap]
    · intro b hb
      have hby : b ≠ y := by
        rintro rfl
        have hyt := (List.nodup_cons.mp (List.nodup_append.mp htl).2.1).2
        exact (List.nodup_cons.mp hyt).1 hb
      rw [hp, Function.update_of_ne hby]

/-- Inserting after a node of the ring, the head included. -/
theorem Ring.insertAfter (r : Ring h hd xs) (hx : x ∉ hd :: xs)
    (hs : hd :: xs = l ++ n :: t) {ys : List ν} (hys : hd :: ys = l ++ n :: x :: t) :
    Ring (h.insertAfter x n) hd ys := by
  obtain ⟨y, t', he, ht, hy⟩ := r.exists_cut hs
  have hn : n ∈ hd :: xs := by simp [hs]
  have hxn : x ≠ n := fun e => hx (e ▸ hn)
  have hx' : x ∉ hd :: xs ++ [hd] := by
    simp only [List.mem_cons, not_or] at hx
    simp [hx]
  refine ⟨?_, ?_⟩
  · rw [hys]
    have hnd := r.nodup
    rw [hs] at hnd hx
    simp only [List.mem_append, List.mem_cons, not_or] at hx
    have hp : (l ++ n :: x :: t).Perm (x :: (l ++ n :: t)) := by
      have h₁ : (l ++ n :: x :: t).Perm (l ++ x :: n :: t) :=
        (List.Perm.swap x n t).append_left l
      exact h₁.trans List.perm_middle
    rw [hp.nodup_iff, List.nodup_cons]
    simpa [hx] using hnd
  · have hgoal : hd :: ys ++ [hd] = l ++ n :: x :: y :: t' := by
      rw [hys, List.append_assoc, List.cons_append, List.cons_append, ht]
    rw [hgoal]
    have hc := r.chain
    have hnd := r.nodup_dropLast
    have htl : (hd :: xs ++ [hd]).tail.Nodup := r.nodup_tail
    rw [he] at hc hnd htl hx'
    refine linked_insert hc hnd htl hx' ?_ ?_
    · rw [Links.insertAfter_next, hy]
    · rw [Links.insertAfter_prev hxn, hy]

/-- Pushing right behind the head. -/
theorem Ring.push (r : Ring h hd xs) (hx : x ∉ hd :: xs) :
    Ring (h.insertAfter x hd) hd (x :: xs) :=
  r.insertAfter hx (l := []) rfl rfl

/-- Unlinking a member. -/
theorem Ring.delete (r : Ring h hd xs) (hs : xs = l ++ x :: t) :
    Ring (h.delete x) hd (l ++ t) := by
  obtain ⟨y, t', he, ht, hy⟩ := r.exists_cut (l := hd :: l) (n := x) (t := t) (by simp [hs])
  obtain ⟨l', p, hl⟩ := (List.eq_nil_or_concat' (hd :: l)).resolve_left (by simp)
  have hsub : (hd :: (l ++ t)).Sublist (hd :: xs) := by
    rw [hs]
    exact (List.Sublist.append_left (List.sublist_cons_self x t) l).cons_cons hd
  refine ⟨hsub.nodup r.nodup, ?_⟩
  have hfull : hd :: xs ++ [hd] = l' ++ p :: x :: y :: t' := by
    rw [he, hl]
    simp
  have hgoal : hd :: (l ++ t) ++ [hd] = l' ++ p :: y :: t' := by
    rw [← List.cons_append, List.append_assoc, ht, hl]
    simp
  rw [hgoal]
  have hc := r.chain
  have hnd := r.nodup_dropLast
  have htl : (hd :: xs ++ [hd]).tail.Nodup := r.nodup_tail
  rw [hfull] at hc hnd htl
  have hpx : h.prev x = p := (List.isChain_append_cons_cons.mp hc).2.1.2
  have hne : h.prev x ≠ x := r.prev_ne (by simp [hs])
  refine linked_remove hc hnd htl ?_ ?_
  · rw [Links.delete_next, hpx, hy]
  · rw [Links.delete_prev hne, hpx, hy]

theorem Ring.initHead : Ring (h.initHead hd) hd [] := by
  refine ⟨by simp, List.isChain_pair.mpr ⟨?_, ?_⟩⟩ <;> simp [Links.initHead]

end Edit

/-- Many rings in one link table: every head owns a ring and no node is in
the rings of two heads. -/
structure Rings {ν : Type*} (h : Links ν) (heads : Set ν) (seq : ν → List ν) : Prop where
  ring : ∀ hd ∈ heads, Ring h hd (seq hd)
  disjoint : ∀ hd ∈ heads, ∀ hd' ∈ heads, hd ≠ hd' →
    List.Disjoint (hd :: seq hd) (hd' :: seq hd')

/-- A node that is in no ring of the family. -/
def Loose {ν : Type*} (heads : Set ν) (seq : ν → List ν) (x : ν) : Prop :=
  ∀ hd ∈ heads, x ∉ hd :: seq hd

namespace Rings

variable {ν : Type*} [DecidableEq ν] {h h' : Links ν} {heads : Set ν} {seq : ν → List ν}
variable {hd x n : ν} {l t ys : List ν}

/-- An edit of one ring that writes only nodes of that ring and nodes of no
ring keeps the family, with the new member list at the edited head. -/
theorem edit (R : Rings h heads seq) (hhd : hd ∈ heads) (hr : Ring h' hd ys)
    (hys : ∀ a ∈ ys, a ∈ seq hd ∨ Loose heads seq a)
    (hw : ∀ a, a ∉ hd :: seq hd → ¬ Loose heads seq a →
      h'.next a = h.next a ∧ h'.prev a = h.prev a) :
    Rings h' heads (Function.update seq hd ys) := by
  have hout : ∀ hd' ∈ heads, hd' ≠ hd → ∀ a ∈ hd' :: seq hd',
      a ∉ hd :: seq hd ∧ ¬ Loose heads seq a := by
    intro hd' hh hne a ha
    exact ⟨fun ha' => R.disjoint hd' hh hd hhd hne ha ha', fun hl => hl hd' hh ha⟩
  have hsep : ∀ hd' ∈ heads, hd' ≠ hd → List.Disjoint (hd :: ys) (hd' :: seq hd') := by
    intro hd' hh hne a ha ha'
    rcases List.mem_cons.mp ha with rfl | ha
    · exact (hout hd' hh hne a ha').1 (by simp)
    · rcases hys a ha with hs | hl
      · exact (hout hd' hh hne a ha').1 (by simp [hs])
      · exact hl hd' hh ha'
  constructor
  · intro hd' hh
    by_cases hne : hd' = hd
    · subst hne
      simpa using hr
    · rw [Function.update_of_ne hne]
      refine (R.ring hd' hh).transport ?_ ?_ <;> intro a ha <;>
        obtain ⟨h₁, h₂⟩ := hout hd' hh hne a ha
      · exact (hw a h₁ h₂).1
      · exact (hw a h₁ h₂).2
  · intro a ha b hb hab
    by_cases ea : a = hd
    · subst ea
      rw [Function.update_self, Function.update_of_ne (Ne.symm hab)]
      exact hsep b hb (Ne.symm hab)
    · by_cases eb : b = hd
      · subst eb
        rw [Function.update_self, Function.update_of_ne ea]
        exact List.disjoint_symm (hsep a ha ea)
      · rw [Function.update_of_ne ea, Function.update_of_ne eb]
        exact R.disjoint a ha b hb hab

/-- Inserting a loose node right after a node of one ring. -/
theorem insertAfter (R : Rings h heads seq) (hhd : hd ∈ heads) (hx : Loose heads seq x)
    (hs : hd :: seq hd = l ++ n :: t) (hys : hd :: ys = l ++ n :: x :: t) :
    Rings (h.insertAfter x n) heads (Function.update seq hd ys) := by
  have r := R.ring hd hhd
  have hn : n ∈ hd :: seq hd := by simp [hs]
  have hxn : x ≠ n := fun e => hx hd hhd (e ▸ hn)
  refine R.edit hhd (r.insertAfter (hx hd hhd) hs hys) ?_ ?_
  · intro a ha
    have ha' : a ∈ hd :: ys := by simp [ha]
    rw [hys] at ha'
    have hne : a = x ∨ a ∈ hd :: seq hd := by
      rw [hs]
      simp only [List.mem_append, List.mem_cons] at ha' ⊢
      tauto
    rcases hne with rfl | hm
    · exact Or.inr hx
    · rcases List.mem_cons.mp hm with rfl | hm
      · have hnd := (r.insertAfter (hx a hhd) hs hys).not_mem
        exact absurd ha hnd
      · exact Or.inl hm
  · intro a ha hl
    have hax : a ≠ x := fun e => hl (e ▸ hx)
    have han : a ≠ n := fun e => ha (e ▸ hn)
    have hay : a ≠ h.next n := fun e => ha (e ▸ r.next_mem hn)
    rw [Links.insertAfter_next, Links.insertAfter_prev hxn]
    simp [hax, han, hay]

/-- Pushing a loose node right behind a head. -/
theorem push (R : Rings h heads seq) (hhd : hd ∈ heads) (hx : Loose heads seq x) :
    Rings (h.insertAfter x hd) heads (Function.update seq hd (x :: seq hd)) :=
  R.insertAfter hhd hx (l := []) rfl rfl

/-- Inserting a loose node right before a node of one ring, where the head
stands behind all members. -/
theorem insertBefore (R : Rings h heads seq) (hhd : hd ∈ heads) (hx : Loose heads seq x)
    (hs : seq hd ++ [hd] = l ++ n :: t) (hys : ys ++ [hd] = l ++ x :: n :: t) :
    Rings (h.insertBefore x n) heads (Function.update seq hd ys) := by
  have r := R.ring hd hhd
  -- the predecessor of `n` on the way from the head
  obtain ⟨l', p, hl⟩ := (List.eq_nil_or_concat' (hd :: l)).resolve_left (by simp)
  have hcut : ∀ {us us' : List ν}, us ++ [hd] = l ++ us' → us' ≠ [] →
      hd :: us = l' ++ p :: us'.dropLast := by
    intro us us' hus hne
    have he : hd :: us ++ [hd] = (hd :: l) ++ us' := by
      rw [List.cons_append, hus, List.cons_append]
    have hd' := congrArg List.dropLast he
    rw [List.dropLast_concat, List.dropLast_append_of_ne_nil hne, hl] at hd'
    simpa using hd'
  have hc := r.chain
  rw [List.cons_append, hs, ← List.cons_append, hl, List.append_assoc,
    List.singleton_append] at hc
  obtain ⟨hnext, hprev⟩ := (List.isChain_append_cons_cons.mp hc).2.1
  have hn : n ∈ hd :: seq hd := by
    have hm : n ∈ seq hd ++ [hd] := by simp [hs]
    simpa [or_comm] using hm
  have hp : p ∈ hd :: seq hd := by simp [hcut hs (by simp)]
  have hxn : x ≠ n := fun e => hx hd hhd (e ▸ hn)
  have hxp : x ≠ p := fun e => hx hd hhd (e ▸ hp)
  rw [Links.insertBefore_eq hxn (by rwa [hprev]) (by rw [hprev, hnext]), hprev]
  exact R.insertAfter hhd hx (hcut hs (by simp)) (by simpa using hcut hys (by simp))

/-- Adding a loose node right before a head, behind all members. -/
theorem append (R : Rings h heads seq) (hhd : hd ∈ heads) (hx : Loose heads seq x) :
    Rings (h.insertBefore x hd) heads (Function.update seq hd (seq hd ++ [x])) :=
  R.insertBefore hhd hx (l := seq hd) (t := []) rfl (List.append_assoc _ [x] [hd])

/-- Unlinking a member of one ring. -/
theorem delete (R : Rings h heads seq) (hhd : hd ∈ heads) (hs : seq hd = l ++ x :: t) :
    Rings (h.delete x) heads (Function.update seq hd (l ++ t)) := by
  have r := R.ring hd hhd
  have hx : x ∈ hd :: seq hd := by simp [hs]
  refine R.edit hhd (r.delete hs) ?_ ?_
  · intro a ha
    left
    rw [hs]
    simp only [List.mem_append, List.mem_cons] at ha ⊢
    tauto
  · intro a ha _
    have hap : a ≠ h.prev x := fun e => ha (e ▸ r.prev_mem hx)
    have hay : a ≠ h.next x := fun e => ha (e ▸ r.next_mem hx)
    have hxx : h.prev x ≠ x := r.prev_ne (by simp [hs])
    rw [Links.delete_next, Links.delete_prev hxx]
    simp [hap, hay]

/-- A loose node becomes a head with an empty ring. -/
theorem initHead (R : Rings h heads seq) (hx : Loose heads seq x) :
    Rings (h.initHead x) (insert x heads) (Function.update seq x []) := by
  have hne : ∀ hd ∈ heads, hd ≠ x := fun hd hh e => hx hd hh (by simp [e])
  constructor
  · rintro hd (rfl | hh)
    · simpa using Ring.initHead
    · rw [Function.update_of_ne (hne hd hh)]
      refine (R.ring hd hh).transport ?_ ?_ <;> intro a ha <;>
        have hax : a ≠ x := fun e => hx hd hh (e ▸ ha)
      · simp [Links.initHead, hax]
      · simp [Links.initHead, hax]
  · rintro a (rfl | ha) b (rfl | hb) hab
    · exact absurd rfl hab
    · rw [Function.update_self, Function.update_of_ne (hne b hb)]
      intro c hc hc'
      simp only [List.mem_singleton] at hc
      exact hx b hb (hc ▸ hc')
    · rw [Function.update_self, Function.update_of_ne (hne a ha)]
      intro c hc hc'
      simp only [List.mem_singleton] at hc'
      exact hx a ha (hc' ▸ hc)
    · rw [Function.update_of_ne (hne a ha), Function.update_of_ne (hne b hb)]
      exact R.disjoint a ha b hb hab

omit [DecidableEq ν] in
/-- Heads may be forgotten. -/
theorem mono {heads' : Set ν} (R : Rings h heads seq) (hs : heads' ⊆ heads) :
    Rings h heads' seq :=
  ⟨fun hd hh => R.ring hd (hs hh), fun a ha b hb => R.disjoint a (hs ha) b (hs hb)⟩

end Rings

end Chestnut.Lib
