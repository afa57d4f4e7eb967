import Chestnut.Lib.Loop
import Mathlib.Logic.Function.Basic
import Mathlib.Data.List.Basic

/-!
# Stacks linked through their members

A stack whose members carry the link to the member below: a push stores the old
top in the new member. A walk follows the links from a member down to null and
visits what it passes. Whether it ends is a matter of the links alone, and a
member pushed onto a stack that already holds it closes a cycle.
-/

namespace Chestnut.Lib

variable {α σ ε : Type}

/-- The links lead from `p` over the members of the list to `q`. -/
def Path (next : α → Option α) : Option α → List α → Option α → Prop
  | p, [], q => p = q
  | p, a :: l, q => p = some a ∧ Path next (next a) l q

/-- The members from `p` down to null. -/
def Chain (next : α → Option α) (p : Option α) (l : List α) : Prop := Path next p l none

variable {next : α → Option α} {p q r : Option α} {a : α} {l l' : List α}

theorem Path.append (h : Path next p l q) (h' : Path next q l' r) : Path next p (l ++ l') r := by
  induction l generalizing p with
  | nil =>
      cases h
      exact h'
  | cons a l ih => exact ⟨h.1, ih h.2⟩

/-- A path through a member, cut in front of it. -/
theorem Path.split (h : Path next p (l ++ a :: l') q) :
    Path next p l (some a) ∧ Path next (next a) l' q := by
  induction l generalizing p with
  | nil => exact h
  | cons b l ih => exact ⟨⟨h.1, (ih h.2).1⟩, (ih h.2).2⟩

/-- A path does not see the link of a member it does not pass. -/
theorem Path.frame [DecidableEq α] (h : Path next p l q) (ha : a ∉ l) (r : Option α) :
    Path (Function.update next a r) p l q := by
  induction l generalizing p with
  | nil => exact h
  | cons b l ih =>
      have hne : b ≠ a := fun hb => ha (hb ▸ List.mem_cons_self)
      refine ⟨h.1, ?_⟩
      rw [Function.update_of_ne hne]
      exact ih h.2 fun hm => ha (List.mem_cons_of_mem _ hm)

/-- A chain runs along every path from the same member. -/
theorem Chain.along {c : List α} (hc : Chain next p c) (h : Path next p l q) :
    ∃ c', c = l ++ c' ∧ Chain next q c' := by
  induction l generalizing p c with
  | nil =>
      cases h
      exact ⟨c, rfl, hc⟩
  | cons a l ih =>
      obtain ⟨rfl, hrest⟩ := h
      cases c with
      | nil => cases hc
      | cons b c =>
          obtain ⟨hb, hc⟩ := hc
          cases hb
          obtain ⟨c', rfl, hc'⟩ := ih hc hrest
          exact ⟨c', rfl, hc'⟩

/-- No chain leaves a cycle. -/
theorem Path.not_chain {c : List α} (h : Path next p l p) (hl : l ≠ []) : ¬ Chain next p c := by
  induction hn : c.length using Nat.strongRecOn generalizing c with
  | _ n ih =>
      intro hc
      obtain ⟨c', rfl, hc'⟩ := hc.along h
      refine ih c'.length ?_ rfl hc'
      have hpos : 0 < l.length := List.length_pos_iff.mpr hl
      rw [← hn, List.length_append]
      exact Nat.lt_add_of_pos_left hpos

theorem Chain.nodup (h : Chain next p l) : l.Nodup := by
  induction l generalizing p with
  | nil => exact List.nodup_nil
  | cons a l ih =>
      refine List.nodup_cons.mpr ⟨fun ha => ?_, ih h.2⟩
      obtain ⟨above, below, rfl⟩ := List.append_of_mem ha
      have hback : Path next (some a) (a :: above) (some a) := ⟨rfl, (Path.split h.2).1⟩
      exact hback.not_chain (List.cons_ne_nil _ _) (h.1 ▸ h)

section Push

variable [DecidableEq α]

theorem Chain.push (h : Chain next p l) (ha : a ∉ l) :
    Chain (Function.update next a p) (some a) (a :: l) := by
  refine ⟨rfl, ?_⟩
  rw [Function.update_self]
  exact Path.frame h ha p

/-- A second push of a member of the stack closes a cycle. -/
theorem Chain.not_chain_push {c : List α} (h : Chain next p l) (ha : a ∈ l) :
    ¬ Chain (Function.update next a p) (some a) c := by
  obtain ⟨above, below, rfl, hfirst⟩ := List.eq_append_cons_of_mem ha
  have hback : Path (Function.update next a p) (some a) (a :: above) (some a) := by
    refine ⟨rfl, ?_⟩
    rw [Function.update_self]
    exact (Path.split h).1.frame hfirst p
  exact hback.not_chain (List.cons_ne_nil _ _)

/-- Another stack that holds the pushed member goes on below it with the stack
pushed to. -/
theorem Chain.divert {above below : List α} (h : Chain next p l) (ha : a ∉ l)
    (h' : Chain next q (above ++ a :: below)) (hfirst : a ∉ above) :
    Chain (Function.update next a p) q (above ++ a :: l) :=
  ((Path.split h').1.frame hfirst p).append (h.push ha)

end Push

/-! ### Walks -/

variable {visit : α → σ → Except ε σ} {s : σ}

/-- `for (; p; p = next(p)) visit(p)`, for at most `fuel` visits. -/
def walkChain (next : α → Option α) (visit : α → σ → Except ε σ) :
    Nat → Option α → σ → Option (Except ε σ)
  | _, none, s => some (.ok s)
  | 0, some _, _ => none
  | n + 1, some a, s => andThen (some (visit a s)) (walkChain next visit n (next a))

/-- A walk along a chain visits its members in order. -/
theorem walkChain_eq_some (h : Chain next p l) {k : Nat} (hk : l.length ≤ k) :
    walkChain next visit k p s = some (l.foldlM (fun s a => visit a s) s) := by
  induction l generalizing p s k with
  | nil =>
      cases h
      cases k <;> rfl
  | cons a l ih =>
      obtain ⟨rfl, hrest⟩ := h
      cases k with
      | zero => cases hk
      | succ k =>
          rw [walkChain, List.foldlM_cons]
          cases visit a s with
          | error e => rfl
          | ok s' => exact ih hrest (Nat.le_of_succ_le_succ hk)

/-- Where there is no chain, a walk whose visits all return never ends. -/
theorem walkChain_eq_none (hvisit : ∀ a s, ∃ s', visit a s = .ok s') (h : ∀ l, ¬ Chain next p l)
    (k : Nat) : walkChain next visit k p s = none := by
  induction k generalizing p s with
  | zero =>
      cases p with
      | none => exact absurd rfl (h [])
      | some a => rfl
  | succ k ih =>
      cases p with
      | none => exact absurd rfl (h [])
      | some a =>
          obtain ⟨s', hs'⟩ := hvisit a s
          rw [walkChain, hs', andThen_ok]
          exact ih fun l hl => h (a :: l) ⟨rfl, hl⟩

end Chestnut.Lib
