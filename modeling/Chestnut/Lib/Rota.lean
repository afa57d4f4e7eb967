import Mathlib.Data.List.Basic
import Mathlib.Data.List.Count
import Mathlib.Data.List.Nodup

/-!
# Taking turns

Members wait in a queue; one of them may be current, and members that have
retired never come back. A turn puts the current member at the end of the
queue and picks the first one.

The queue is first-in-first-out in the sense that those that have entered it
are, in order, those picked so far and those still waiting. That a member is
picked once between two turns of another one follows from this and from what
can enter ahead of it.

## Implementation notes

`entered` and `picked` are history variables.
-/

namespace Chestnut.Lib

variable {α : Type*}

structure Rota (α : Type*) where
  ready : List α := []
  current : Option α := none
  retired : List α := []
  entered : List α := []
  picked : List α := []

namespace Rota

/-- `x` enters the queue. -/
def add (x : α) (q : Rota α) : Rota α :=
  { q with ready := q.ready ++ [x], entered := q.entered ++ [x] }

/-- The current member goes back to the queue. -/
def requeue (q : Rota α) : Rota α :=
  match q.current with
  | none => q
  | some c => { q.add c with current := none }

/-- The first of the queue becomes the current member. -/
def pick (q : Rota α) : Rota α :=
  match q.ready with
  | [] => q
  | x :: xs => { q with ready := xs, current := some x, picked := q.picked ++ [x] }

def rotate (q : Rota α) : Rota α := q.requeue.pick

/-- The current member retires, and the next one is picked. -/
def retire (c : α) (q : Rota α) : Rota α :=
  pick { q with current := none, retired := c :: q.retired }

/-- Everyone who has been added, each where it is. -/
def members (q : Rota α) : List α := q.current.toList ++ (q.ready ++ q.retired)

/-- Runs in which only new members are added. -/
inductive Steps (q : Rota α) : Rota α → Prop
  | refl : Steps q q
  | add {q' : Rota α} {x : α} (h : Steps q q') (hx : x ∉ q'.members) : Steps q (q'.add x)
  | rotate {q' : Rota α} (h : Steps q q') : Steps q q'.rotate
  | retire {q' : Rota α} {c : α} (h : Steps q q') (hc : q'.current = some c) :
      Steps q (q'.retire c)

/-- Nobody is in two places, and the queue is first-in-first-out. -/
structure Ok (q : Rota α) : Prop where
  nodup : q.members.Nodup
  fifo : q.entered = q.picked ++ q.ready

variable {q q' : Rota α} {x c : α}

/-! ### Where the members are -/

theorem members_add : (q.add x).members.Perm (x :: q.members) := by
  simp only [add, members, List.append_assoc, List.singleton_append]
  have hmiddle : (q.ready ++ x :: q.retired).Perm (x :: (q.ready ++ q.retired)) :=
    List.perm_middle
  exact (hmiddle.append_left _).trans List.perm_middle

theorem members_requeue : q.requeue.members.Perm q.members := by
  unfold requeue
  cases hcur : q.current with
  | none => exact .refl _
  | some c =>
      simp only [add, members, hcur, Option.toList_none, Option.toList_some, List.nil_append,
        List.append_assoc, List.singleton_append]
      exact List.perm_middle

theorem members_pick (hcur : q.current = none) : q.pick.members.Perm q.members := by
  unfold pick
  cases hready : q.ready with
  | nil => exact .refl _
  | cons x xs => simp [members, hcur, hready]

theorem current_requeue : q.requeue.current = none := by
  unfold requeue
  cases hcur : q.current with
  | none => exact hcur
  | some c => rfl

theorem members_rotate : q.rotate.members.Perm q.members :=
  (members_pick current_requeue).trans members_requeue

/-- Retiring moves the current member. -/
theorem members_leave (hc : q.current = some c) :
    members { q with current := none, retired := c :: q.retired } |>.Perm q.members := by
  simp only [members, hc, Option.toList_none, Option.toList_some, List.nil_append,
    List.singleton_append]
  exact List.perm_middle

theorem members_retire (hc : q.current = some c) : (q.retire c).members.Perm q.members :=
  (members_pick rfl).trans (members_leave hc)

/-- A turn leaves nobody current only if nobody is current or waiting. -/
theorem current_rotate_eq_none_iff : q.rotate.current = none ↔ q.current = none ∧ q.ready = [] := by
  unfold rotate requeue pick add
  cases hcur : q.current with
  | none => cases hready : q.ready <;> simp [hcur]
  | some c => cases hready : q.ready <;> simp

/-! ### The two histories -/

@[simp] theorem entered_pick : q.pick.entered = q.entered := by
  unfold pick
  split <;> rfl

@[simp] theorem retired_pick : q.pick.retired = q.retired := by
  unfold pick
  split <;> rfl

theorem entered_requeue : q.requeue.entered = q.entered ++ q.current.toList := by
  unfold requeue
  cases hcur : q.current with
  | none => simp
  | some c => rfl

theorem entered_rotate : q.rotate.entered = q.entered ++ q.current.toList := by
  rw [rotate, entered_pick, entered_requeue]

theorem retired_rotate : q.rotate.retired = q.retired := by
  rw [rotate, retired_pick, requeue]
  split <;> rfl

theorem picked_append_ready_pick : q.pick.picked ++ q.pick.ready = q.picked ++ q.ready := by
  unfold pick
  cases hready : q.ready with
  | nil => simp [hready]
  | cons x xs => simp

/-! ### Runs -/

theorem Ok.add (h : q.Ok) (hx : x ∉ q.members) : (q.add x).Ok where
  nodup := members_add.nodup_iff.mpr (List.nodup_cons.mpr ⟨hx, h.nodup⟩)
  fifo := by simp [Rota.add, h.fifo]

theorem Ok.rotate (h : q.Ok) : q.rotate.Ok where
  nodup := members_rotate.nodup_iff.mpr h.nodup
  fifo := by
    rw [entered_rotate, Rota.rotate, picked_append_ready_pick, requeue]
    cases hcur : q.current with
    | none => simpa using h.fifo
    | some c => simp [Rota.add, h.fifo]

theorem Ok.retire (h : q.Ok) (hc : q.current = some c) : (q.retire c).Ok where
  nodup := (members_retire hc).nodup_iff.mpr h.nodup
  fifo := by
    rw [Rota.retire, entered_pick, picked_append_ready_pick]
    exact h.fifo

theorem Steps.trans {q'' : Rota α} (h : Steps q q') (h' : Steps q' q'') : Steps q q'' := by
  induction h' with
  | refl => exact h
  | add _ hx ih => exact ih.add hx
  | rotate _ ih => exact ih.rotate
  | retire _ hc ih => exact ih.retire hc

theorem Steps.ok (hs : Steps q q') (h : q.Ok) : q'.Ok := by
  induction hs with
  | refl => exact h
  | add _ hx ih => exact ih.add hx
  | rotate _ ih => exact ih.rotate
  | retire _ hc ih => exact ih.retire hc

theorem Steps.subset (hs : Steps q q') : q.members ⊆ q'.members := by
  induction hs with
  | refl => exact List.Subset.refl _
  | add _ _ ih => exact fun y hy => members_add.mem_iff.mpr (List.mem_cons_of_mem _ (ih hy))
  | rotate _ ih => exact fun y hy => members_rotate.mem_iff.mpr (ih hy)
  | retire _ hc ih => exact fun y hy => (members_retire hc).mem_iff.mpr (ih hy)

theorem picked_prefix_pick : q.picked <+: q.pick.picked := by
  unfold pick
  cases q.ready with
  | nil => exact List.prefix_refl _
  | cons x xs => exact List.prefix_append _ _

theorem picked_requeue : q.requeue.picked = q.picked := by
  unfold requeue
  split <;> rfl

/-- The histories only grow. -/
theorem Steps.histories (hs : Steps q q') :
    q.entered <+: q'.entered ∧ q.picked <+: q'.picked := by
  induction hs with
  | refl => exact ⟨List.prefix_refl _, List.prefix_refl _⟩
  | add _ _ ih => exact ⟨ih.1.trans (List.prefix_append _ _), ih.2⟩
  | rotate _ ih =>
      rw [entered_rotate]
      refine ⟨ih.1.trans (List.prefix_append _ _), ih.2.trans ?_⟩
      rw [← picked_requeue]
      exact picked_prefix_pick
  | @retire q₁ c _ _ ih =>
      rw [Rota.retire, entered_pick]
      exact ⟨ih.1, ih.2.trans
        (picked_prefix_pick (q := { q₁ with current := none, retired := c :: q₁.retired }))⟩

/-- Those who are picked later are those who wait, in their order, and only then others. -/
theorem Steps.picks_later (h : q.Ok) (hs : Steps q q') :
    ∃ S, q'.picked = q.picked ++ S ∧ (q.ready <+: S ∨ S <+: q.ready) := by
  obtain ⟨hent, S, hS⟩ := hs.histories
  have hready : q.ready <+: S ++ q'.ready := by
    rwa [(hs.ok h).fifo, h.fifo, ← hS, List.append_assoc, List.prefix_append_right_inj] at hent
  exact ⟨S, hS.symm, List.prefix_or_prefix_of_prefix hready (List.prefix_append _ _)⟩

/-- Where `n`, current in `q`, has come to: it still is current, or it has
entered the queue behind new members only, or it has retired. -/
inductive Since (n : α) (q q' : Rota α) : Prop
  | held (C : List α) (hcur : q'.current = some n) (hnew : ∀ y ∈ C, y ∉ q.members)
      (hent : q'.entered = q.entered ++ C)
  | queued (C A : List α) (hnew : ∀ y ∈ C, y ∉ q.members)
      (hent : q'.entered = q.entered ++ (C ++ n :: A))
  | gone (A : List α) (hret : n ∈ q'.retired) (hA : n ∉ A) (hent : q'.entered = q.entered ++ A)

theorem mem_members_of_current (hc : q.current = some c) : c ∈ q.members := by
  simp [members, hc]

theorem mem_members_of_retired (hc : c ∈ q.retired) : c ∈ q.members := by
  simp [members, hc]

/-- The current member is neither waiting nor retired. -/
theorem Ok.current_out (h : q.Ok) (hc : q.current = some c) : c ∉ q.ready ∧ c ∉ q.retired := by
  have hnodup := h.nodup
  rw [members, hc, Option.toList_some, List.singleton_append, List.nodup_cons,
    List.mem_append, not_or] at hnodup
  exact hnodup.1

theorem Since.rotate {n : α} (h : q'.Ok) (S : Since n q q') : Since n q q'.rotate := by
  cases S with
  | held C hcur hnew hent =>
      refine .queued C [] hnew ?_
      rw [entered_rotate, hent, hcur, List.append_assoc]
      rfl
  | queued C A hnew hent =>
      refine .queued C (A ++ q'.current.toList) hnew ?_
      rw [entered_rotate, hent]
      simp
  | gone A hret hA hent =>
      refine .gone (A ++ q'.current.toList) ?_ ?_ ?_
      · rwa [retired_rotate]
      · have hne : q'.current ≠ some n := fun hcur => (h.current_out hcur).2 hret
        simpa [hA] using hne
      · rw [entered_rotate, hent, List.append_assoc]

theorem Since.retire {n : α} (hn : n ∈ q.members) (hc : q'.current = some c)
    (S : Since n q q') : Since n q (q'.retire c) := by
  have hent' : (q'.retire c).entered = q'.entered := by rw [Rota.retire, entered_pick]
  have hret' : (q'.retire c).retired = c :: q'.retired := by rw [Rota.retire, retired_pick]
  cases S with
  | held C hcur hnew hent =>
      have heq : c = n := Option.some.inj (hc.symm.trans hcur)
      refine .gone C ?_ (fun hmem => hnew n hmem hn) (hent'.trans hent)
      rw [hret', heq]
      exact List.mem_cons_self
  | queued C A hnew hent => exact .queued C A hnew (hent'.trans hent)
  | gone A hret hA hent =>
      refine .gone A ?_ hA (hent'.trans hent)
      rw [hret']
      exact List.mem_cons_of_mem _ hret

theorem Since.add {n : α} (hsub : q.members ⊆ q'.members) (hx : x ∉ q'.members)
    (S : Since n q q') : Since n q (q'.add x) := by
  cases S with
  | held C hcur hnew hent =>
      refine .held (C ++ [x]) hcur ?_ (by simp [Rota.add, hent])
      intro y hy
      rcases List.mem_append.mp hy with hy | hy
      · exact hnew y hy
      · rw [List.mem_singleton.mp hy]
        exact fun hmem => hx (hsub hmem)
  | queued C A hnew hent => exact .queued C (A ++ [x]) hnew (by simp [Rota.add, hent])
  | gone A hret hA hent =>
      refine .gone (A ++ [x]) hret ?_ (by simp [Rota.add, hent])
      have hne : n ≠ x := fun heq => hx (heq ▸ mem_members_of_retired hret)
      simpa [hA] using hne

theorem Steps.since {n : α} (h : q.Ok) (hcur : q.current = some n) (hs : Steps q q') :
    Since n q q' := by
  induction hs with
  | refl => exact .held [] hcur (fun _ hy => absurd hy List.not_mem_nil) (by simp)
  | add hs hx ih => exact ih.add hs.subset hx
  | rotate hs ih => exact ih.rotate (hs.ok h)
  | retire hs hc ih => exact ih.retire (mem_members_of_current hcur) hc

/-- The part of a list before the first `n`. -/
theorem eq_of_append_cons {n : α} {l l' t t' : List α} (hl : n ∉ l) (hl' : n ∉ l')
    (h : l ++ n :: t = l' ++ n :: t') : l = l' := by
  rcases List.append_eq_append_iff.mp h with ⟨c, rfl, hc⟩ | ⟨c, rfl, hc⟩
  · cases c with
    | nil => rw [List.append_nil]
    | cons a c => simp_all
  · cases c with
    | nil => rw [List.append_nil]
    | cons a c => simp_all

/-- Between a state in which `n` is current and the next time that `n` is picked, those who
were waiting are picked, in their order, and then those who are new. -/
theorem Steps.picks_between {n : α} {S : List α} (h : q.Ok) (hs : Steps q q')
    (hcur : q.current = some n) (hpicks : q'.picked = q.picked ++ (S ++ [n])) (hS : n ∉ S) :
    ∃ C, S = q.ready ++ C ∧ ∀ y ∈ C, y ∉ q.members := by
  have hready : n ∉ q.ready := (h.current_out hcur).1
  have hqueue : ∀ A, q'.entered = q.entered ++ A → q.ready ++ A = S ++ n :: q'.ready := by
    intro A hA
    rw [(hs.ok h).fifo, h.fifo, hpicks] at hA
    simpa [List.append_assoc] using hA.symm
  have hlate : ∀ A, q'.entered = q.entered ++ A → n ∈ A := by
    intro A hA
    have hmem : n ∈ q.ready ++ A := by
      rw [hqueue A hA]
      simp
    exact (List.mem_append.mp hmem).resolve_left hready
  cases hs.since h hcur with
  | held C _ hnew hent => exact absurd (mem_members_of_current hcur) (hnew n (hlate C hent))
  | gone A _ hA hent => exact absurd (hlate A hent) hA
  | queued C A hnew hent =>
      have heq := hqueue _ hent
      have hC : n ∉ C := fun hmem => hnew n hmem (mem_members_of_current hcur)
      rw [← List.append_assoc] at heq
      have hleft : n ∉ q.ready ++ C := by simp [hready, hC]
      exact ⟨C, (eq_of_append_cons hleft hS heq).symm, hnew⟩

theorem Steps.count_picks_between [DecidableEq α] {n : α} {S : List α} (h : q.Ok)
    (hs : Steps q q') (hcur : q.current = some n)
    (hpicks : q'.picked = q.picked ++ (S ++ [n])) (hS : n ∉ S) {m : α} (hm : m ∈ q.ready) :
    S.count m = 1 := by
  obtain ⟨C, rfl, hnew⟩ := hs.picks_between h hcur hpicks hS
  have hnodup : q.ready.Nodup :=
    (List.nodup_append.mp (List.nodup_append.mp h.nodup).2.1).1
  have hmember : m ∈ q.members :=
    List.mem_append_right _ (List.mem_append_left _ hm)
  rw [List.count_append, List.count_eq_one_of_mem hnodup hm,
    List.count_eq_zero_of_not_mem fun hmem => hnew m hmem hmember]

end Rota

end Chestnut.Lib
