import Chestnut.Lib.Reach
import Mathlib.Logic.Function.Basic

/-!
# Reading a record under a version counter

One writer updates a shared record between two increments of a version
counter, which is odd while an update is in progress. A reader loads the
version, runs a program of field loads, and loads the version a second and a
third time; it accepts what it computed if the third value is even and the
first two agree. All loads and stores interleave freely.

The test accepts a mixture of two records when an odd version is read twice
and the update ends before the third load. Apart from that, and from a counter
that wraps around within one pass, what the reader accepts is the value of its
program on one published record.
-/

namespace Chestnut.Lib

/-- A computation that loads fields of a record; later loads may depend on
earlier ones. -/
inductive Loads {ι : Type} (V : ι → Type) (α : Type) : Type
  | ret (a : α)
  | load (i : ι) (k : V i → Loads V α)

/-- The value on a record that does not change meanwhile. -/
def Loads.eval {ι : Type} {V : ι → Type} {α : Type} (r : ∀ i, V i) : Loads V α → α
  | .ret a => a
  | .load i k => (k (r i)).eval r

namespace Loads

variable {ι : Type} {V : ι → Type} {α β : Type}

/-- Load one field. -/
def get (i : ι) : Loads V (V i) := .load i .ret

def bind : Loads V α → (α → Loads V β) → Loads V β
  | .ret a, f => f a
  | .load i k, f => .load i fun v => (k v).bind f

instance : Monad (Loads V) where
  pure := .ret
  bind := .bind

@[simp] theorem eval_pure (r : ∀ i, V i) (a : α) : (pure a : Loads V α).eval r = a := rfl

@[simp] theorem eval_get (r : ∀ i, V i) (i : ι) : (get i : Loads V (V i)).eval r = r i := rfl

@[simp] theorem eval_bind (r : ∀ i, V i) (p : Loads V α) (f : α → Loads V β) :
    (p >>= f).eval r = (f (p.eval r)).eval r := by
  induction p with
  | ret a => rfl
  | load i k ih => exact ih (r i)

end Loads

namespace Seqlock

/-- Where the reader is: before its first load of the version, between the
first and the second, or between the second and the third. It keeps the
program it runs beside the rest of it. -/
inductive Reader {ι : Type} (V : ι → Type) (α : Type) : Type
  | idle
  | reading (v₁ : Nat) (whole rest : Loads V α)
  | checking (v₁ v₂ : Nat) (whole : Loads V α) (a : α)

/-- The shared record with its counter, the records published so far, and what
the reader has accepted, each value with the program that computed it. -/
structure State {ι : Type} (V : ι → Type) (α : Type) : Type where
  version : Nat
  record : ∀ i, V i
  published : List (∀ i, V i)
  reader : Reader V α
  accepted : List (Loads V α × α)

/-- The steps of the writer and of the reader. -/
inductive Event {ι : Type} (V : ι → Type) (α : Type) : Type
  | begin
  | write (i : ι) (v : V i)
  | finish
  | start (whole : Loads V α)
  | load
  | recheck
  | test

variable {ι : Type} {V : ι → Type} {α : Type} {wrap : Nat}

/-- The next value of a counter that wraps. -/
def bump (wrap v : Nat) : Nat := (v + 1) % wrap

/-- One step, if it is enabled. -/
def next [DecidableEq ι] (wrap : Nat) (s : State V α) : Event V α → Option (State V α)
  | .begin =>
      if s.version % 2 = 0 then some { s with version := bump wrap s.version } else none
  | .write i v =>
      if s.version % 2 = 1 then some { s with record := Function.update s.record i v } else none
  | .finish =>
      if s.version % 2 = 1 then
        some { s with version := bump wrap s.version, published := s.record :: s.published }
      else none
  | .start whole =>
      match s.reader with
      | .idle => some { s with reader := .reading s.version whole whole }
      | _ => none
  | .load =>
      match s.reader with
      | .reading v₁ whole (.load i k) =>
          some { s with reader := .reading v₁ whole (k (s.record i)) }
      | _ => none
  | .recheck =>
      match s.reader with
      | .reading v₁ whole (.ret a) => some { s with reader := .checking v₁ s.version whole a }
      | _ => none
  | .test =>
      match s.reader with
      | .checking v₁ v₂ whole a =>
          if s.version % 2 = 1 ∨ v₁ ≠ v₂ then some { s with reader := .idle }
          else some { s with reader := .idle, accepted := (whole, a) :: s.accepted }
      | _ => none

/-- The writer does not finish an update whose odd version the reader has just
loaded twice, and its counter does not come back to the version the reader's
pass began with. -/
def steady (wrap : Nat) (s : State V α) : Event V α → Bool
  | .finish =>
      match s.reader with
      | .idle => true
      | .reading v₁ _ _ => bump wrap s.version != v₁
      | .checking v₁ v₂ _ _ => !(v₁ == v₂ && v₁ % 2 == 1)
  | _ => true

/-- The step function of the runs that meet the condition. -/
def steadyNext [DecidableEq ι] (wrap : Nat) (s : State V α) (e : Event V α) :
    Option (State V α) :=
  if steady wrap s e then next wrap s e else none

/-- No update in progress, and the reader has not started. -/
def State.initial (r : ∀ i, V i) : State V α := ⟨0, r, [r], .idle, []⟩

/-- The value comes from one published record. -/
def Whole (published : List (∀ i, V i)) (whole : Loads V α) (a : α) : Prop :=
  ∃ r ∈ published, a = whole.eval r

/-- The value comes from one published record that `F` relates to the program. -/
def WholeFor (F : (∀ i, V i) → Loads V α → Prop) (published : List (∀ i, V i))
    (whole : Loads V α) (a : α) : Prop :=
  ∃ r ∈ published, F r whole ∧ a = whole.eval r

/-- What the reader's progress says about the record. -/
def Sound (F : (∀ i, V i) → Loads V α → Prop) (s : State V α) : Prop :=
  match s.reader with
  | .idle => True
  | .reading v₁ whole rest =>
      v₁ % 2 = 0 → s.version = v₁ → F s.record whole ∧ rest.eval s.record = whole.eval s.record
  | .checking v₁ v₂ whole a =>
      v₁ = v₂ → (v₁ % 2 = 0 → WholeFor F s.published whole a) ∧ (v₁ % 2 = 1 → s.version = v₂)

/-- A reader whose programs stand in the relation `F` to the record they are
started on accepts their values on published records only, and on records in
that relation to them. -/
structure Inv (F : (∀ i, V i) → Loads V α → Prop) (s : State V α) : Prop where
  published : s.version % 2 = 0 → s.record ∈ s.published
  sound : Sound F s
  accepted : ∀ x ∈ s.accepted, WholeFor F s.published x.1 x.2

/-- The reader's own steps. -/
def Event.OfReader : Event V α → Prop
  | .start _ | .load | .recheck | .test => True
  | .begin | .write _ _ | .finish => False

theorem steady_of_reader {s : State V α} {e : Event V α} (he : e.OfReader) :
    steady wrap s e = true := by
  cases e <;> first | rfl | exact he.elim

/-- The reader leaves the record and its version alone. -/
theorem next_of_reader [DecidableEq ι] {s s' : State V α} {e : Event V α} (he : e.OfReader)
    (h : next wrap s e = some s') :
    s'.version = s.version ∧ s'.record = s.record ∧ s'.published = s.published := by
  cases e with
  | begin => exact he.elim
  | write i v => exact he.elim
  | finish => exact he.elim
  | start whole =>
      simp only [next] at h
      split at h
      · cases h
        exact ⟨rfl, rfl, rfl⟩
      · cases h
  | load =>
      simp only [next] at h
      split at h
      · cases h
        exact ⟨rfl, rfl, rfl⟩
      · cases h
  | recheck =>
      simp only [next] at h
      split at h
      · cases h
        exact ⟨rfl, rfl, rfl⟩
      · cases h
  | test =>
      simp only [next] at h
      split at h
      · split at h
        · cases h
          exact ⟨rfl, rfl, rfl⟩
        · cases h
          exact ⟨rfl, rfl, rfl⟩
      · cases h

/-- The writer leaves the reader and what it has accepted alone. -/
theorem next_of_writer [DecidableEq ι] {s s' : State V α} {e : Event V α} (he : ¬ e.OfReader)
    (h : next wrap s e = some s') : s'.reader = s.reader ∧ s'.accepted = s.accepted := by
  cases e with
  | begin =>
      simp only [next, Option.ite_none_right_eq_some, Option.some.injEq] at h
      obtain ⟨-, rfl⟩ := h
      exact ⟨rfl, rfl⟩
  | write i v =>
      simp only [next, Option.ite_none_right_eq_some, Option.some.injEq] at h
      obtain ⟨-, rfl⟩ := h
      exact ⟨rfl, rfl⟩
  | finish =>
      simp only [next, Option.ite_none_right_eq_some, Option.some.injEq] at h
      obtain ⟨-, rfl⟩ := h
      exact ⟨rfl, rfl⟩
  | start whole => exact absurd trivial he
  | load => exact absurd trivial he
  | recheck => exact absurd trivial he
  | test => exact absurd trivial he

theorem bump_mod_two (hw : 2 ∣ wrap) (v : Nat) : bump wrap v % 2 = (v + 1) % 2 :=
  Nat.mod_mod_of_dvd _ hw

variable {F : (∀ i, V i) → Loads V α → Prop} {s s' : State V α}

theorem WholeFor.mono {published : List (∀ i, V i)} {whole : Loads V α} {a : α} (r : ∀ i, V i)
    (h : WholeFor F published whole a) : WholeFor F (r :: published) whole a := by
  obtain ⟨r', hr', ha⟩ := h
  exact ⟨r', List.mem_cons_of_mem _ hr', ha⟩

/-- The writer starts an update: a reader that began at the old, even version
no longer sees it. -/
theorem Inv.begin (I : Inv F s) (hw : 2 ∣ wrap) (heven : s.version % 2 = 0) :
    Inv F { s with version := bump wrap s.version } := by
  have hodd := bump_mod_two hw s.version
  refine ⟨fun h => by simp only at h; omega, ?_, I.accepted⟩
  have hsound := I.sound
  unfold Sound at hsound ⊢
  split
  · trivial
  · intro hv he
    simp only at he
    omega
  · next hr =>
      rw [hr] at hsound
      intro h12
      refine ⟨(hsound h12).1, fun hv => ?_⟩
      have := (hsound h12).2 hv
      omega

/-- The writer stores a field: only a reader that began at an odd version is
concerned. -/
theorem Inv.write (I : Inv F s) (hodd : s.version % 2 = 1) (r : ∀ i, V i) :
    Inv F { s with record := r } := by
  refine ⟨fun h => by simp only at h; omega, ?_, I.accepted⟩
  have hsound := I.sound
  unfold Sound at hsound ⊢
  split
  · trivial
  · intro hv he
    simp only at he
    omega
  · next hr =>
      rw [hr] at hsound
      exact hsound

/-- The writer publishes the record. -/
theorem Inv.finish (I : Inv F s) (hs : steady wrap s .finish = true) :
    Inv F { s with version := bump wrap s.version, published := s.record :: s.published } := by
  refine ⟨fun _ => List.mem_cons_self, ?_, fun x hx => (I.accepted x hx).mono _⟩
  have hsound := I.sound
  unfold Sound at hsound ⊢
  unfold steady at hs
  split
  · trivial
  · next hr =>
      simp only at hr
      rw [hr] at hs
      intro hv he
      exact absurd he (bne_iff_ne.mp hs)
  · next hr =>
      simp only at hr
      rw [hr] at hs hsound
      intro h12
      refine ⟨fun hv => ((hsound h12).1 hv).mono _, fun hv => ?_⟩
      simp [h12, h12 ▸ hv] at hs

/-- The invariant rule, event by event. -/
theorem Inv.next [DecidableEq ι] (I : Inv F s) (hw : 2 ∣ wrap) {e : Event V α}
    (hF : ∀ whole, e = .start whole → s.version % 2 = 0 → F s.record whole)
    (h : next wrap s e = some s') (hs : steady wrap s e = true) : Inv F s' := by
  cases e with
  | begin =>
      simp only [Seqlock.next, Option.ite_none_right_eq_some, Option.some.injEq] at h
      obtain ⟨heven, rfl⟩ := h
      exact I.begin hw heven
  | write i v =>
      simp only [Seqlock.next, Option.ite_none_right_eq_some, Option.some.injEq] at h
      obtain ⟨hodd, rfl⟩ := h
      exact I.write hodd _
  | finish =>
      simp only [Seqlock.next, Option.ite_none_right_eq_some, Option.some.injEq] at h
      obtain ⟨-, rfl⟩ := h
      exact I.finish hs
  | start whole =>
      simp only [Seqlock.next] at h
      split at h
      · cases h
        exact ⟨I.published, fun hv _ => ⟨hF whole rfl hv, rfl⟩, I.accepted⟩
      · cases h
  | load =>
      simp only [Seqlock.next] at h
      split at h
      · next v₁ whole i k hr =>
          cases h
          have hsound := I.sound
          unfold Sound at hsound
          rw [hr] at hsound
          exact ⟨I.published, hsound, I.accepted⟩
      · cases h
  | recheck =>
      simp only [Seqlock.next] at h
      split at h
      · next v₁ whole a hr =>
          cases h
          have hsound := I.sound
          unfold Sound at hsound
          rw [hr] at hsound
          refine ⟨I.published, ?_, I.accepted⟩
          -- an unchanged even version: the record read is the published one
          rintro rfl
          exact ⟨fun hv => ⟨s.record, I.published hv, hsound hv rfl⟩, fun _ => rfl⟩
      · cases h
  | test =>
      simp only [Seqlock.next] at h
      split at h
      · next v₁ v₂ whole a hr =>
          have hsound := I.sound
          unfold Sound at hsound
          rw [hr] at hsound
          split at h
          · cases h
            exact ⟨I.published, trivial, I.accepted⟩
          · next hpass =>
              cases h
              rw [not_or, not_not] at hpass
              obtain ⟨hwhole, hlocked⟩ := hsound hpass.2
              refine ⟨I.published, trivial, fun x hx => ?_⟩
              rcases List.mem_cons.mp hx with rfl | hx
              · refine hwhole ?_
                by_contra hv
                have := hlocked (by omega)
                omega
              · exact I.accepted x hx
      · cases h

theorem Inv.initial (r : ∀ i, V i) : Inv F (State.initial r : State V α) :=
  ⟨fun _ => List.mem_cons_self, trivial, nofun⟩

/-- Along steady runs every accepted value is that of a program the reader was
started with on one published record. -/
theorem whole_of_run [DecidableEq ι] {P : Loads V α → Prop} (hw : 2 ∣ wrap) {r : ∀ i, V i}
    {G : Event V α → Prop} (hG : ∀ whole, G (.start whole) → P whole)
    (h : Run (steadyNext wrap) G (State.initial r) s) :
    ∀ x ∈ s.accepted, P x.1 ∧ Whole s.published x.1 x.2 := by
  intro x hx
  have I : Inv (fun _ whole => P whole) s := by
    refine h.inv (Inv.initial r) fun s e s' I hg hs => ?_
    rw [steadyNext, Option.ite_none_right_eq_some] at hs
    exact I.next hw (fun whole he _ => hG whole (he ▸ hg)) hs.2 hs.1
  obtain ⟨p, hp, hP, ha⟩ := I.accepted x hx
  exact ⟨hP, p, hp, ha⟩

end Seqlock

end Chestnut.Lib
