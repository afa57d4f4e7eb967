import Mathlib.Init

/-!
# Runs of a guarded step function

A system is a step function that may stop with a fault and a guard that says
which operations a caller may issue in which state. Safety of whole runs is
an invariant that holds at the start and survives every guarded step.
-/

namespace Chestnut.Lib

variable {σ ω ε : Type*}

/-- The states that guarded, completed steps lead to from `s₀`. -/
inductive Reach (step : σ → ω → Except ε σ) (allowed : σ → ω → Prop) (s₀ : σ) : σ → Prop
  | start : Reach step allowed s₀ s₀
  | next {s s' : σ} {o : ω} (h : Reach step allowed s₀ s) (ha : allowed s o)
      (hs : step s o = .ok s') : Reach step allowed s₀ s'

namespace Reach

variable {step : σ → ω → Except ε σ} {allowed : σ → ω → Prop} {s₀ s : σ}

/-- The invariant rule. -/
theorem inv {I : σ → Prop} (h₀ : I s₀)
    (hstep : ∀ s o s', I s → allowed s o → step s o = .ok s' → I s')
    (h : Reach step allowed s₀ s) : I s := by
  induction h with
  | start => exact h₀
  | next _ ha hs ih => exact hstep _ _ _ ih ha hs

theorem trans {s' : σ} (h : Reach step allowed s₀ s) (h' : Reach step allowed s s') :
    Reach step allowed s₀ s' := by
  induction h' with
  | start => exact h
  | next _ ha hs ih => exact .next ih ha hs

/-- A list of operations that can be executed is a run. -/
theorem of_ops {ops : List ω} (ha : ∀ s, Reach step allowed s₀ s → ∀ o ∈ ops, allowed s o)
    (h : ops.foldlM step s₀ = .ok s) : Reach step allowed s₀ s := by
  induction ops generalizing s₀ with
  | nil =>
      cases h
      exact .start
  | cons o ops ih =>
      rw [List.foldlM_cons] at h
      cases hs : step s₀ o with
      | error e =>
          rw [hs] at h
          cases h
      | ok s₁ =>
          rw [hs] at h
          have h₁ : Reach step allowed s₀ s₁ := .next .start (ha s₀ .start o List.mem_cons_self) hs
          refine h₁.trans (ih (fun s' hs' o' ho' => ?_) h)
          exact ha s' (h₁.trans hs') o' (List.mem_cons_of_mem _ ho')

end Reach

/-- Runs of events that may be disabled, each event meeting `G`. -/
inductive Run (next : σ → ω → Option σ) (G : ω → Prop) (s₀ : σ) : σ → Prop
  | start : Run next G s₀ s₀
  | next {s s' : σ} {e : ω} (h : Run next G s₀ s) (hg : G e) (hs : next s e = some s') :
      Run next G s₀ s'

namespace Run

variable {next : σ → ω → Option σ} {G : ω → Prop} {s₀ s s' : σ}

/-- The invariant rule. -/
theorem inv {I : σ → Prop} (h₀ : I s₀) (hstep : ∀ s e s', I s → G e → next s e = some s' → I s')
    (h : Run next G s₀ s) : I s := by
  induction h with
  | start => exact h₀
  | next _ hg hs ih => exact hstep _ _ _ ih hg hs

theorem trans (h : Run next G s₀ s) (h' : Run next G s s') : Run next G s₀ s' := by
  induction h' with
  | start => exact h
  | next _ hg hs ih => exact .next ih hg hs

/-- A list of events that can be executed is a run. -/
theorem of_events {es : List ω} (h : es.foldlM next s₀ = some s) (hg : ∀ e ∈ es, G e) :
    Run next G s₀ s := by
  induction es generalizing s₀ with
  | nil =>
      cases h
      exact .start
  | cons e es ih =>
      rw [List.foldlM_cons, Option.bind_eq_bind, Option.bind_eq_some_iff] at h
      obtain ⟨s₁, hs₁, hrest⟩ := h
      have h₁ : Run next G s₀ s₁ := .next .start (hg e List.mem_cons_self) hs₁
      exact h₁.trans (ih hrest fun e' he' => hg e' (List.mem_cons_of_mem _ he'))

end Run

/-- Runs with their history, the states and operations passed, latest first. -/
inductive Steps (step : σ → ω → Except ε σ) (allowed : σ → ω → Prop) (s₀ : σ) :
    List (σ × ω) → σ → Prop
  | start : Steps step allowed s₀ [] s₀
  | next {tr : List (σ × ω)} {s s' : σ} {o : ω} (h : Steps step allowed s₀ tr s)
      (ha : allowed s o) (hs : step s o = .ok s') : Steps step allowed s₀ ((s, o) :: tr) s'

/-- The invariant rule for a property of history and state. -/
theorem Steps.inv {step : σ → ω → Except ε σ} {allowed : σ → ω → Prop} {s₀ s : σ}
    {tr : List (σ × ω)} {I : List (σ × ω) → σ → Prop} (h₀ : I [] s₀)
    (hstep : ∀ tr s o s', I tr s → allowed s o → step s o = .ok s' → I ((s, o) :: tr) s')
    (h : Steps step allowed s₀ tr s) : I tr s := by
  induction h with
  | start => exact h₀
  | next _ ha hs ih => exact hstep _ _ _ _ ih ha hs

theorem Steps.reach {step : σ → ω → Except ε σ} {allowed : σ → ω → Prop} {s₀ s : σ}
    {tr : List (σ × ω)} (h : Steps step allowed s₀ tr s) : Reach step allowed s₀ s :=
  h.inv (I := fun _ s => Reach step allowed s₀ s) .start fun _ _ _ _ ih ha hs => .next ih ha hs

theorem Steps.trans {step : σ → ω → Except ε σ} {allowed : σ → ω → Prop} {s₀ s s' : σ}
    {tr tr' : List (σ × ω)} (h : Steps step allowed s₀ tr s)
    (h' : Steps step allowed s tr' s') : Steps step allowed s₀ (tr' ++ tr) s' := by
  induction h' with
  | start => exact h
  | next _ ha hs ih => exact .next ih ha hs

/-- The operations can be executed one after another, each of them allowed, and what they
lead to passes the test: how a run of given operations is evaluated. -/
def runAnd (step : σ → ω → Except ε σ) (allowed : σ → ω → Prop)
    [∀ s o, Decidable (allowed s o)] (p : List (σ × ω) → σ → Bool) :
    List ω → List (σ × ω) → σ → Bool
  | [], tr, s => p tr s
  | o :: ops, tr, s =>
      if allowed s o then
        match step s o with
        | .ok s' => runAnd step allowed p ops ((s, o) :: tr) s'
        | .error _ => false
      else false

theorem Steps.of_runAnd {step : σ → ω → Except ε σ} {allowed : σ → ω → Prop}
    [∀ s o, Decidable (allowed s o)] {p : List (σ × ω) → σ → Bool} {ops : List ω}
    {tr : List (σ × ω)} {s₀ s : σ} (hrun : Steps step allowed s₀ tr s)
    (h : runAnd step allowed p ops tr s = true) :
    ∃ tr' s', Steps step allowed s₀ tr' s' ∧ p tr' s' = true := by
  induction ops generalizing tr s with
  | nil => exact ⟨tr, s, hrun, h⟩
  | cons o ops ih =>
      rw [runAnd] at h
      split at h
      · next ha =>
          cases hs : step s o with
          | error e =>
              rw [hs] at h
              cases h
          | ok s' =>
              rw [hs] at h
              exact ih (.next hrun ha hs) h
      · cases h

theorem exists_of_runAnd (step : σ → ω → Except ε σ) (allowed : σ → ω → Prop)
    [∀ s o, Decidable (allowed s o)] (ops : List ω) (s₀ : σ) (p : List (σ × ω) → σ → Bool)
    (h : runAnd step allowed p ops [] s₀ = true) :
    ∃ tr s, Steps step allowed s₀ tr s ∧ p tr s = true :=
  Steps.of_runAnd .start h

end Chestnut.Lib
