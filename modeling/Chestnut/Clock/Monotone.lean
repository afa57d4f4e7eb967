import Chestnut.Clock.Model

/-!
# Calls of BootTime in order

`last_boot_time` is the only thing the calls share. Every result that a call of
`BootTime(false)` returns is at most the value of `last_boot_time` when it
returns and at least its value at any moment before the call; since the
variable never decreases, calls that follow each other return ordered results,
whatever raw times they computed.
-/

namespace Chestnut

open Lib

/-- What a call has established while `last_boot_time` is `last`. -/
def Caller.Bounded (last : BitVec 64) : Caller → Prop
  | .idle => True
  | .timing useHwStable => useHwStable = false
  | .looping _ => True
  | .swapping time old => old < time
  | .returned time => time ≤ last

theorem Caller.Bounded.mono {last last' : BitVec 64} {c : Caller} (h : c.Bounded last)
    (hle : last ≤ last') : c.Bounded last' := by
  cases c with
  | returned time => exact BitVec.le_trans h hle
  | _ => exact h

/-- The call does not rely on the stable bit of the hardware. -/
def TimeEvent.Software {κ : Type} : TimeEvent κ → Prop
  | .start _ useHwStable => useHwStable = false
  | _ => True

namespace TimeWorld

variable {κ : Type} {w w' : TimeWorld κ}

/-- The invariant of `BootTime(false)`. -/
def Ordered (w : TimeWorld κ) : Prop := ∀ i, (w.caller i).Bounded w.lastBootTime

/-- No call has begun. -/
def initial (last : BitVec 64) : TimeWorld κ := ⟨last, fun _ => .idle⟩

theorem ordered_initial (last : BitVec 64) : (initial last : TimeWorld κ).Ordered :=
  fun _ => trivial

/-- What lies between two moments of a run: `last_boot_time` has not decreased,
and a call that returned meanwhile returned at least its earlier value. -/
structure Advanced (w w' : TimeWorld κ) : Prop where
  ordered : w'.Ordered
  last : w.lastBootTime ≤ w'.lastBootTime
  result : ∀ i b, w'.caller i = .returned b → w.caller i = .returned b ∨ w.lastBootTime ≤ b

theorem Advanced.refl (h : w.Ordered) : Advanced w w :=
  ⟨h, BitVec.le_refl _, fun _ _ hb => .inl hb⟩

theorem Advanced.trans {w₁ w₂ w₃ : TimeWorld κ} (h : Advanced w₁ w₂) (h' : Advanced w₂ w₃) :
    Advanced w₁ w₃ := by
  refine ⟨h'.ordered, BitVec.le_trans h.last h'.last, fun i b hb => ?_⟩
  rcases h'.result i b hb with hb₂ | hle
  · exact h.result i b hb₂
  · exact .inr (BitVec.le_trans h.last hle)

variable [DecidableEq κ]

/-- One call moves on and `last_boot_time` does not decrease. -/
theorem Ordered.advance (h : w.Ordered) {i : κ} {c : Caller} {last : BitVec 64}
    (hlast : w.lastBootTime ≤ last) (hc : c.Bounded last)
    (hresult : ∀ b, c = .returned b → w.lastBootTime ≤ b) :
    Advanced w ({ w with lastBootTime := last }.setCaller i c) := by
  refine ⟨fun j => ?_, hlast, fun j b hb => ?_⟩
  · by_cases hj : j = i
    · subst hj
      simpa [setCaller] using hc
    · simpa [setCaller, hj] using (h j).mono hlast
  · by_cases hj : j = i
    · subst hj
      exact .inr (hresult b (by simpa [setCaller] using hb))
    · exact .inl (by simpa [setCaller, hj] using hb)

/-- Every step of `BootTime(false)`. -/
theorem Ordered.next (h : w.Ordered) {e : TimeEvent κ} (he : e.Software)
    (hs : w.next e = some w') : Advanced w w' := by
  cases e with
  | start i useHwStable =>
      simp only [TimeWorld.next] at hs
      split at hs
      · cases hs
        exact h.advance (BitVec.le_refl _) he nofun
      · cases hs
  | raw i time flags =>
      simp only [TimeWorld.next] at hs
      split at hs
      · next useHwStable hi =>
          have hsoft := h i
          rw [hi] at hsoft
          -- the early return needs the stable bit
          rw [show useHwStable = false from hsoft, Bool.false_and] at hs
          cases hs
          exact h.advance (BitVec.le_refl _) trivial nofun
      · cases hs
  | load i =>
      simp only [TimeWorld.next] at hs
      split at hs
      · next time hi =>
          split at hs
          · cases hs
            exact h.advance (BitVec.le_refl _) (BitVec.le_refl _) fun b hb => by
              cases hb
              exact BitVec.le_refl _
          · next hgt =>
              cases hs
              exact h.advance (BitVec.le_refl _) (BitVec.not_le.mp hgt) nofun
      · cases hs
  | swap i =>
      simp only [TimeWorld.next] at hs
      split at hs
      · next time old hi =>
          have hlt := h i
          rw [hi] at hlt
          split at hs
          · next heq =>
              cases hs
              have hle : w.lastBootTime ≤ time := heq ▸ BitVec.le_of_lt hlt
              exact h.advance hle (BitVec.le_refl _) fun b hb => by
                cases hb
                exact hle
          · cases hs
            exact h.advance (BitVec.le_refl _) trivial nofun
      · cases hs

/-- Whole runs. -/
theorem Ordered.run (h : w.Ordered) (hrun : Run TimeWorld.next TimeEvent.Software w w') :
    Advanced w w' :=
  hrun.inv (Advanced.refl h) fun _ _ _ hadv he hs => hadv.trans (hadv.ordered.next he hs)

/-- In every interleaving of calls of `BootTime(false)`, `last_boot_time` never
decreases, and a call that begins after another has returned returns at least
its result. -/
theorem bootTime_monotone {last : BitVec 64} {s s' : TimeWorld κ}
    (hs : Run TimeWorld.next TimeEvent.Software (initial last) s)
    (hs' : Run TimeWorld.next TimeEvent.Software s s') :
    s.lastBootTime ≤ s'.lastBootTime ∧
      ∀ A B a b, s.caller A = .returned a → s.caller B = .idle → s'.caller B = .returned b →
        a ≤ b := by
  have hordered := ((ordered_initial last).run hs).ordered
  have hadv := hordered.run hs'
  refine ⟨hadv.last, fun A B a b hA hB hb => ?_⟩
  have hle : a ≤ s.lastBootTime := by
    have hbound := hordered A
    rw [hA] at hbound
    exact hbound
  rcases hadv.result B b hb with hret | hfloor
  · rw [hB] at hret
    cases hret
  · exact BitVec.le_trans hle hfloor

/-- A call that returns 9. -/
def firstCall : List (TimeEvent Nat) :=
  [.start 0 false, .raw 0 9#64 0#8, .load 0, .swap 0]

/-- A call with raw time 11 loses its compare-and-swap to one with raw time 12 and
returns that. -/
def laterCalls : List (TimeEvent Nat) :=
  [.start 1 false, .start 2 false, .raw 1 11#64 1#8, .load 1, .raw 2 12#64 0#8, .load 2, .swap 2,
    .swap 1, .load 1]

theorem bootTime_monotone_laterCalls :
    ∃ s s' : TimeWorld Nat, s.caller 0 = .returned 9#64 ∧ s.caller 1 = .idle ∧
      s'.caller 1 = .returned 12#64 ∧ s.lastBootTime ≤ s'.lastBootTime ∧ 9#64 ≤ 12#64 := by
  obtain ⟨s, hs⟩ : ∃ s, firstCall.foldlM TimeWorld.next (initial 0#64) = some s := ⟨_, rfl⟩
  have hrun := Run.of_events hs (G := TimeEvent.Software) (by simp [firstCall, TimeEvent.Software])
  obtain ⟨s', hs'⟩ : ∃ s', laterCalls.foldlM TimeWorld.next s = some s' := by
    cases hs
    exact ⟨_, rfl⟩
  have hrun' := Run.of_events hs' (G := TimeEvent.Software)
    (by simp [laterCalls, TimeEvent.Software])
  have h0 : s.caller 0 = .returned 9#64 := by cases hs; rfl
  have h1 : s.caller 1 = .idle := by cases hs; rfl
  have h1' : s'.caller 1 = .returned 12#64 := by cases hs; cases hs'; rfl
  obtain ⟨hlast, hcalls⟩ := bootTime_monotone hrun hrun'
  exact ⟨s, s', h0, h1, h1', hlast, hcalls 0 1 _ _ h0 h1 h1'⟩

end TimeWorld

end Chestnut
