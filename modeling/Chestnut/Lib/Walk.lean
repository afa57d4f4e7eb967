import Mathlib.Init
import Mathlib.Tactic.Common

/-!
# Walks over entries of varying length

A walk goes from entry to entry, each of which says how long it is, up to an end
that need not be the end of an entry. Nothing keeps such a walk from staying at an
entry of length zero for ever; the condition below is about the positions that it
comes to, and that it ends is proved from it.
-/

namespace Chestnut.Lib

variable {stop p : Int} {good : Int → Prop} {length : Int → Nat}

/-- The positions that a walk from `p` comes to. -/
inductive Visits (stop : Int) (length : Int → Nat) (p : Int) : Int → Prop
  | start : Visits stop length p p
  | step {q : Int} (h : Visits stop length p q) (hlt : q < stop) :
      Visits stop length p (q + length q)

/-- Every entry that the walk comes to is good and moves it. -/
def WalkWithin (stop : Int) (good : Int → Prop) (length : Int → Nat) (p : Int) : Prop :=
  ∀ q, Visits stop length p q → q < stop → good q ∧ length q ≠ 0

/-- The first step leads to the positions of the rest of the walk. -/
theorem Visits.cons (hlt : p < stop) {q : Int} (h : Visits stop length (p + length p) q) :
    Visits stop length p q := by
  induction h with
  | start => exact .step .start hlt
  | step _ hq ih => exact .step ih hq

theorem Visits.cases_start {q : Int} (h : Visits stop length p q) :
    q = p ∨ p < stop ∧ Visits stop length (p + length p) q := by
  induction h with
  | start => exact .inl rfl
  | step _ hq ih =>
      rcases ih with rfl | ⟨hlt, hrest⟩
      · exact .inr ⟨hq, .start⟩
      · exact .inr ⟨hlt, .step hrest hq⟩

namespace WalkWithin

theorem done (h : stop ≤ p) : WalkWithin stop good length p := by
  intro q hq hlt
  rcases hq.cases_start with rfl | ⟨hp, -⟩
  · exact absurd hlt (Int.not_lt.mpr h)
  · exact absurd hp (Int.not_lt.mpr h)

theorem entry (hgood : good p) (hlen : length p ≠ 0)
    (next : WalkWithin stop good length (p + length p)) : WalkWithin stop good length p := by
  intro q hq hlt
  rcases hq.cases_start with rfl | ⟨-, hrest⟩
  · exact ⟨hgood, hlen⟩
  · exact next q hrest hlt

/-- A walk over entries that move it comes to its end, so that an induction over it has a
last position: the distance to `stop` gets smaller. -/
theorem induct {motive : Int → Prop} (h : WalkWithin stop good length p)
    (done : ∀ p, stop ≤ p → motive p)
    (entry : ∀ p, p < stop → good p → motive (p + length p) → motive p) : motive p := by
  generalize hn : (stop - p).toNat = n
  induction n using Nat.strongRecOn generalizing p with
  | ind n ih =>
      by_cases hlt : p < stop
      · obtain ⟨hgood, hlen⟩ := h p .start hlt
        refine entry p hlt hgood (ih (stop - (p + length p)).toNat ?_ ?_ rfl)
        · omega
        · exact fun q hq hq' => h q (hq.cons hlt) hq'
      · exact done p (Int.not_lt.mp hlt)

end WalkWithin

end Chestnut.Lib
