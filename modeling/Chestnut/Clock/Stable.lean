import Chestnut.Clock.Model
import Mathlib.Data.List.Induction

/-!
# BootTime across changes of the stable bit

With `use_hw_stable` a call returns the raw time as long as the hypervisor
declares it stable, and consults and moves `last_boot_time` only otherwise. The
two ways know nothing of each other: the results of a sequence of calls are
ordered exactly if the raw times are ordered wherever the flag changes.
-/

namespace Chestnut

open Lib

/-- What one call reads from the record: the raw time and the flags. -/
structure RawTime where
  time : BitVec 64
  flags : BitVec 8
  deriving DecidableEq, Repr

/-- The test of `kTscStableBit`. -/
def RawTime.Stable (c : RawTime) : Prop := c.flags &&& tscStableBit ≠ 0#8

instance (c : RawTime) : Decidable c.Stable := inferInstanceAs (Decidable (_ ≠ _))

/-- `BootTime` when no other call runs beside it: the result, and
`last_boot_time` afterwards. -/
def bootTime (useHwStable : Bool) (c : RawTime) (last : BitVec 64) : BitVec 64 × BitVec 64 :=
  if useHwStable ∧ c.Stable then (c.time, last)
  else if c.time ≤ last then (last, last)
  else (c.time, c.time)

/-- `last_boot_time` after a sequence of calls of `BootTime()`. -/
def lastAfter (last : BitVec 64) (cs : List RawTime) : BitVec 64 :=
  cs.foldl (fun last c => (bootTime true c last).2) last

/-- The results of a sequence of calls of `BootTime()`. -/
def bootTimes (last : BitVec 64) : List RawTime → List (BitVec 64)
  | [] => []
  | c :: cs => (bootTime true c last).1 :: bootTimes (bootTime true c last).2 cs

/-- The events of a call that runs alone. -/
def soloCall {κ : Type} (i : κ) (useHwStable : Bool) (c : RawTime) (last : BitVec 64) :
    List (TimeEvent κ) :=
  [.start i useHwStable, .raw i c.time c.flags] ++
    if useHwStable ∧ c.Stable then [] else if c.time ≤ last then [.load i] else [.load i, .swap i]

/-- The atomic steps of a call that runs alone amount to `bootTime`. -/
theorem bootTime_run {κ : Type} [DecidableEq κ] (w : TimeWorld κ) {i : κ}
    (hi : w.caller i = .idle) (useHwStable : Bool) (c : RawTime) :
    (soloCall i useHwStable c w.lastBootTime).foldlM TimeWorld.next w =
      some ⟨(bootTime useHwStable c w.lastBootTime).2, Function.update w.caller i
        (.returned (bootTime useHwStable c w.lastBootTime).1)⟩ := by
  unfold soloCall bootTime
  by_cases hs : useHwStable = true ∧ c.Stable
  · have htest : useHwStable = true ∧ ¬ c.flags &&& tscStableBit = 0#8 := hs
    rw [if_pos hs, if_pos hs]
    simp [TimeWorld.next, TimeWorld.setCaller, hi, htest]
  · have htest : ¬ (useHwStable = true ∧ ¬ c.flags &&& tscStableBit = 0#8) := hs
    rw [if_neg hs, if_neg hs]
    by_cases hle : c.time ≤ w.lastBootTime
    · simp [TimeWorld.next, TimeWorld.setCaller, hi, htest, hle]
    · simp [TimeWorld.next, TimeWorld.setCaller, hi, htest, hle]

/-- The events of calls of `BootTime()` one after the other. -/
def soloCalls (n : Nat) (last : BitVec 64) : List RawTime → List (TimeEvent Nat)
  | [] => []
  | c :: cs => soloCall n true c last ++ soloCalls (n + 1) (bootTime true c last).2 cs

/-- In the world of all interleavings such calls return `bootTimes`. -/
theorem bootTimes_run (n : Nat) (cs : List RawTime) (w : TimeWorld Nat)
    (hidle : ∀ j, n ≤ j → w.caller j = .idle) :
    ∃ w', (soloCalls n w.lastBootTime cs).foldlM TimeWorld.next w = some w' ∧
      (∀ j, j < n → w'.caller j = w.caller j) ∧
      (List.range' n cs.length).map w'.caller =
        (bootTimes w.lastBootTime cs).map Caller.returned := by
  induction cs generalizing n w with
  | nil => exact ⟨w, rfl, fun _ _ => rfl, rfl⟩
  | cons c cs ih =>
      have hcall := bootTime_run w (hidle n (Nat.le_refl n)) true c
      obtain ⟨w', hrun, hkept, hresults⟩ := ih (n + 1)
        ⟨(bootTime true c w.lastBootTime).2, Function.update w.caller n
          (.returned (bootTime true c w.lastBootTime).1)⟩ fun j hj => by
            simpa [Function.update_of_ne (show j ≠ n by omega)] using hidle j (by omega)
      refine ⟨w', ?_, fun j hj => ?_, ?_⟩
      · rw [soloCalls, List.foldlM_append, hcall]
        exact hrun
      · rw [hkept j (by omega)]
        exact Function.update_of_ne (by omega) _ _
      · have hn := hkept n (by omega)
        rw [List.length_cons, List.range'_succ, List.map_cons, hresults, hn]
        simp [bootTimes]

variable {last : BitVec 64} {cs pre : List RawTime} {c : RawTime}

/-- What the raw times have to satisfy where the flag changes: a stable time is
not below what an earlier call returned from `last_boot_time`, and a call that
goes back to `last_boot_time` finds there, or brings, every stable time
returned before. -/
def Continues (last : BitVec 64) (pre : List RawTime) (c : RawTime) : Prop :=
  if c.Stable then ∀ d ∈ pre, ¬ d.Stable → last ≤ c.time ∧ d.time ≤ c.time
  else ∀ d ∈ pre, d.Stable → d.time ≤ last ∨ ∃ e ∈ pre ++ [c], ¬ e.Stable ∧ d.time ≤ e.time

theorem lastAfter_append_singleton (last : BitVec 64) (pre : List RawTime) (c : RawTime) :
    lastAfter last (pre ++ [c]) = (bootTime true c (lastAfter last pre)).2 := by
  simp [lastAfter]

theorem bootTimes_append_singleton (last : BitVec 64) (pre : List RawTime) (c : RawTime) :
    bootTimes last (pre ++ [c]) =
      bootTimes last pre ++ [(bootTime true c (lastAfter last pre)).1] := by
  induction pre generalizing last with
  | nil => rfl
  | cons d pre ih => exact congrArg _ (ih _)

theorem bootTime_stable (hc : c.Stable) : bootTime true c last = (c.time, last) :=
  if_pos ⟨rfl, hc⟩

/-- The result is the larger of the raw time and `last_boot_time`, and stays
there. -/
theorem bootTime_unstable (hc : ¬ c.Stable) (last : BitVec 64) :
    ∃ r, bootTime true c last = (r, r) ∧ c.time ≤ r ∧ last ≤ r ∧ (r = c.time ∨ r = last) := by
  rw [bootTime, if_neg fun h => hc h.2]
  split
  · next hle => exact ⟨last, rfl, hle, BitVec.le_refl _, .inr rfl⟩
  · next hgt =>
      exact ⟨c.time, rfl, BitVec.le_refl _, BitVec.le_of_lt (BitVec.not_le.mp hgt), .inl rfl⟩

/-- `last_boot_time` is its first value or an unstable time, and bounds both. -/
theorem lastAfter_spec (last : BitVec 64) (pre : List RawTime) :
    last ≤ lastAfter last pre ∧ (∀ d ∈ pre, ¬ d.Stable → d.time ≤ lastAfter last pre) ∧
      (lastAfter last pre = last ∨ ∃ e ∈ pre, ¬ e.Stable ∧ lastAfter last pre = e.time) := by
  induction pre using List.reverseRecOn with
  | nil => exact ⟨BitVec.le_refl _, nofun, .inl rfl⟩
  | append_singleton pre c ih =>
      obtain ⟨hlast, hbound, hsource⟩ := ih
      have hold : lastAfter last pre = last ∨
          ∃ e ∈ pre ++ [c], ¬ e.Stable ∧ lastAfter last pre = e.time :=
        hsource.imp_right fun ⟨e, he, h⟩ => ⟨e, List.mem_append_left _ he, h⟩
      simp only [lastAfter_append_singleton, List.forall_mem_append, List.forall_mem_singleton]
      by_cases hc : c.Stable
      · rw [bootTime_stable hc]
        exact ⟨hlast, ⟨hbound, fun hu => absurd hc hu⟩, hold⟩
      · obtain ⟨r, hr, htime, hle, hsrc⟩ := bootTime_unstable hc (lastAfter last pre)
        rw [hr]
        refine ⟨BitVec.le_trans hlast hle,
          ⟨fun d hd hu => BitVec.le_trans (hbound d hd hu) hle, fun _ => htime⟩, ?_⟩
        rcases hsrc with rfl | rfl
        · exact .inr ⟨c, by simp, hc, rfl⟩
        · exact hold

/-- A result is a stable time, or at most `last_boot_time`. -/
theorem stable_or_le_lastAfter {r : BitVec 64} (hr : r ∈ bootTimes last pre) :
    (∃ d ∈ pre, d.Stable ∧ r = d.time) ∨
      (∃ d ∈ pre, ¬ d.Stable) ∧ r ≤ lastAfter last pre := by
  induction pre using List.reverseRecOn with
  | nil => cases hr
  | append_singleton pre c ih =>
      rw [bootTimes_append_singleton, List.mem_append, List.mem_singleton] at hr
      rw [lastAfter_append_singleton]
      by_cases hc : c.Stable
      · rw [bootTime_stable hc] at hr ⊢
        rcases hr with hr | rfl
        · rcases ih hr with ⟨d, hd, h⟩ | ⟨⟨d, hd, hu⟩, hle⟩
          · exact .inl ⟨d, List.mem_append_left _ hd, h⟩
          · exact .inr ⟨⟨d, List.mem_append_left _ hd, hu⟩, hle⟩
        · exact .inl ⟨c, by simp, hc, rfl⟩
      · obtain ⟨r', hr', -, hlast, -⟩ := bootTime_unstable hc (lastAfter last pre)
        rw [hr'] at hr ⊢
        rcases hr with hr | rfl
        · rcases ih hr with ⟨d, hd, h⟩ | ⟨-, hle⟩
          · exact .inl ⟨d, List.mem_append_left _ hd, h⟩
          · exact .inr ⟨⟨c, by simp, hc⟩, BitVec.le_trans hle hlast⟩
        · exact .inr ⟨⟨c, by simp, hc⟩, BitVec.le_refl _⟩

/-- Every call has its result. -/
theorem exists_result {d : RawTime} (hd : d ∈ pre) (last : BitVec 64) :
    ∃ r ∈ bootTimes last pre, d.time ≤ r ∧ (d.Stable → r = d.time) ∧ (¬ d.Stable → last ≤ r) := by
  induction pre using List.reverseRecOn with
  | nil => cases hd
  | append_singleton pre c ih =>
      rw [bootTimes_append_singleton]
      rcases List.mem_append.mp hd with hd | hd
      · obtain ⟨r, hr, h⟩ := ih hd
        exact ⟨r, List.mem_append_left _ hr, h⟩
      · rw [List.mem_singleton.mp hd]
        refine ⟨_, List.mem_append_right _ (List.mem_singleton_self _), ?_⟩
        by_cases hc : c.Stable
        · rw [bootTime_stable hc]
          exact ⟨BitVec.le_refl _, fun _ => rfl, fun h => absurd hc h⟩
        · obtain ⟨r, hr, htime, hle, -⟩ := bootTime_unstable hc (lastAfter last pre)
          rw [hr]
          exact ⟨htime, fun h => absurd h hc,
            fun _ => BitVec.le_trans (lastAfter_spec last pre).1 hle⟩

/-- A stable call after calls whose stable times it does not undercut. -/
theorem results_le_stable_iff (hc : c.Stable) (hstable : ∀ d ∈ pre, d.Stable → d.time ≤ c.time) :
    (∀ r ∈ bootTimes last pre, r ≤ c.time) ↔ Continues last pre c := by
  rw [Continues, if_pos hc]
  constructor
  · intro h d hd hu
    obtain ⟨r, hr, hle, -, hge⟩ := exists_result hd last
    exact ⟨BitVec.le_trans (hge hu) (h r hr), BitVec.le_trans hle (h r hr)⟩
  · intro h r hr
    rcases stable_or_le_lastAfter hr with ⟨d, hd, hs, rfl⟩ | ⟨⟨d, hd, hu⟩, hle⟩
    · exact hstable d hd hs
    · apply BitVec.le_trans hle
      rcases (lastAfter_spec last pre).2.2 with heq | ⟨e, he, hue, heq⟩
      · rw [heq]
        exact (h d hd hu).1
      · rw [heq]
        exact (h e he hue).2

/-- A call that goes back to `last_boot_time`. -/
theorem results_le_unstable_iff (hc : ¬ c.Stable) :
    (∀ r ∈ bootTimes last pre, r ≤ (bootTime true c (lastAfter last pre)).1) ↔
      Continues last pre c := by
  obtain ⟨hlast, hbound, hsource⟩ := lastAfter_spec last pre
  obtain ⟨top, htop, htime, hle, hsrc⟩ := bootTime_unstable hc (lastAfter last pre)
  rw [htop, Continues, if_neg hc]
  constructor
  · intro h d hd hs
    obtain ⟨r, hr, -, heq, -⟩ := exists_result hd last
    have hdle : d.time ≤ top := heq hs ▸ h r hr
    rcases hsrc with rfl | rfl
    · exact .inr ⟨c, by simp, hc, hdle⟩
    · rcases hsource with he | ⟨e, he, hue, heq⟩
      · exact .inl (he ▸ hdle)
      · exact .inr ⟨e, List.mem_append_left _ he, hue, heq ▸ hdle⟩
  · intro h r hr
    rcases stable_or_le_lastAfter hr with ⟨d, hd, hs, rfl⟩ | ⟨-, hrle⟩
    · rcases h d hd hs with hdle | ⟨e, he, hue, hdle⟩
      · exact BitVec.le_trans hdle (BitVec.le_trans hlast hle)
      · apply BitVec.le_trans hdle
        rcases List.mem_append.mp he with he | he
        · exact BitVec.le_trans (hbound e he hue) hle
        · exact (List.mem_singleton.mp he) ▸ htime
    · exact BitVec.le_trans hrle hle

/-- One more call stays in order exactly if it continues the sequence. -/
theorem results_le_iff (hstable : c.Stable → ∀ d ∈ pre, d.Stable → d.time ≤ c.time) :
    (∀ r ∈ bootTimes last pre, r ≤ (bootTime true c (lastAfter last pre)).1) ↔
      Continues last pre c := by
  by_cases hc : c.Stable
  · rw [bootTime_stable hc]
    exact results_le_stable_iff hc (hstable hc)
  · exact results_le_unstable_iff hc

theorem forall_split_append_singleton {P : List RawTime → RawTime → Prop} :
    (∀ p d post, pre ++ [c] = p ++ d :: post → P p d) ↔
      (∀ p d post, pre = p ++ d :: post → P p d) ∧ P pre c := by
  constructor
  · intro h
    refine ⟨fun p d post heq => h p d (post ++ [c]) (by simp [heq]), h pre c [] rfl⟩
  · rintro ⟨h, hc⟩ p d post heq
    rcases List.eq_nil_or_concat post with rfl | ⟨post, e, rfl⟩
    · obtain ⟨rfl, h1⟩ := List.append_inj' heq rfl
      cases h1
      exact hc
    · rw [List.concat_eq_append, ← List.cons_append, ← List.append_assoc] at heq
      exact h p d post (List.append_inj' heq rfl).1

/-- For every sequence of calls whose stable times are ordered among themselves,
the results are ordered exactly if every call continues those before it. -/
theorem bootTimes_ordered_iff (last : BitVec 64) (cs : List RawTime)
    (hstable : cs.Pairwise fun d c => d.Stable → c.Stable → d.time ≤ c.time) :
    (bootTimes last cs).Pairwise (· ≤ ·) ↔
      ∀ pre c post, cs = pre ++ c :: post → Continues last pre c := by
  induction cs using List.reverseRecOn with
  | nil => simp [bootTimes]
  | append_singleton pre c ih =>
      rw [List.pairwise_append] at hstable
      obtain ⟨hpre, -, hcross⟩ := hstable
      rw [forall_split_append_singleton, ← ih hpre, bootTimes_append_singleton,
        List.pairwise_append, ← results_le_iff fun hc d hd hs => hcross d hd c (by simp) hs hc]
      simp

/-- The clock is stable at 50 after a call with the flag clear has returned 100. -/
def switchedOn : List RawTime := [⟨100#64, 0#8⟩, ⟨50#64, 1#8⟩]

theorem switchedOn_not_ordered :
    (switchedOn.Pairwise fun d c => d.Stable → c.Stable → d.time ≤ c.time) ∧
      bootTimes 0#64 switchedOn = [100#64, 50#64] ∧
      ¬ (bootTimes 0#64 switchedOn).Pairwise (· ≤ ·) := by
  decide

/-- Stable, back to `last_boot_time`, and stable again. -/
def switchedTwice : List RawTime := [⟨5#64, 1#8⟩, ⟨7#64, 0#8⟩, ⟨6#64, 0#8⟩, ⟨8#64, 1#8⟩]

theorem bootTimes_ordered_iff_switchedTwice :
    (bootTimes 0#64 switchedTwice).Pairwise (· ≤ ·) ∧
      ∀ pre c post, switchedTwice = pre ++ c :: post → Continues 0#64 pre c := by
  have hordered : (bootTimes 0#64 switchedTwice).Pairwise (· ≤ ·) := by decide
  exact ⟨hordered, (bootTimes_ordered_iff 0#64 switchedTwice (by decide)).mp hordered⟩

end Chestnut
