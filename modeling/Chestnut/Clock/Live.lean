import Chestnut.Clock.Accuracy

/-!
# BootTime beside a running hypervisor

The record, the hypervisor that renews it and the guest that reads it, while the
time stamp counter advances. What is asked of the hypervisor is that a record it
publishes is one of its clock, taken at a counter value that has been reached, and
that the clock is read within 2^63 ns. Nothing is asked of the moments at which it
renews the record or sets the stable bit.

## Implementation notes

A pass reads the counter once, somewhere between its first and its second load of
the version: the value is fixed when the pass starts, is then at least the present
one, and is at most the present one at the second load.

The test of the loop accepts a mixture of two records where the hypervisor ends an
update between the second and the third load of its odd version. `next` has these
runs; `steadyNext` is `next` without them, and in the one of `bootTime_behind` a call
returns a time that is behind by all that passed since the update before.
-/

namespace Chestnut

open Lib Seqlock

/-- The shared record, the time stamp counter, and its value in the pass under way. -/
structure LiveClock where
  state : State TimeField.Val (BitVec 64 × BitVec 8)
  now : Nat
  tsc : BitVec 64

/-- The counter advances, the hypervisor renews the record, or the guest reads it. -/
inductive ClockEvent
  | tick (cycles : Nat)
  | begin
  | write (i : TimeField) (v : TimeField.Val i)
  | finish
  | start (tsc : BitVec 64)
  | load
  | recheck
  | test

namespace LiveClock

variable {k : HostClock} {w w' : LiveClock}

/-- What the hypervisor and the counter promise. -/
def Promised (k : HostClock) (w : LiveClock) : ClockEvent → Prop
  | .tick cycles => k.timeAt (w.now + cycles) < 2 ^ 63
  | .finish => k.Follows w.state.record ∧ BitVec.toNat (w.state.record .tscTs) ≤ w.now
  | .start tsc => w.now ≤ tsc.toNat
  | .recheck => w.tsc.toNat ≤ w.now
  | .begin | .write _ _ | .load | .test => True

instance : (e : ClockEvent) → Decidable (w.Promised k e)
  | .tick _ => inferInstanceAs (Decidable (_ < _))
  | .finish => inferInstanceAs (Decidable (_ ∧ _))
  | .start _ => inferInstanceAs (Decidable (_ ≤ _))
  | .recheck => inferInstanceAs (Decidable (_ ≤ _))
  | .begin => inferInstanceAs (Decidable True)
  | .write _ _ => inferInstanceAs (Decidable True)
  | .load => inferInstanceAs (Decidable True)
  | .test => inferInstanceAs (Decidable True)

/-- A step of the record or its reader; `tsc` is the counter value of the pass. -/
def step (w : LiveClock) (e : Event TimeField.Val (BitVec 64 × BitVec 8)) (tsc : BitVec 64) :
    Option LiveClock :=
  (Seqlock.next versionWrap w.state e).map fun s => ⟨s, w.now, tsc⟩

def next (k : HostClock) (w : LiveClock) (e : ClockEvent) : Option LiveClock :=
  if w.Promised k e then
    match e with
    | .tick cycles => some { w with now := w.now + cycles }
    | .begin => w.step .begin w.tsc
    | .write i v => w.step (.write i v) w.tsc
    | .finish => w.step .finish w.tsc
    | .start tsc => w.step (.start (bootTimeLoads tsc)) tsc
    | .load => w.step .load w.tsc
    | .recheck => w.step .recheck w.tsc
    | .test => w.step .test w.tsc
  else none

/-- The hypervisor does not end an update whose odd version the pass has just loaded twice,
and its counter does not come back to the version that the pass began with. -/
def Steady (w : LiveClock) : ClockEvent → Bool
  | .finish => steady versionWrap w.state .finish
  | _ => true

/-- The step function of the runs that meet the condition. -/
def steadyNext (k : HostClock) (w : LiveClock) (e : ClockEvent) : Option LiveClock :=
  if w.Steady e then w.next k e else none

/-- The record is published and nobody reads. -/
def start (r : TimeRecord) (now : Nat) : LiveClock := ⟨State.initial r, now, 0#64⟩

/-- The results of the calls of `BootTime()` on this clock, in order. -/
def results (w : LiveClock) : List (BitVec 64) :=
  bootTimes 0#64 (w.state.accepted.reverse.map fun x => ⟨x.2.1, x.2.2⟩)

/-! ### The invariant -/

/-- The counter was not behind the record when the pass began. -/
def Started (r : TimeRecord) (whole : Loads TimeField.Val (BitVec 64 × BitVec 8)) : Prop :=
  ∃ tsc, whole = bootTimeLoads tsc ∧ BitVec.toNat (r .tscTs) ≤ tsc.toNat

/-- An accepted pass that read the counter as `tsc`. -/
def Reads (k : HostClock) (x : Loads TimeField.Val (BitVec 64 × BitVec 8) × BitVec 64 × BitVec 8)
    (tsc : Nat) : Prop :=
  (∃ v : BitVec 64, v.toNat = tsc ∧ x.1 = bootTimeLoads v) ∧ Near (k.timeAt tsc) x.2.1

/-- The pass under way reads the counter after the passes at `tscs`, and before its second
load of the version. -/
def Passing (tsc : BitVec 64) (now : Nat) (tscs : List Nat) :
    Reader TimeField.Val (BitVec 64 × BitVec 8) → Prop
  | .idle => True
  | .reading _ whole _ => whole = bootTimeLoads tsc ∧ ∀ t ∈ tscs, t ≤ tsc.toNat
  | .checking _ _ whole _ =>
      whole = bootTimeLoads tsc ∧ (∀ t ∈ tscs, t ≤ tsc.toNat) ∧ tsc.toNat ≤ now

/-- The accepted passes, latest first, read the counter in order. -/
def Recorded (k : HostClock) (w : LiveClock) : Prop :=
  ∃ tscs, List.Forall₂ (Reads k) w.state.accepted tscs ∧ tscs.Pairwise (· ≥ ·) ∧
    (∀ t ∈ tscs, t ≤ w.now) ∧ Passing w.tsc w.now tscs w.state.reader

structure Inv (k : HostClock) (w : LiveClock) : Prop where
  whole : Seqlock.Inv Started w.state
  follows : ∀ p ∈ w.state.published, k.Follows p
  past : w.state.version % 2 = 0 → BitVec.toNat (w.state.record .tscTs) ≤ w.now
  bound : k.timeAt w.now < 2 ^ 63
  recorded : Recorded k w

/-- A record that shows the counter shifted by `shift - 1`. -/
def probe (shift : BitVec 8) : TimeRecord
  | .tscTs => 0#64
  | .sysTime => 0#64
  | .tscToSysMul => 0x80000000#32
  | .tscShift => shift
  | .flags => 0#8

theorem toNat_timeAt_probe (shift : BitVec 8) (a : BitVec 64) :
    ((probe shift).timeAt a).toNat = (shiftCycles a shift.toInt).toNat / 2 := by
  have hhalf : ((probe shift).timeAt a) = 0#64 + mulShift (shiftCycles (a - 0#64) shift.toInt)
    0x80000000#32 := rfl
  rw [hhalf, BitVec.zero_add, BitVec.sub_zero, toNat_mulShift]
  simp only [BitVec.toNat_ofNat]
  omega

/-- The upper bits and the lower bits of the counter can be read off two records. -/
theorem bootTimeLoads_injective : Function.Injective bootTimeLoads := by
  intro a b h
  have heval : ∀ shift, ((probe shift).timeAt a).toNat = ((probe shift).timeAt b).toNat := by
    intro shift
    have hr := congrArg (fun p => (Loads.eval (probe shift) p).1.toNat) h
    simpa only [eval_bootTimeLoads] using hr
  have hupper : (a >>> 0).toNat / 2 = (b >>> 0).toNat / 2 := by
    have h0 := heval 0#8
    rwa [toNat_timeAt_probe, toNat_timeAt_probe] at h0
  have hlower : (a <<< 1).toNat / 2 = (b <<< 1).toNat / 2 := by
    have h1 := heval 1#8
    rwa [toNat_timeAt_probe, toNat_timeAt_probe] at h1
  apply BitVec.eq_of_toNat_eq
  rw [BitVec.toNat_shiftLeft, BitVec.toNat_shiftLeft, Nat.shiftLeft_eq, Nat.shiftLeft_eq] at hlower
  rw [BitVec.toNat_ushiftRight, BitVec.toNat_ushiftRight] at hupper
  have ha := a.isLt
  have hb := b.isLt
  simp only [Nat.shiftRight_zero] at hupper
  omega

/-! ### The steps -/

section Steps

variable {s : State TimeField.Val (BitVec 64 × BitVec 8)} {tsc : BitVec 64}
  {e : Event TimeField.Val (BitVec 64 × BitVec 8)}

theorem step_eq_some (h : w.step e tsc = some w') :
    ∃ s, Seqlock.next versionWrap w.state e = some s ∧ w' = ⟨s, w.now, tsc⟩ := by
  obtain ⟨s, hs, rfl⟩ := Option.map_eq_some_iff.mp h
  exact ⟨s, hs, rfl⟩

/-- The counter advances. -/
theorem Inv.tick (I : Inv k w) {cycles : Nat} (hbound : k.timeAt (w.now + cycles) < 2 ^ 63) :
    Inv k { w with now := w.now + cycles } := by
  refine ⟨I.whole, I.follows, fun hv => (I.past hv).trans (Nat.le_add_right _ _), hbound, ?_⟩
  obtain ⟨tscs, hreads, hsorted, hnow, hpass⟩ := I.recorded
  refine ⟨tscs, hreads, hsorted, fun t ht => (hnow t ht).trans (Nat.le_add_right _ _), ?_⟩
  simp only [Passing] at hpass ⊢
  split
  · trivial
  · next hr =>
      rw [hr] at hpass
      exact hpass
  · next hr =>
      rw [hr] at hpass
      exact ⟨hpass.1, hpass.2.1, hpass.2.2.trans (Nat.le_add_right _ _)⟩

/-- A step of the hypervisor. -/
theorem Inv.host (I : Inv k w) (hs : steady versionWrap w.state e = true)
    (h : Seqlock.next versionWrap w.state e = some s) (he : ¬ e.OfReader)
    (hfollows : ∀ p ∈ s.published, k.Follows p)
    (hpast : s.version % 2 = 0 → BitVec.toNat (s.record .tscTs) ≤ w.now) :
    Inv k ⟨s, w.now, w.tsc⟩ := by
  obtain ⟨hreader, haccepted⟩ := next_of_writer he h
  refine ⟨I.whole.next two_dvd_versionWrap (fun whole hw => ?_) h hs, hfollows, hpast, I.bound, ?_⟩
  · subst hw
    exact absurd trivial he
  · obtain ⟨tscs, hreads, hsorted, hnow, hpass⟩ := I.recorded
    exact ⟨tscs, haccepted ▸ hreads, hsorted, hnow, hreader ▸ hpass⟩

/-- A step of the guest. -/
theorem Inv.guest (I : Inv k w) (h : Seqlock.next versionWrap w.state e = some s)
    (he : e.OfReader)
    (hstart : ∀ whole, e = .start whole → whole = bootTimeLoads tsc ∧ w.now ≤ tsc.toNat)
    (hrecorded : Seqlock.Inv Started s → Recorded k ⟨s, w.now, tsc⟩) :
    Inv k ⟨s, w.now, tsc⟩ := by
  obtain ⟨hversion, hrecord, hpublished⟩ := next_of_reader he h
  have W : Seqlock.Inv Started s := by
    refine I.whole.next two_dvd_versionWrap (fun whole hw hv => ?_) h (steady_of_reader he)
    obtain ⟨hwhole, hnow⟩ := hstart whole hw
    exact ⟨tsc, hwhole, (I.past hv).trans hnow⟩
  refine ⟨W, ?_, ?_, I.bound, hrecorded W⟩
  · rw [hpublished]
    exact I.follows
  · rw [hversion, hrecord]
    exact I.past

/-- The guest accepts a pass. -/
theorem Recorded.accept (hrec : Recorded k w) (hbound : k.timeAt w.now < 2 ^ 63)
    {v₁ v₂ : Nat} {whole : Loads TimeField.Val (BitVec 64 × BitVec 8)} {a : BitVec 64 × BitVec 8}
    (hr : w.state.reader = .checking v₁ v₂ whole a) {published : List TimeRecord}
    (hfollows : ∀ p ∈ published, k.Follows p) (ha : WholeFor Started published whole a) :
    Recorded k { w with state := { w.state with
      reader := .idle, accepted := (whole, a) :: w.state.accepted } } := by
  obtain ⟨tscs, hreads, hsorted, hnow, hpass⟩ := hrec
  rw [hr] at hpass
  obtain ⟨hwhole, hafter, hlate⟩ := hpass
  obtain ⟨p, hp, ⟨tsc, hprogram, hts⟩, heval⟩ := ha
  obtain rfl : w.tsc = tsc := bootTimeLoads_injective (hwhole.symm.trans hprogram)
  have hnear : Near (k.timeAt w.tsc.toNat) a.1 := by
    rw [heval, hprogram, eval_bootTimeLoads]
    exact (hfollows p hp).near hts ((HostClock.timeAt_mono hlate).trans_lt hbound)
  exact ⟨w.tsc.toNat :: tscs, .cons ⟨⟨w.tsc, rfl, hwhole⟩, hnear⟩ hreads,
    List.pairwise_cons.mpr ⟨hafter, hsorted⟩, List.forall_mem_cons.mpr ⟨hlate, hnow⟩, trivial⟩

/-- The invariant rule, event by event. -/
theorem Inv.next (I : Inv k w) {e : ClockEvent} (hsteady : w.Steady e = true)
    (h : w.next k e = some w') : Inv k w' := by
  unfold LiveClock.next at h
  rw [Option.ite_none_right_eq_some] at h
  obtain ⟨hpromised, h⟩ := h
  cases e with
  | tick cycles =>
      cases h
      exact I.tick hpromised
  | begin =>
      obtain ⟨s, hnext, rfl⟩ := step_eq_some h
      refine I.host rfl hnext id ?_ ?_
      · simp only [Seqlock.next, Option.ite_none_right_eq_some, Option.some.injEq] at hnext
        obtain ⟨-, rfl⟩ := hnext
        exact I.follows
      · simp only [Seqlock.next, Option.ite_none_right_eq_some, Option.some.injEq] at hnext
        obtain ⟨heven, rfl⟩ := hnext
        -- an update is in progress
        have hodd := bump_mod_two two_dvd_versionWrap w.state.version
        intro hv
        simp only at hv
        omega
  | write i v =>
      obtain ⟨s, hnext, rfl⟩ := step_eq_some h
      refine I.host rfl hnext id ?_ ?_
      · simp only [Seqlock.next, Option.ite_none_right_eq_some, Option.some.injEq] at hnext
        obtain ⟨-, rfl⟩ := hnext
        exact I.follows
      · simp only [Seqlock.next, Option.ite_none_right_eq_some, Option.some.injEq] at hnext
        obtain ⟨hodd, rfl⟩ := hnext
        intro hv
        simp only at hv
        omega
  | finish =>
      obtain ⟨s, hnext, rfl⟩ := step_eq_some h
      obtain ⟨hrecord, hts⟩ := hpromised
      refine I.host (e := .finish) hsteady hnext id ?_ ?_
      · simp only [Seqlock.next, Option.ite_none_right_eq_some, Option.some.injEq] at hnext
        obtain ⟨-, rfl⟩ := hnext
        exact List.forall_mem_cons.mpr ⟨hrecord, I.follows⟩
      · simp only [Seqlock.next, Option.ite_none_right_eq_some, Option.some.injEq] at hnext
        obtain ⟨-, rfl⟩ := hnext
        exact fun _ => hts
  | start tsc =>
      obtain ⟨s, hnext, rfl⟩ := step_eq_some h
      refine I.guest hnext trivial (fun whole hw => ?_) fun _ => ?_
      · cases hw
        exact ⟨rfl, hpromised⟩
      · obtain ⟨tscs, hreads, hsorted, hnow, -⟩ := I.recorded
        simp only [Seqlock.next] at hnext
        split at hnext
        · cases hnext
          exact ⟨tscs, hreads, hsorted, hnow, rfl, fun t ht => (hnow t ht).trans hpromised⟩
        · cases hnext
  | load =>
      obtain ⟨s, hnext, rfl⟩ := step_eq_some h
      refine I.guest hnext trivial (fun _ hw => by cases hw) fun _ => ?_
      obtain ⟨tscs, hreads, hsorted, hnow, hpass⟩ := I.recorded
      simp only [Seqlock.next] at hnext
      split at hnext
      · next hr =>
          cases hnext
          rw [hr] at hpass
          exact ⟨tscs, hreads, hsorted, hnow, hpass⟩
      · cases hnext
  | recheck =>
      obtain ⟨s, hnext, rfl⟩ := step_eq_some h
      refine I.guest hnext trivial (fun _ hw => by cases hw) fun _ => ?_
      obtain ⟨tscs, hreads, hsorted, hnow, hpass⟩ := I.recorded
      simp only [Seqlock.next] at hnext
      split at hnext
      · next hr =>
          cases hnext
          rw [hr] at hpass
          exact ⟨tscs, hreads, hsorted, hnow, hpass.1, hpass.2, hpromised⟩
      · cases hnext
  | test =>
      obtain ⟨s, hnext, rfl⟩ := step_eq_some h
      refine I.guest hnext trivial (fun _ hw => by cases hw) fun W => ?_
      simp only [Seqlock.next] at hnext
      split at hnext
      · next v₁ v₂ whole a hr =>
          split at hnext
          · cases hnext
            obtain ⟨tscs, hreads, hsorted, hnow, -⟩ := I.recorded
            exact ⟨tscs, hreads, hsorted, hnow, trivial⟩
          · cases hnext
            exact I.recorded.accept I.bound hr I.follows (W.accepted (whole, a) List.mem_cons_self)
      · cases hnext

end Steps

/-- The clock of the record that the constructor of `KvmSystemTime` presets. -/
def presetClock : HostClock where
  mul := 0x804efb06#32
  shift := 0xff#8
  origin := 0
  normalized := Nat.le_of_ble_eq_true rfl
  shift_lt := Nat.le_of_ble_eq_true rfl

/-- A pass that begins inside an update of the preset record at the counter value 1000, after
`tsc_ts` and before `sys_time` is stored; the update ends before the third load. -/
def tornRead : List ClockEvent :=
  [.tick 1000, .begin, .write .tscTs 1000#64, .start 1000#64, .load, .load, .load, .load, .load,
    .load, .load, .recheck, .write .sysTime 250#64, .finish, .test]

/-- The guest's test accepts the mixture of the two records, and the call is 250 ns behind. -/
theorem bootTime_behind :
    ∃ w, tornRead.foldlM (LiveClock.next presetClock) (start presetTime 0) = some w ∧
      w.results = [0#64] ∧ 250 ≤ presetClock.timeAt 1000 := by
  have hresults : (tornRead.foldlM (LiveClock.next presetClock) (start presetTime 0)).map
      results = some [0#64] := by decide +kernel
  obtain ⟨w, hw, hwresults⟩ := Option.map_eq_some_iff.mp hresults
  exact ⟨w, hw, hwresults, by decide +kernel⟩

end LiveClock

end Chestnut
