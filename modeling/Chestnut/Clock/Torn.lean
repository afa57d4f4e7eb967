import Chestnut.Clock.Model

/-!
# Whole and torn clock reads

What `BootClock` and `BootTime` compute from a record at rest, and when the
record they read while the hypervisor updates it is one it has published. The
retry test looks at the parity of a third load of the version: a pass that
lies inside an update reads one odd version twice and is accepted when the
update ends before the third load.
-/

namespace Chestnut

open Lib Seqlock

/-- The fields of `KvmWallClockInfo` as the hypervisor writes them. -/
abbrev WallRecord : Type := ∀ i, WallField.Val i

/-- The fields of `KvmCpuTimeInfo` as the hypervisor writes them. -/
abbrev TimeRecord : Type := ∀ i, TimeField.Val i

/-- `sec * 10^9 + nsec`, modulo `2^64`. -/
def WallRecord.nanos (r : WallRecord) : BitVec 64 :=
  BitVec.ofNat 64 (BitVec.toNat (r .sec) * 1000000000 + BitVec.toNat (r .nsec))

/-- A cycle count shifted by a signed amount. -/
def shiftCycles (time : BitVec 64) (shift : Int) : BitVec 64 :=
  if 0 < shift then time <<< (shift.toNat % 64) else time >>> ((-shift).toNat % 64)

/-- The time at the counter value `tsc`, every parameter from one record. -/
def TimeRecord.timeAt (r : TimeRecord) (tsc : BitVec 64) : BitVec 64 :=
  let shift : BitVec 8 := r .tscShift
  let sysTime : BitVec 64 := r .sysTime
  sysTime + mulShift (shiftCycles (tsc - r .tscTs) shift.toInt) (r .tscToSysMul)

theorem eval_bootClockLoads (r : WallRecord) : bootClockLoads.eval r = r.nanos := by
  rw [WallRecord.nanos, BitVec.ofNat_add, BitVec.ofNat_mul, BitVec.ofNat_toNat, BitVec.ofNat_toNat]
  rfl

/-- The branches of `ProcessorNano` reload the shift; on a record at rest they
agree on it. -/
theorem eval_processorNano (r : TimeRecord) (time : BitVec 64) :
    (processorNano time).eval r =
      mulShift (shiftCycles time (BitVec.toInt (r .tscShift))) (r .tscToSysMul) := by
  unfold processorNano shiftCycles
  rw [Loads.eval_bind, Loads.eval_get]
  split
  · rfl
  · rw [Loads.eval_bind, Loads.eval_get]
    split
    · rfl
    · have hzero : BitVec.toInt (r .tscShift) = 0 := by omega
      rw [hzero]
      rfl

theorem eval_bootTimeLoads (r : TimeRecord) (tsc : BitVec 64) :
    (bootTimeLoads tsc).eval r = (r.timeAt tsc, r .flags) := by
  unfold bootTimeLoads
  rw [Loads.eval_bind, Loads.eval_bind, Loads.eval_bind, eval_processorNano]
  rfl

/-- The guest's passes are those of `BootClock`. -/
def ReadsBootClock : Event WallField.Val (BitVec 64) → Prop
  | .start whole => whole = bootClockLoads
  | _ => True

/-- The guest's passes are those of `BootTime`. -/
def ReadsBootTime : Event TimeField.Val (BitVec 64 × BitVec 8) → Prop
  | .start whole => ∃ tsc, whole = bootTimeLoads tsc
  | _ => True

theorem two_dvd_versionWrap : 2 ∣ versionWrap := by decide

/-- As long as the hypervisor does not end an update between the second and the
third load of its odd version, and its counter does not wrap around within one
pass, a clock value accepted in any interleaving comes from one published
record. -/
theorem clock_reads_whole (r : WallRecord) (s : State WallField.Val (BitVec 64)) (q : TimeRecord)
    (u : State TimeField.Val (BitVec 64 × BitVec 8)) :
    (Run (steadyNext versionWrap) ReadsBootClock (State.initial r) s →
      ∀ x ∈ s.accepted, ∃ p ∈ s.published, x.2 = WallRecord.nanos p) ∧
    (Run (steadyNext versionWrap) ReadsBootTime (State.initial q) u →
      ∀ x ∈ u.accepted, ∃ p ∈ u.published, ∃ tsc,
        x.1 = bootTimeLoads tsc ∧ x.2 = (TimeRecord.timeAt p tsc, p .flags)) := by
  constructor
  · intro hrun x hx
    obtain ⟨hprogram, p, hp, hval⟩ :=
      whole_of_run (P := (· = bootClockLoads)) two_dvd_versionWrap (fun _ h => h) hrun x hx
    refine ⟨p, hp, ?_⟩
    rw [hval, hprogram, eval_bootClockLoads]
  · intro hrun x hx
    obtain ⟨⟨tsc, hprogram⟩, p, hp, hval⟩ :=
      whole_of_run (P := fun whole => ∃ tsc, whole = bootTimeLoads tsc) two_dvd_versionWrap
        (fun _ h => h) hrun x hx
    refine ⟨p, hp, tsc, hprogram, ?_⟩
    rw [hval, hprogram, eval_bootTimeLoads]

/-- The record of the constructor of `KvmWallClock`. -/
def zeroWall : WallRecord := fun _ => 0#32

/-- The record of the constructor of `KvmSystemTime`. -/
def presetTime : TimeRecord
  | .tscTs => 0#64
  | .sysTime => 0#64
  | .tscToSysMul => 0x804efb06#32
  | .tscShift => 0xff#8
  | .flags => tscStableBit

/-- The hypervisor publishes 1 s 5 ns, then the guest reads it. -/
def settledRead : List (Event WallField.Val (BitVec 64)) :=
  [.begin, .write .sec 1#32, .write .nsec 5#32, .finish, .start bootClockLoads, .load, .load,
    .recheck, .test]

/-- The hypervisor publishes a new base while the guest reads: the first pass is
dropped. -/
def retriedRead : List (Event TimeField.Val (BitVec 64 × BitVec 8)) :=
  [.start (bootTimeLoads 10#64), .load, .begin, .write .tscTs 8#64, .write .sysTime 40#64,
    .load, .load, .load, .load, .load, .load, .finish, .recheck, .test,
    .start (bootTimeLoads 12#64), .load, .load, .load, .load, .load, .load, .load, .recheck, .test]

theorem clock_reads_whole_settledRead :
    (∃ s, Run (steadyNext versionWrap) ReadsBootClock (State.initial zeroWall) s ∧
      s.accepted.map Prod.snd = [1000000005#64] ∧
      ∀ x ∈ s.accepted, ∃ p ∈ s.published, x.2 = WallRecord.nanos p) ∧
    ∃ s, Run (steadyNext versionWrap) ReadsBootTime (State.initial presetTime) s ∧
      s.accepted.map Prod.snd = [(41#64, 1#8)] ∧
      ∀ x ∈ s.accepted, ∃ p ∈ s.published, ∃ tsc,
        x.1 = bootTimeLoads tsc ∧ x.2 = (TimeRecord.timeAt p tsc, p .flags) := by
  have hguard : ∀ e ∈ settledRead, ReadsBootClock e := by
    simp [settledRead, ReadsBootClock]
  have hguard' : ∀ e ∈ retriedRead, ReadsBootTime e := by
    simp [retriedRead, ReadsBootTime]
  obtain ⟨s, hs⟩ : ∃ s,
      settledRead.foldlM (steadyNext versionWrap) (State.initial zeroWall) = some s := ⟨_, rfl⟩
  obtain ⟨u, hu⟩ : ∃ u,
      retriedRead.foldlM (steadyNext versionWrap) (State.initial presetTime) = some u := ⟨_, rfl⟩
  have hrun := Run.of_events hs hguard
  have hrun' := Run.of_events hu hguard'
  obtain ⟨hwall, htime⟩ := clock_reads_whole zeroWall s presetTime u
  refine ⟨⟨s, hrun, ?_, hwall hrun⟩, u, hrun', ?_, htime hrun'⟩
  · cases hs
    rfl
  · cases hu
    rfl

/-- The guest reads within the update and does its third load after it. -/
def tornRead : List (Event WallField.Val (BitVec 64)) :=
  [.begin, .write .sec 1#32, .start bootClockLoads, .load, .load, .recheck, .write .nsec 5#32,
    .finish, .test]

/-- `BootClock` returns 1 s while the records published are 0 s and 1 s 5 ns. -/
theorem bootClock_torn :
    ∃ s, Run (next versionWrap) ReadsBootClock (State.initial zeroWall) s ∧
      s.accepted.map Prod.snd = [1000000000#64] ∧
      s.published.map WallRecord.nanos = [1000000005#64, 0#64] ∧
      ¬ ∀ x ∈ s.accepted, ∃ p ∈ s.published, x.2 = WallRecord.nanos p := by
  have hguard : ∀ e ∈ tornRead, ReadsBootClock e := by
    simp [tornRead, ReadsBootClock]
  obtain ⟨s, hs⟩ : ∃ s, tornRead.foldlM (next versionWrap) (State.initial zeroWall) = some s :=
    ⟨_, rfl⟩
  have haccepted : s.accepted.map Prod.snd = [1000000000#64] := by
    cases hs
    rfl
  have hpublished : s.published.map WallRecord.nanos = [1000000005#64, 0#64] := by
    cases hs
    rfl
  refine ⟨s, Run.of_events hs hguard, haccepted, hpublished, fun hwhole => ?_⟩
  have hmem : 1000000000#64 ∈ s.accepted.map Prod.snd := haccepted ▸ List.mem_singleton_self _
  obtain ⟨x, hx, hval⟩ := List.mem_map.mp hmem
  obtain ⟨p, hp, hnanos⟩ := hwhole x hx
  have hin : 1000000000#64 ∈ s.published.map WallRecord.nanos :=
    List.mem_map.mpr ⟨p, hp, by rw [← hnanos, hval]⟩
  rw [hpublished] at hin
  revert hin
  decide

end Chestnut
