import Chestnut.Acpi.Smp

/-!
# Which processors are started

`BootSmp` sends an INIT and a STARTUP command to every processor whose id is
not the number in the ID register (`bootSmp_sent`). The register holds the id
in its highest byte, and the number is compared as it stands; whether a
processor is enabled is not asked.
-/

namespace Chestnut

open Lib LocalApicInterruptCommand

namespace LocalApicInterruptCommand

/-- The APIC finds the destination that the constructor was given. -/
theorem dest_construct (vectorNum : BitVec 8) (dmode : DeliveryMode) (destmode : DestinationMode)
    (isNoDeassert triggerMode : Bool) (dshort : DestinationShorthand) (x : BitVec 8) :
    (construct vectorNum dmode destmode isNoDeassert triggerMode dshort x).dest = x := by
  have hshift : ∀ x : BitVec 8, (x.setWidth 32 <<< 24).extractLsb' 24 8 = x := by decide +kernel
  exact hshift x

/-- Only the lower word says what is asked. -/
theorem request_congr {c c' : LocalApicInterruptCommand} (h : c.lo = c'.lo) :
    c.request = c'.request := by
  unfold request
  rw [h]

end LocalApicInterruptCommand

namespace LocalApic

@[simp] theorem dest_initCommand (x : BitVec 8) : (initCommand x).dest = x :=
  dest_construct _ _ _ _ _ _ x

@[simp] theorem dest_startupCommand (x v : BitVec 8) : (startupCommand x v).dest = x :=
  dest_construct _ _ _ _ _ _ x

@[simp] theorem request_initCommand (x : BitVec 8) : (initCommand x).request = .init := by
  have hzero : (initCommand 0#8).request = .init := by decide +kernel
  have hlo : (initCommand x).lo = (initCommand 0#8).lo := rfl
  rw [request_congr hlo, hzero]

@[simp] theorem request_startupCommand (x v : BitVec 8) :
    (startupCommand x v).request = .startup v := by
  have hzero : ∀ v, (startupCommand 0#8 v).request = .startup v := by decide +kernel
  have hlo : (startupCommand x v).lo = (startupCommand 0#8 v).lo := rfl
  rw [request_congr hlo, hzero]

variable {d : SmpMachine}

theorem sendApicInit_eq (x : BitVec 8) : sendApicInit x d =
    { d with commandHi := (initCommand x).hi, sent := d.sent ++ [initCommand x] } := by
  have hcommand : (⟨(initCommand x).hi, (initCommand x).lo⟩ : LocalApicInterruptCommand) =
    initCommand x := rfl
  simp only [sendApicInit, interruptCommand, SmpMachine.write, SmpMachine.deliver, hcommand,
    request_initCommand]

theorem sendApicStartup_eq (x v : BitVec 8) : sendApicStartup x v d =
    SmpMachine.settle { d with
      commandHi := (startupCommand x v).hi
      sent := d.sent ++ [startupCommand x v]
      starting := (d.delay x).toList ++ d.starting } := by
  have hcommand : (⟨(startupCommand x v).hi, (startupCommand x v).lo⟩ :
    LocalApicInterruptCommand) = startupCommand x v := rfl
  simp only [sendApicStartup, interruptCommand, SmpMachine.write, SmpMachine.deliver, hcommand,
    request_startupCommand, dest_startupCommand]

end LocalApic

namespace Smp

open LocalApic

variable {r : BitVec 32} {cpus : List AcpiCPU} {boot : AcpiCPU} {d d' : SmpMachine}

/-- The processors that `BootSmp` does not take for the boot processor. -/
def others (r : BitVec 32) (cpus : List AcpiCPU) : List AcpiCPU := cpus.filter (! isBsp r ·)

/-- Nothing is on its way, and the counter agrees with `cpus_started`. -/
structure Quiet (cpusStarted : BitVec 16) (d : SmpMachine) : Prop where
  counter : d.counter = cpusStarted
  starting : d.starting = []

/-! ### The first loop -/

theorem initAll_sent : (initAll r cpus d).sent =
    d.sent ++ (others r cpus).map fun c => initCommand (apicid c) := by
  induction cpus generalizing d with
  | nil => simp [initAll, others]
  | cons c cpus ih =>
      rw [initAll]
      split
      · next hbsp => simp [ih, others, hbsp]
      · next hbsp => simp [ih, others, hbsp, sendApicInit_eq]

theorem initAll_delay : (initAll r cpus d).delay = d.delay := by
  induction cpus generalizing d with
  | nil => rfl
  | cons c cpus ih =>
      rw [initAll]
      split <;> rw [ih]
      rw [sendApicInit_eq]

theorem Quiet.initAll {s : BitVec 16} (q : Quiet s d) : Quiet s (initAll r cpus d) := by
  induction cpus generalizing d with
  | nil => exact q
  | cons c cpus ih =>
      rw [Smp.initAll]
      split
      · exact ih q
      · rw [sendApicInit_eq]
        exact ih ⟨q.counter, q.starting⟩

/-! ### Waiting for a processor -/

theorem fuelMono_await (s : BitVec 16) (d : SmpMachine) : FuelMono fun n => await s n d :=
  whileLoop_mono (fuelMono_pureBody _) d

/-- Waiting sends nothing. -/
theorem await_sent {s : BitVec 16} {n : Nat} (h : await s n d = some (.ok d')) :
    d'.sent = d.sent := by
  have hends := ends_of_whileLoop h
  clear h
  generalize hres : (Except.ok d' : Except Fault SmpMachine) = res at hends
  induction hends with
  | done hg =>
      cases hres
      rfl
  | fault hg hb => cases hres
  | turn hg hb hend ih =>
      cases hb
      exact ih hres

/-- A processor that takes `k` more pauses is waited for. -/
theorem await_settles (k : Nat) {s : BitVec 16} (hs : d.counter = s) :
    Settles (ε := Fault) (fun d => d.counter != s + 1#16) (pureBody SmpMachine.pause)
      (SmpMachine.settle { d with starting := [k] })
      (fun d' => Quiet (s + 1#16) d' ∧ d'.delay = d.delay) (fun _ => False) := by
  induction k with
  | zero =>
      refine .done ?_ ?_
      · simp [SmpMachine.settle, hs]
      · exact ⟨⟨by simp [SmpMachine.settle, hs], rfl⟩, rfl⟩
  | succ k ih =>
      have hcounter : (SmpMachine.settle { d with starting := [k + 1] }).counter = s := by
        simp [SmpMachine.settle, hs]
      have hpause : SmpMachine.pause (SmpMachine.settle { d with starting := [k + 1] }) =
          SmpMachine.settle { d with starting := [k] } := by
        simp [SmpMachine.pause, SmpMachine.settle]
      refine .turn ?_ (returns_const (meets_ok.mpr ?_))
      · rw [hcounter]
        simp
      · rw [hpause]
        exact ih

/-! ### The second loop -/

theorem fuelMono_startAll (s : BitVec 16) (d : SmpMachine) :
    FuelMono fun n => startAll r n cpus s d := by
  induction cpus generalizing s d with
  | nil => exact fuelMono_const _
  | cons c cpus ih =>
      simp only [startAll]
      split
      · exact ih s d
      · exact fuelMono_andThen (fuelMono_await _ _) fun _ => ih _ _

theorem startAll_sent {s : BitVec 16} {n : Nat} (h : startAll r n cpus s d = some (.ok d')) :
    d'.sent = d.sent ++ (others r cpus).map fun c => startupCommand (apicid c) startupVec := by
  induction cpus generalizing s d with
  | nil =>
      cases h
      simp [others]
  | cons c cpus ih =>
      rw [startAll] at h
      split at h
      · next hbsp => simpa [others, hbsp] using ih h
      · next hbsp =>
          obtain ⟨d₁, hwait, hrest⟩ := andThen_eq_ok h
          rw [ih hrest, await_sent hwait, sendApicStartup_eq]
          simp [SmpMachine.settle, others, hbsp]

/-- The loop comes to an end if every processor it starts counts itself. -/
theorem startAll_returns {s : BitVec 16} (q : Quiet s d)
    (hdelay : ∀ c ∈ others r cpus, (d.delay (apicid c)).isSome) :
    Returns (fun n => startAll r n cpus s d) (fun _ => True) (fun _ => False) := by
  induction cpus generalizing s d with
  | nil => exact returns_const (meets_ok.mpr trivial)
  | cons c cpus ih =>
      simp only [startAll]
      split
      · next hbsp =>
          refine ih q fun c' hc' => hdelay c' ?_
          simpa [others, hbsp] using hc'
      · next hbsp =>
          have hothers : others r (c :: cpus) = c :: others r cpus := by simp [others, hbsp]
          rw [hothers] at hdelay
          obtain ⟨k, hk⟩ := Option.isSome_iff_exists.mp (hdelay c List.mem_cons_self)
          have hsent : sendApicStartup (apicid c) startupVec d = SmpMachine.settle
              { d with
                commandHi := (startupCommand (apicid c) startupVec).hi
                sent := d.sent ++ [startupCommand (apicid c) startupVec]
                starting := [k] } := by
            rw [sendApicStartup_eq, hk, q.starting]
            rfl
          rw [hsent]
          have hwait := (await_settles k (s := s) (d := { d with
            commandHi := (startupCommand (apicid c) startupVec).hi
            sent := d.sent ++ [startupCommand (apicid c) startupVec] }) q.counter).returns
              (fuelMono_pureBody _)
          refine hwait.andThen (fuelMono_await _ _) (fun _ => fuelMono_startAll _ _) ?_
          rintro d₁ ⟨q₁, hd₁⟩
          refine ih q₁ fun c' hc' => ?_
          rw [hd₁]
          exact hdelay c' (List.mem_cons_of_mem _ hc')

/-! ### The commands -/

/-- Every INIT command comes before every STARTUP command. -/
theorem bootSmp_sent {n : Nat} (h : bootSmp cpus n d = some (.ok d')) :
    d'.sent = d.sent ++ (((others d.id cpus).map fun c => initCommand (apicid c)) ++
      (others d.id cpus).map fun c => startupCommand (apicid c) startupVec) := by
  rw [startAll_sent h, initAll_sent, List.append_assoc]
  rfl

/-- What is asked of the processor with this id, in the order of the commands. -/
def requestsTo (x : BitVec 8) (d : SmpMachine) : List Request :=
  (d.sent.filter (·.dest = x)).map request

/-- The local APIC of the boot processor before `BootSmp`; what the other processors do is
left open. -/
structure Fresh (boot : AcpiCPU) (d : SmpMachine) : Prop where
  id : d.id.extractLsb' 24 8 = apicid boot
  sent : d.sent = []
  quiet : Quiet 0#16 d

/-- The processor is enabled and is not the boot processor. -/
def Wanted (boot c : AcpiCPU) : Prop := c.enabled = true ∧ c.localApicId ≠ boot.localApicId

instance (boot c : AcpiCPU) : Decidable (Wanted boot c) := by unfold Wanted; infer_instance

/-- Each wanted processor gets one INIT and then one STARTUP command, and no other gets any. -/
def StartsWanted (cpus : List AcpiCPU) (boot : AcpiCPU) (d : SmpMachine) : Prop :=
  Returns (fun n => bootSmp cpus n d)
    (fun d' => ∀ x, requestsTo x d' =
      if ∃ c ∈ cpus, Wanted boot c ∧ apicid c = x then [.init, .startup startupVec] else [])
    (fun _ => False)

/-- A processor table: the ids are distinct and fit in eight bits. -/
structure Table (cpus : List AcpiCPU) : Prop where
  nodup : (cpus.map AcpiCPU.localApicId).Nodup
  small : ∀ c ∈ cpus, c.localApicId < 2 ^ 8

theorem mem_others {c : AcpiCPU} : c ∈ others r cpus ↔ c ∈ cpus ∧ c.localApicId ≠ r.toNat := by
  simp [others, isBsp]

theorem Table.apicid_inj (T : Table cpus) {c c' : AcpiCPU} (hc : c ∈ cpus) (hc' : c' ∈ cpus)
    (h : apicid c = apicid c') : c = c' := by
  have hlt := T.small c hc
  have hlt' := T.small c' hc'
  have hid : c.localApicId = c'.localApicId := by
    have htoNat := congrArg BitVec.toNat h
    simp only [apicid, BitVec.toNat_ofNat] at htoNat
    omega
  exact List.inj_on_of_nodup_map T.nodup hc hc' hid

theorem Table.others (T : Table cpus) : Table (others r cpus) where
  nodup := T.nodup.sublist (List.filter_sublist.map _)
  small c hc := T.small c (mem_others.mp hc).1

/-- At most one processor has the id. -/
theorem Table.filter_apicid (T : Table cpus) {c : AcpiCPU} (hc : c ∈ cpus) :
    cpus.filter (apicid · = apicid c) = [c] := by
  have hsame : cpus.filter (apicid · = apicid c) = cpus.filter (· == c) := by
    refine List.filter_congr fun c' hc' => ?_
    rw [Bool.eq_iff_iff, decide_eq_true_iff, beq_iff_eq]
    exact ⟨T.apicid_inj hc' hc, congrArg apicid⟩
  rw [hsame, List.filter_beq, List.count_eq_one_of_mem T.nodup.of_map hc]
  rfl

theorem requestsTo_eq (T : Table cpus) {n : Nat} (h : bootSmp cpus n d = some (.ok d'))
    (hsent : d.sent = []) (x : BitVec 8) :
    requestsTo x d' = if ∃ c ∈ others d.id cpus, apicid c = x
      then [.init, .startup startupVec] else [] := by
  have hrequests : requestsTo x d' =
      (((others d.id cpus).filter (apicid · = x)).map fun _ => Request.init) ++
        ((others d.id cpus).filter (apicid · = x)).map fun _ => Request.startup startupVec := by
    rw [requestsTo, bootSmp_sent h, hsent, List.nil_append, List.filter_append, List.map_append,
      List.filter_map, List.filter_map, List.map_map, List.map_map]
    simp [Function.comp_def]
  rw [hrequests]
  split
  · next hex =>
      obtain ⟨c, hc, rfl⟩ := hex
      rw [T.others.filter_apicid hc]
      rfl
  · next hnone =>
      have hempty : (others d.id cpus).filter (apicid · = x) = [] := by
        refine List.filter_eq_nil_iff.mpr fun c hc heq => hnone ⟨c, hc, ?_⟩
        simpa using heq
      rw [hempty]
      rfl

/-- An id names one processor of the table, so what holds of it holds of the processor. -/
theorem Table.exists_apicid_iff (T : Table cpus) {P : AcpiCPU → Prop} {c : AcpiCPU}
    (hc : c ∈ cpus) : (∃ c' ∈ cpus, P c' ∧ apicid c' = apicid c) ↔ P c := by
  constructor
  · rintro ⟨c', hc', hP, heq⟩
    rwa [← T.apicid_inj hc' hc heq]
  · exact fun hP => ⟨c, hc, hP, rfl⟩

/-- `BootSmp` comes to an end if every processor it starts counts itself. -/
theorem bootSmp_returns (q : Quiet 0#16 d)
    (hdelay : ∀ c ∈ others d.id cpus, (d.delay (apicid c)).isSome) :
    ∃ n d', bootSmp cpus n d = some (.ok d') := by
  have hstarted : ∀ c ∈ others d.id cpus,
      ((initAll d.id cpus d).delay (apicid c)).isSome := by
    rwa [initAll_delay]
  obtain ⟨n, res, hrun, hmeets⟩ := startAll_returns q.initAll hstarted
  cases res with
  | error e => exact (meets_error.mp hmeets).elim
  | ok d' => exact ⟨n, d', hrun⟩

/-- The commands go where they should exactly if the comparison leaves the wanted processors. -/
theorem startsWanted_iff_ne_id (T : Table cpus) (F : Fresh boot d)
    (hcount : ∀ c ∈ cpus, Wanted boot c → (d.delay (apicid c)).isSome) :
    StartsWanted cpus boot d ↔ ∀ c ∈ cpus, Wanted boot c ↔ c.localApicId ≠ d.id.toNat := by
  have hothers : ∀ x, (∃ c ∈ others d.id cpus, apicid c = x) ↔
      ∃ c ∈ cpus, c.localApicId ≠ d.id.toNat ∧ apicid c = x := by
    simp only [mem_others, and_assoc, implies_true]
  constructor
  · rintro ⟨n, res, hrun, hmeets⟩ c hc
    cases res with
    | error e => exact (meets_error.mp hmeets).elim
    | ok d' =>
        have hx := meets_ok.mp hmeets (apicid c)
        simp only [requestsTo_eq T hrun F.sent, hothers, T.exists_apicid_iff hc] at hx
        by_cases hw : Wanted boot c <;> by_cases hne : c.localApicId ≠ d.id.toNat <;>
          simp_all
  · intro hiff
    have hdelay : ∀ c ∈ others d.id cpus, (d.delay (apicid c)).isSome := by
      intro c hc
      obtain ⟨hmem, hne⟩ := mem_others.mp hc
      exact hcount c hmem ((hiff c hmem).mpr hne)
    obtain ⟨n, d', hrun⟩ := bootSmp_returns F.quiet hdelay
    refine ⟨n, .ok d', hrun, meets_ok.mpr fun x => ?_⟩
    have hsame : (∃ c ∈ cpus, Wanted boot c ∧ apicid c = x) ↔
        ∃ c ∈ others d.id cpus, apicid c = x := by
      rw [hothers]
      exact exists_congr fun c => and_congr_right fun hc => and_congr_left' (hiff c hc)
    simp only [requestsTo_eq T hrun F.sent, hsame]

/-- The number in the register is the id of the boot processor only for id 0. -/
theorem Fresh.eq_id_iff (F : Fresh boot d) (hsmall : boot.localApicId < 2 ^ 8) :
    boot.localApicId = d.id.toNat ↔ d.id = 0#32 := by
  have hid := congrArg BitVec.toNat F.id
  have hlt := d.id.isLt
  simp only [BitVec.extractLsb'_toNat, apicid, BitVec.toNat_ofNat,
    Nat.shiftRight_eq_div_pow] at hid
  have hhigh : d.id.toNat / 2 ^ 24 = boot.localApicId := by omega
  rw [← BitVec.toNat_inj, BitVec.toNat_ofNat]
  clear hid
  omega

theorem startsWanted_iff (T : Table cpus) (hboot : boot ∈ cpus) (F : Fresh boot d)
    (hcount : ∀ c ∈ cpus, Wanted boot c → (d.delay (apicid c)).isSome) :
    StartsWanted cpus boot d ↔
      d.id = 0#32 ∧ ∀ c ∈ cpus, c.localApicId ≠ boot.localApicId → c.enabled = true := by
  have hid := F.eq_id_iff (T.small boot hboot)
  rw [startsWanted_iff_ne_id T F hcount]
  constructor
  · intro hiff
    have heq : boot.localApicId = d.id.toNat := by
      by_contra hne
      exact ((hiff boot hboot).mpr hne).2 rfl
    refine ⟨hid.mp heq, fun c hc hne => ((hiff c hc).mpr ?_).1⟩
    rwa [← heq]
  · rintro ⟨hzero, henabled⟩ c hc
    rw [← hid.mpr hzero]
    exact ⟨fun hw => hw.2, fun hne => ⟨henabled c hc hne, hne⟩⟩

/-- A machine on which every started processor counts itself after three pauses. -/
def sampleMachine (id : BitVec 32) : SmpMachine := ⟨id, 0#32, [], 0#16, [], fun _ => some 3⟩

theorem startsWanted_iff_pair :
    StartsWanted [⟨0, 0, true⟩, ⟨1, 2, true⟩] ⟨0, 0, true⟩ (sampleMachine 0#32) :=
  (startsWanted_iff ⟨by decide, by decide⟩ List.mem_cons_self ⟨rfl, rfl, ⟨rfl, rfl⟩⟩
    fun _ _ _ => rfl).mpr ⟨rfl, by decide⟩

/-- The boot processor with id 1 sends itself an INIT command, and one with id 0 sends one to
a disabled processor. -/
theorem not_startsWanted_sample :
    ¬ StartsWanted [⟨0, 0, true⟩, ⟨1, 1, true⟩] ⟨1, 1, true⟩ (sampleMachine 0x01000000#32) ∧
      ¬ StartsWanted [⟨0, 0, true⟩, ⟨1, 1, false⟩] ⟨0, 0, true⟩ (sampleMachine 0#32) := by
  have hfresh : Fresh ⟨1, 1, true⟩ (sampleMachine 0x01000000#32) :=
    ⟨by decide +kernel, rfl, ⟨rfl, rfl⟩⟩
  have hfresh' : Fresh ⟨0, 0, true⟩ (sampleMachine 0#32) := ⟨rfl, rfl, ⟨rfl, rfl⟩⟩
  rw [startsWanted_iff_ne_id ⟨by decide, by decide⟩ hfresh fun _ _ _ => rfl,
    startsWanted_iff_ne_id ⟨by decide, by decide⟩ hfresh' fun _ _ _ => rfl]
  decide

end Smp

namespace Acpi

variable {mp : MemPages} {nodes : Links NodeRef} {slab : Nat → SlabRec} {a : Acpi}
  {cs : List AcpiCPU} {xs : List IoApic} {n : Nat}

/-- Read back a processor record. -/
theorem read_of_bytes {m : Bytes} {arr : Int} {i : Nat} {c : AcpiCPU}
    (h : BaseVector.elemAt m arr sizeofAcpiCPU i = c.bytes) (hid : c.cpuId < 2 ^ 32)
    (hapic : c.localApicId < 2 ^ 32) :
    AcpiCPU.read m (slotPtr arr sizeofAcpiCPU i) = c := by
  have hheld : m.Holds (slotPtr arr sizeofAcpiCPU i)
      (Bytes.le32 c.cpuId ++ Bytes.le32 c.localApicId ++ Bytes.le32 c.enabled.toNat) :=
    Bytes.holds_of_getD fun k hk => congrFun h ⟨k, hk⟩
  simp only [Bytes.holds_append, List.length_append, Bytes.length_le32] at hheld
  obtain ⟨⟨hcpu, hlocal⟩, henabled, -⟩ := hheld
  have hflag : (m.u8 (slotPtr arr sizeofAcpiCPU i + 8) != 0) = c.enabled := by
    rw [Bytes.u8, show m (slotPtr arr sizeofAcpiCPU i + 8) = _ from henabled]
    cases c.enabled <;> rfl
  rw [AcpiCPU.read, hcpu.u32_eq hid, show m.u32 (slotPtr arr sizeofAcpiCPU i + 4) = _ from
    hlocal.u32_eq hapic, hflag]

/-- The loops go through the processors that the parser has found. -/
theorem Represents.bootSmp_eq (R : Represents mp nodes slab a cs xs n)
    (hcs : ∀ c ∈ cs, c.cpuId < 2 ^ 32 ∧ c.localApicId < 2 ^ 32) (fuel : Nat) (d : SmpMachine) :
    a.bootSmp fuel d = Smp.bootSmp cs fuel d := by
  obtain ⟨qs, I, -, -⟩ := R
  have hlist : a.cpuList = cs := by
    have hlen : a.cpus.len = cs.length := by
      simpa [BaseVector.elements] using congrArg List.length I.cpus
    refine List.ext_getElem (by simpa [cpuList] using hlen) fun i hi hi' => ?_
    have helem : BaseVector.elemAt a.store.bus.mem (kptr a.cpus.ptr) sizeofAcpiCPU i =
        cs[i].bytes := by
      have hget := congrArg (·[i]?) I.cpus
      simpa [BaseVector.elements, hlen, hi'] using hget
    obtain ⟨hid, hapic⟩ := hcs cs[i] (List.getElem_mem hi')
    simpa [cpuList] using read_of_bytes helem hid hapic
  rw [bootSmp, hlist]

/-- The ids of the records are bytes. -/
theorem cpusOf_small {recs : List MadtRecord} {c : AcpiCPU} (hc : c ∈ cpusOf recs) :
    c.cpuId < 2 ^ 8 ∧ c.localApicId < 2 ^ 8 := by
  obtain ⟨rec, -, hrec⟩ := List.mem_flatMap.mp hc
  rw [Option.mem_toList] at hrec
  cases rec with
  | localApic acpiProcessorId apicId flags rest hsize =>
      cases hrec
      exact ⟨acpiProcessorId.isLt, apicId.isLt⟩
  | ioApic _ _ _ _ _ _ => cases hrec
  | other _ _ _ _ => cases hrec

/-- Behind the parser, `BootSmp` runs over the processors of the table. -/
theorem Represents.bootSmp_cpusOf {recs : List MadtRecord}
    (R : Represents mp nodes slab a (cpusOf recs) xs n) (fuel : Nat) (d : SmpMachine) :
    a.bootSmp fuel d = Smp.bootSmp (cpusOf recs) fuel d := by
  refine R.bootSmp_eq (fun c hc => ?_) fuel d
  have hsmall := cpusOf_small hc
  omega

end Acpi

end Chestnut
