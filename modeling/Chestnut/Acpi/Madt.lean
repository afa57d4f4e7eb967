import Chestnut.Acpi.Model
import Chestnut.Vector.Heap

/-!
# Decoding the MADT

The records of a MADT as data, their bytes, and the two vectors that
`ParseTableAPIC` fills from them. `Represents` reads the members of `Acpi` as a
list of processors and a list of IO APICs: the elements of both vectors lie in
live blocks, and the pointers of the second one lead to live `IoApic` objects.
-/

namespace Chestnut

open Lib HeapWorld

/-! ### Records -/

/-- A well-formed record: its length byte is its size. -/
inductive MadtRecord
  | localApic (acpiProcessorId apicId : BitVec 8) (flags : BitVec 32) (rest : List (BitVec 8))
      (hsize : 8 + rest.length < 256)
  | ioApic (ioApicId reserved : BitVec 8) (ioApicAddress globalSystemInterrupt : BitVec 32)
      (rest : List (BitVec 8)) (hsize : 12 + rest.length < 256)
  | other (type : BitVec 8) (rest : List (BitVec 8)) (hsize : 2 + rest.length < 256)
      (htype : type.toNat ≠ Acpi.typeLocalApic ∧ type.toNat ≠ Acpi.typeIoApic)

namespace MadtRecord

/-- The bytes of a record. -/
def bytes : MadtRecord → List (BitVec 8)
  | .localApic acpiProcessorId apicId flags rest _ =>
      [0#8, BitVec.ofNat 8 (8 + rest.length), acpiProcessorId, apicId] ++
        (Bytes.le32 flags.toNat ++ rest)
  | .ioApic ioApicId reserved ioApicAddress globalSystemInterrupt rest _ =>
      [1#8, BitVec.ofNat 8 (12 + rest.length), ioApicId, reserved] ++
        (Bytes.le32 ioApicAddress.toNat ++ (Bytes.le32 globalSystemInterrupt.toNat ++ rest))
  | .other type rest _ _ => [type, BitVec.ofNat 8 (2 + rest.length)] ++ rest

/-- The processor that a record describes; bit 0 of `flags` says that it is enabled. -/
def cpu? : MadtRecord → Option AcpiCPU
  | .localApic acpiProcessorId apicId flags _ _ =>
      some ⟨acpiProcessorId.toNat, apicId.toNat, flags.getLsbD 0⟩
  | _ => none

/-- The IO APIC that a record describes. -/
def ioApic? : MadtRecord → Option IoApic
  | .ioApic ioApicId _ ioApicAddress globalSystemInterrupt _ _ =>
      some ⟨ioApicId.setWidth 32, kernOffset + ioApicAddress.toNat, globalSystemInterrupt⟩
  | _ => none

theorem two_le_length (r : MadtRecord) : 2 ≤ r.bytes.length := by
  cases r <;> simp only [bytes, List.length_append, List.length_cons] <;> omega

end MadtRecord

/-- A MADT with these records lies at `t`. -/
structure MadtAt (m : Bytes) (t : Int) (recs : List MadtRecord) : Prop where
  length : m.u32 (t + 4) = 44 + (recs.flatMap MadtRecord.bytes).length
  localApicAddr : m.u32 (t + 36) ≠ 0
  records : m.Holds (t + 44) (recs.flatMap MadtRecord.bytes)

namespace Acpi

variable {mp : MemPages} {fs : List Nat} {nodes : Links NodeRef} {slab : Nat → SlabRec}
variable {a : Acpi} {cs : List AcpiCPU} {xs : List IoApic} {qs : List Nat}
variable {rs : List (Nat × Nat)} {n : Nat} {m : Bytes} {t p : Int} {ps : Parse}

/-! ### The members -/

/-- The two vectors hold the processors `cs` and the pointers `qs`; the ranges `rs` are live
besides their blocks. -/
structure Inv (mp : MemPages) (nodes : Links NodeRef) (slab : Nat → SlabRec) (a : Acpi)
    (cs : List AcpiCPU) (qs : List Nat) (rs : List (Nat × Nat)) : Prop where
  cpusOk : a.cpus.Ok sizeofAcpiCPU
  cpusDoubled : a.cpus.Doubled
  cpus : a.cpus.elements sizeofAcpiCPU a.store.bus.mem = cs.map AcpiCPU.bytes
  ioApicsOk : a.ioApics.Ok sizeofPtr
  ioApicsDoubled : a.ioApics.Doubled
  ioApics : a.ioApics.elements sizeofPtr a.store.bus.mem = qs.map ptrBytes
  lives : Lives mp nodes slab a.store.heap
    (a.cpus.range sizeofAcpiCPU ++ (a.ioApics.range sizeofPtr ++ rs))

/-- A request that the parser makes in this state fails. -/
def Unserved (a : Acpi) (e : Fault) : Prop :=
  Kernel.operatorNew sizeofLocalApic a.store.heap = .error e ∨
  Kernel.operatorNew sizeofIoApic a.store.heap = .error e ∨
  Kernel.alloc (Kernel.int32 (sizeT (a.cpus.nextCapacity * sizeofAcpiCPU))) a.store.heap =
    .error e ∨
  Kernel.alloc (Kernel.int32 (sizeT (a.ioApics.nextCapacity * sizeofPtr))) a.store.heap = .error e

theorem Inv.pushCpu (F : MemPages.FreeList mp fs) (I : Inv mp nodes slab a cs qs rs)
    (c : AcpiCPU) :
    Meets (a.pushCpu c) (fun a' => Inv mp nodes slab a' (cs ++ [c]) qs rs ∧
      a'.objects = a.objects ∧ a'.cpuCount = (a.cpuCount + 1) % 2 ^ 32) a.Unserved := by
  have hpush := BaseVector.pushBack_meets (x := c.bytes) F (by decide) (by decide) I.cpusOk
    I.cpusDoubled I.lives
  refine (hpush.imp (fun _ h => h) fun e he => .inr (.inr (.inl he))).bind ?_
  rintro ⟨v, s⟩ P
  refine meets_ok.mpr ⟨⟨P.ok, P.doubled, ?_, I.ioApicsOk, I.ioApicsDoubled, ?_, P.lives⟩, rfl, rfl⟩
  · rw [List.map_append, ← I.cpus]
    exact P.elements
  · rw [← I.ioApics]
    exact BaseVector.elements_frame F P.ok I.ioApicsOk P.lives P.inserted.frame

theorem Inv.pushIoApic (F : MemPages.FreeList mp fs) (I : Inv mp nodes slab a cs qs rs) (q : Nat) :
    Meets (a.pushIoApic q) (fun a' => Inv mp nodes slab a' cs (qs ++ [q]) rs ∧
      a'.objects = a.objects ∧ a'.cpuCount = a.cpuCount) a.Unserved := by
  have hperm : ∀ u v : List (Nat × Nat), (u ++ (v ++ rs)).Perm (v ++ (u ++ rs)) := fun u v => by
    rw [← List.append_assoc, ← List.append_assoc]
    exact List.perm_append_comm.append_right rs
  have hpush := BaseVector.pushBack_meets (x := ptrBytes q) F (by decide) (by decide) I.ioApicsOk
    I.ioApicsDoubled (I.lives.perm (hperm _ _))
  refine (hpush.imp (fun _ h => h) fun e he => .inr (.inr (.inr he))).bind ?_
  rintro ⟨v, s⟩ P
  refine meets_ok.mpr ⟨⟨I.cpusOk, I.cpusDoubled, ?_, P.ok, P.doubled, ?_,
    P.lives.perm (hperm _ _)⟩, rfl, rfl⟩
  · rw [← I.cpus]
    exact BaseVector.elements_frame F P.ok I.cpusOk P.lives P.inserted.frame
  · rw [List.map_append, ← I.ioApics]
    exact P.elements

/-- An object of a class joins the live ranges. -/
theorem Inv.operatorNew (F : MemPages.FreeList mp fs) (I : Inv mp nodes slab a cs qs rs) {k : Nat}
    (h1 : 1 ≤ k) (hmax : k ≤ allocLimit) :
    Meets (Kernel.operatorNew k a.store.heap)
      (fun r => Lives mp nodes slab r.2
        (a.cpus.range sizeofAcpiCPU ++ (a.ioApics.range sizeofPtr ++ ((r.1, k) :: rs))))
      fun e => Kernel.operatorNew k a.store.heap = .error e := by
  refine (I.lives.operatorNew F h1 hmax).imp ?_ fun e he => he
  intro r L
  apply L.perm
  have hfront : ∀ u v : List (Nat × Nat), ((r.1, k) :: (u ++ v)).Perm (u ++ ((r.1, k) :: v)) :=
    fun u v => List.perm_middle.symm
  exact (hfront _ _).trans ((hfront _ _).append_left _)

/-- The members hold the processors `cs` and the IO APICs `xs`, and `n` processors were
counted. -/
def Represents (mp : MemPages) (nodes : Links NodeRef) (slab : Nat → SlabRec) (a : Acpi)
    (cs : List AcpiCPU) (xs : List IoApic) (n : Nat) : Prop :=
  ∃ qs, Inv mp nodes slab a cs qs (qs.map fun q => (q, sizeofIoApic)) ∧
    qs.map a.objects = xs.map some ∧ a.cpuCount = n % 2 ^ 32

theorem Represents.pushCpu (F : MemPages.FreeList mp fs) (R : Represents mp nodes slab a cs xs n)
    (c : AcpiCPU) :
    Meets (a.pushCpu c) (fun a' => Represents mp nodes slab a' (cs ++ [c]) xs (n + 1))
      a.Unserved := by
  obtain ⟨qs, I, hobj, hn⟩ := R
  refine (I.pushCpu F c).imp ?_ fun e he => he
  rintro a' ⟨I', hobj', hn'⟩
  refine ⟨qs, I', ?_, ?_⟩
  · rw [hobj', hobj]
  · rw [hn', hn]
    omega

theorem Represents.newLocalApic (F : MemPages.FreeList mp fs)
    (R : Represents mp nodes slab a cs xs n) (address : Int) :
    Meets (a.newLocalApic address) (fun a' => Represents mp nodes slab a' cs xs n)
      a.Unserved := by
  obtain ⟨qs, I, hobj, hn⟩ := R
  refine ((I.operatorNew F (k := sizeofLocalApic) (by decide) (by decide)).imp
    (fun _ h => h) fun e he => .inl he).bind ?_
  rintro ⟨q, h⟩ L
  have L' := L.sublist (((List.sublist_cons_self _ _).append_left _).append_left _)
  exact meets_ok.mpr ⟨qs, ⟨I.cpusOk, I.cpusDoubled, I.cpus, I.ioApicsOk, I.ioApicsDoubled,
    I.ioApics, L'⟩, hobj, hn⟩

/-- The live objects are not where a new one is made. -/
theorem map_objects_new {q : Nat} {x : IoApic} {objects : Nat → Option IoApic}
    (hq : q ∉ qs) :
    qs.map (fun q' => if q' = q then some x else objects q') = qs.map objects := by
  apply List.map_congr_left
  intro q' hq'
  apply if_neg
  rintro rfl
  exact hq hq'

/-- `new IoApic` and the push of the pointer. The fault of either comes with the state in
which it happened. -/
theorem Represents.ioApic (F : MemPages.FreeList mp fs) (R : Represents mp nodes slab a cs xs n)
    (x : IoApic) :
    Meets (a.newIoApic x) (fun r => Meets (r.2.pushIoApic r.1)
      (fun a' => Represents mp nodes slab a' cs (xs ++ [x]) n) r.2.Unserved) a.Unserved := by
  obtain ⟨qs, I, hobj, hn⟩ := R
  refine ((I.operatorNew F (k := sizeofIoApic) (by decide) (by decide)).imp
    (fun _ h => h) fun e he => .inr (.inl he)).bind ?_
  rintro ⟨q, h⟩ L
  have hfresh : q ∉ qs := by
    intro hq
    have hpair := (List.pairwise_append.mp (List.pairwise_append.mp (L.apart F)).2.1).2.1
    have hap := (List.pairwise_cons.mp hpair).1 _ (List.mem_map.mpr ⟨q, hq, rfl⟩)
    have hsize : sizeofIoApic = 32 := rfl
    rw [Apart] at hap
    omega
  have I' : Inv mp nodes slab { a with
      store := { a.store with heap := h }
      objects := fun q' => if q' = q then some x else a.objects q' } cs qs
      ((q, sizeofIoApic) :: qs.map fun q => (q, sizeofIoApic)) :=
    ⟨I.cpusOk, I.cpusDoubled, I.cpus, I.ioApicsOk, I.ioApicsDoubled, I.ioApics, L⟩
  refine meets_ok.mpr ((I'.pushIoApic F q).imp ?_ fun e he => he)
  rintro a' ⟨I'', hobj', hn'⟩
  have hperm : ((q, sizeofIoApic) :: qs.map fun q => (q, sizeofIoApic)).Perm
      ((qs ++ [q]).map fun q => (q, sizeofIoApic)) := by
    rw [List.map_append]
    exact (List.perm_append_singleton _ _).symm
  refine ⟨qs ++ [q], { I'' with
    lives := I''.lives.perm ((hperm.append_left _).append_left _) }, ?_, ?_⟩
  · simp only [hobj', List.map_append, map_objects_new hfresh, hobj, List.map_cons, List.map_nil,
      if_pos]
  · rw [hn', hn]

/-! ### One record -/

/-- The parser stopped where the heap did not serve it. -/
def Stopped (e : Fault × Parse) : Prop := e.2.acpi.Unserved e.1

theorem meets_stopAt {α : Type} (ps : Parse) {x : Except Fault α} {Q : α → Prop}
    (h : Meets x Q ps.acpi.Unserved) : Meets (stopAt ps x) Q Stopped := by
  cases x with
  | error e => exact meets_error.mpr (h.error e rfl)
  | ok a => exact meets_ok.mpr (h.ok a rfl)

theorem parseLocalApic_meets (F : MemPages.FreeList mp fs)
    (R : Represents mp nodes slab ps.acpi cs xs n) :
    Meets (parseLocalApic m t p ps) (fun ps' => Represents mp nodes slab ps'.acpi
      (cs ++ [⟨m.u8 (p + 2), m.u8 (p + 3), m.u32 (p + 4) % 2 == 1⟩]) xs (n + 1)) Stopped :=
  (meets_stopAt (ps.read t (p + 2) 6) (R.pushCpu F _)).bind fun _ h => meets_ok.mpr h

theorem parseIoApic_meets (F : MemPages.FreeList mp fs)
    (R : Represents mp nodes slab ps.acpi cs xs n) :
    Meets (parseIoApic m t p ps) (fun ps' => Represents mp nodes slab ps'.acpi cs
      (xs ++ [⟨BitVec.ofNat 32 (m.u8 (p + 2)), kernOffset + m.u32 (p + 4),
        BitVec.ofNat 32 (m.u32 (p + 8))⟩]) n) Stopped := by
  refine (meets_stopAt ((ps.read t (p + 2) 1).read t (p + 4) 8) (R.ioApic F _)).bind ?_
  rintro ⟨q, a⟩ h
  exact (meets_stopAt { (ps.read t (p + 2) 1).read t (p + 4) 8 with acpi := a } h).bind
    fun _ h => meets_ok.mpr h

theorem u8_of_ofNat {k : Nat} (h : m p = BitVec.ofNat 8 k) (hk : k < 256) : m.u8 p = k := by
  rw [Bytes.u8, h, BitVec.toNat_ofNat, Nat.mod_eq_of_lt hk]

/-- The first four bytes of a record. -/
theorem holds_four {b₀ b₁ b₂ b₃ : BitVec 8} {bs : List (BitVec 8)}
    (h : m.Holds p ([b₀, b₁, b₂, b₃] ++ bs)) :
    m p = b₀ ∧ m (p + 1) = b₁ ∧ m (p + 2) = b₂ ∧ m (p + 3) = b₃ ∧ m.Holds (p + 4) bs := by
  obtain ⟨⟨h₀, h₁, h₂, h₃, -⟩, hbs⟩ := Bytes.holds_append.mp h
  rw [Int.add_assoc] at h₂
  rw [Int.add_assoc, Int.add_assoc] at h₃
  exact ⟨h₀, h₁, h₂, h₃, hbs⟩

/-- The `switch` on a well-formed record. -/
theorem parseCase_meets (F : MemPages.FreeList mp fs) (ps : Parse) (r : MadtRecord)
    (hr : m.Holds p r.bytes) (R : Represents mp nodes slab ps.acpi cs xs n) :
    Meets (parseCase m t p ps) (fun ps' => Represents mp nodes slab ps'.acpi
      (cs ++ r.cpu?.toList) (xs ++ r.ioApic?.toList) (n + r.cpu?.toList.length)) Stopped := by
  cases r with
  | localApic acpiProcessorId apicId flags rest hsize =>
      obtain ⟨h₀, -, h₂, h₃, hr⟩ := holds_four hr
      have hflags := (Bytes.holds_append.mp hr).1.u32_eq flags.isLt
      have htype : m.u8 p = typeLocalApic := u8_of_ofNat h₀ (by decide)
      have hbit : (m.u32 (p + 4) % 2 == 1) = flags.getLsbD 0 := by
        rw [hflags, BitVec.getLsbD, Nat.testBit_zero]
        rfl
      have hcase := parseLocalApic_meets (m := m) (t := t) (p := p) F R
      rw [hbit, Bytes.u8, Bytes.u8, h₂, h₃] at hcase
      rw [parseCase, if_pos htype]
      simpa [MadtRecord.cpu?, MadtRecord.ioApic?] using hcase
  | ioApic ioApicId reserved ioApicAddress globalSystemInterrupt rest hsize =>
      obtain ⟨h₀, -, h₂, -, hr⟩ := holds_four hr
      obtain ⟨haddr, hr⟩ := Bytes.holds_append.mp hr
      obtain ⟨hgsi, -⟩ := Bytes.holds_append.mp hr
      rw [Int.add_assoc] at hgsi
      have haddr := haddr.u32_eq ioApicAddress.isLt
      have hgsi : m.u32 (p + 8) = _ := hgsi.u32_eq globalSystemInterrupt.isLt
      have htype : m.u8 p = typeIoApic := u8_of_ofNat h₀ (by decide)
      have hne : ¬ typeIoApic = typeLocalApic := by decide
      have hcase := parseIoApic_meets (m := m) (t := t) (p := p) F R
      rw [haddr, hgsi, Bytes.u8, h₂, BitVec.ofNat_toNat, BitVec.ofNat_toNat,
        BitVec.setWidth_eq] at hcase
      rw [parseCase, htype, if_neg hne, if_pos rfl]
      simpa [MadtRecord.cpu?, MadtRecord.ioApic?] using hcase
  | other type rest hsize htype =>
      obtain ⟨⟨h₀, -⟩, -⟩ := Bytes.holds_append.mp hr
      have htype' : m.u8 p = type.toNat := congrArg BitVec.toNat h₀
      rw [parseCase, htype', if_neg htype.1, if_neg htype.2, meets_ok]
      simpa [MadtRecord.cpu?, MadtRecord.ioApic?] using R

/-- The length byte of a well-formed record. -/
theorem u8_length (r : MadtRecord) (hr : m.Holds p r.bytes) : m.u8 (p + 1) = r.bytes.length := by
  cases r with
  | localApic acpiProcessorId apicId flags rest hsize =>
      rw [u8_of_ofNat (holds_four hr).2.1 hsize]
      simp only [MadtRecord.bytes, List.length_append, List.length_cons, List.length_nil,
        Bytes.length_le32]
      omega
  | ioApic ioApicId reserved ioApicAddress globalSystemInterrupt rest hsize =>
      rw [u8_of_ofNat (holds_four hr).2.1 hsize]
      simp only [MadtRecord.bytes, List.length_append, List.length_cons, List.length_nil,
        Bytes.length_le32]
      omega
  | other type rest hsize htype =>
      obtain ⟨⟨-, h₁, -⟩, -⟩ := Bytes.holds_append.mp hr
      rw [u8_of_ofNat h₁ hsize]
      simp only [MadtRecord.bytes, List.length_append, List.length_cons, List.length_nil]

/-! ### The whole table -/

/-- The processors and the IO APICs of a table. -/
def cpusOf (recs : List MadtRecord) : List AcpiCPU := recs.flatMap fun r => r.cpu?.toList

def ioApicsOf (recs : List MadtRecord) : List IoApic := recs.flatMap fun r => r.ioApic?.toList

/-- The loop over the records that are left. -/
theorem records_settle (F : MemPages.FreeList mp fs) {recs : List MadtRecord}
    (hrecs : m.Holds p (recs.flatMap MadtRecord.bytes))
    (hend : p + (recs.flatMap MadtRecord.bytes).length = t + m.u32 (t + 4))
    (R : Represents mp nodes slab ps.acpi cs xs n) :
    Settles (inTable m t) (fun _ w => some (parseRecord m t w)) ⟨p, ps⟩
      (fun w => Represents mp nodes slab w.parse.acpi (cs ++ cpusOf recs) (xs ++ ioApicsOf recs)
        (n + (cpusOf recs).length)) Stopped := by
  induction recs generalizing p ps cs xs n with
  | nil =>
      refine .done ?_ ?_
      · have hp : ¬ p < t + m.u32 (t + 4) := by
          rw [← hend]
          simp
        exact decide_eq_false hp
      · simpa [cpusOf, ioApicsOf] using R
  | cons r recs ih =>
      rw [List.flatMap_cons] at hrecs hend
      obtain ⟨hr, hrest⟩ := Bytes.holds_append.mp hrecs
      have htwo := r.two_le_length
      rw [List.length_append] at hend
      refine .turn (decide_eq_true (show p < t + m.u32 (t + 4) by omega)) (returns_const ?_)
      refine (parseCase_meets F (ps.read t p 2) r hr R).bind ?_
      intro ps' R'
      have hnext := ih hrest (by omega) R'
      rw [← u8_length r hr] at hnext
      refine meets_ok.mpr ?_
      simpa [cpusOf, ioApicsOf, Nat.add_assoc] using hnext

theorem parseHeader_meets (F : MemPages.FreeList mp fs) (ht : t ≠ 0) (hlocal : m.u32 (t + 36) ≠ 0)
    (R : Represents mp nodes slab ps.acpi cs xs n) :
    Meets (parseHeader m t ps) (fun ps' => Represents mp nodes slab ps'.acpi cs xs n) Stopped := by
  have hheader : stopAt ps (kassert (t ≠ 0) "header") = .ok () := by
    rw [(kassert_ok_iff _ _).mpr (decide_eq_true ht)]
    rfl
  have haddr : stopAt (ps.read t (t + 36) 4)
      (kassert (m.u32 (t + 36) ≠ 0) "header->localApicAddr") = .ok () := by
    rw [(kassert_ok_iff _ _).mpr (decide_eq_true hlocal)]
    rfl
  simp only [parseHeader, hheader, ok_bind, haddr]
  exact (meets_stopAt (ps.read t (t + 36) 4) (R.newLocalApic F _)).bind fun _ h => meets_ok.mpr h

theorem fuelMono_parseRecord (m : Bytes) (t : Int) (w : TableWalk) :
    FuelMono fun _ => some (parseRecord m t w) := fuelMono_const _

theorem fuelMono_records (m : Bytes) (t : Int) (w : TableWalk) :
    FuelMono fun fuel => andThen
      (whileLoop (inTable m t) (fun _ w => some (parseRecord m t w)) fuel w)
      fun w => some (.ok w.parse) :=
  fuelMono_andThen (whileLoop_mono (fuelMono_parseRecord m t) w) fun _ => fuelMono_const _

theorem fuelMono_parseTableAPIC (m : Bytes) (t : Int) (ps : Parse) :
    FuelMono fun fuel => parseTableAPIC m t fuel ps :=
  fuelMono_andThen (fuelMono_const _) fun ps => fuelMono_records m t ⟨t + 44, ps⟩

/-- The members hold what the records say, behind what they held before. -/
def Collected (mp : MemPages) (nodes : Links NodeRef) (slab : Nat → SlabRec)
    (cs : List AcpiCPU) (xs : List IoApic) (n : Nat) (recs : List MadtRecord) (ps : Parse) : Prop :=
  Represents mp nodes slab ps.acpi (cs ++ cpusOf recs) (xs ++ ioApicsOf recs)
    (n + (cpusOf recs).length)

/-- `ParseTableAPIC` on a row of records. -/
theorem returns_madt (F : MemPages.FreeList mp fs) (ps : Parse) (ht : t ≠ 0)
    {recs : List MadtRecord} (M : MadtAt m t recs)
    (R : Represents mp nodes slab ps.acpi cs xs n) :
    Returns (fun fuel => parseTableAPIC m t fuel ps) (Collected mp nodes slab cs xs n recs)
      Stopped := by
  refine (returns_const (parseHeader_meets F ht M.localApicAddr R)).andThen (fuelMono_const _)
    (fun ps => fuelMono_records m t ⟨t + 44, ps⟩) ?_
  intro ps' R'
  have hend : t + 44 + ((recs.flatMap MadtRecord.bytes).length : Int) = t + m.u32 (t + 4) := by
    rw [M.length]
    omega
  have hloop := (records_settle F M.records hend R').returns (fuelMono_parseRecord m t)
  refine hloop.andThen (whileLoop_mono (fuelMono_parseRecord m t) _) (fun _ => fuelMono_const _) ?_
  exact fun w hw => returns_const (meets_ok.mpr hw)

/-- `ParseTableAPIC` on a table of well-formed records that fill it. It returns with the
processors and the IO APICs of the records behind the ones there were, in order, and with
their number counted; unless a request for memory fails, which stops it there. -/
theorem parseTableAPIC_spec (F : MemPages.FreeList mp fs) (ps : Parse) (ht : t ≠ 0)
    {recs : List MadtRecord} (M : MadtAt m t recs)
    (R : Represents mp nodes slab ps.acpi cs xs n) :
    ∃ k, ∀ fuel, k ≤ fuel → ∃ r, parseTableAPIC m t fuel ps = some r ∧
      Meets r (fun ps' => Represents mp nodes slab ps'.acpi (cs ++ cpusOf recs)
        (xs ++ ioApicsOf recs) (n + (cpusOf recs).length)) Stopped :=
  (returns_madt F ps ht M R).eventually (fuelMono_parseTableAPIC m t ps)

/-- The members behind the constructors of the vectors. -/
theorem represents_empty {w : HeapWorld} (hw : Reachable mp nodes slab w) (bus : Bus) :
    Represents mp nodes slab { store := ⟨w.heap, bus⟩ } [] [] 0 :=
  ⟨[], ⟨.empty _, .inl rfl, rfl, .empty _, .inl rfl, rfl, .nil hw⟩, rfl, rfl⟩

/-- A processor, an interrupt override and an IO APIC. -/
def sampleRecords : List MadtRecord :=
  [.localApic 1#8 2#8 1#32 [] (of_decide_eq_true rfl),
    .other 2#8 (List.replicate 8 0#8) (of_decide_eq_true rfl) (of_decide_eq_true rfl),
    .ioApic 3#8 0#8 0xfec00000#32 0#32 [] (of_decide_eq_true rfl)]

/-- Memory with a MADT of these records at `0x1000`. -/
def sampleMadt : Bytes :=
  .ofList 0x1000 (Bytes.le32 apicSignature ++ (Bytes.le32 74 ++ (List.replicate 28 0#8 ++
    (Bytes.le32 0xfee00000 ++ (Bytes.le32 1 ++ sampleRecords.flatMap MadtRecord.bytes)))))

theorem madtAt_sampleMadt : MadtAt sampleMadt 0x1000 sampleRecords := by
  have hheld := Bytes.holds_ofList 0x1000 (Bytes.le32 apicSignature ++ (Bytes.le32 74 ++
    (List.replicate 28 0#8 ++ (Bytes.le32 0xfee00000 ++ (Bytes.le32 1 ++
      sampleRecords.flatMap MadtRecord.bytes)))))
  simp only [Bytes.holds_append] at hheld
  exact ⟨by decide, by decide, hheld.2.2.2.2.2⟩

/-- No tables read yet, on a machine with eight free pages. -/
def sampleParse : Parse := ⟨{ store := ⟨(HeapWorld.machine 8).heap, ⟨fun _ => 0#8, []⟩⟩ }, []⟩

theorem parseTableAPIC_spec_sample :
    ∃ fuel ps', parseTableAPIC sampleMadt 0x1000 fuel sampleParse = some (.ok ps') ∧
      Represents (MemPages.line 8) ⟨fun x => x, fun x => x⟩ (fun _ => {}) ps'.acpi
        [⟨1, 2, true⟩] [⟨3#32, kernOffset + 0xfec00000, 0#32⟩] 1 := by
  have hrun : (parseTableAPIC sampleMadt 0x1000 3 sampleParse).any Except.isOk = true := by
    decide +kernel
  have hspec := parseTableAPIC_spec (MemPages.line_freeList (n := 8) (by decide)) sampleParse
    (by decide) madtAt_sampleMadt (represents_empty (w := HeapWorld.machine 8) .start _)
  obtain ⟨ps', hps', hcoll⟩ := exists_ok_of_eventually hspec (fuelMono_parseTableAPIC _ _ _) hrun
  exact ⟨3, ps', hps', hcoll⟩

end Acpi

end Chestnut
