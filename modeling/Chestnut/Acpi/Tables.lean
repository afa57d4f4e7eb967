import Chestnut.Acpi.Discovery
import Chestnut.Acpi.Walks

/-!
# From the RSDP to the processors and IO APICs

`Acpi::Init` behind its first loop, on tables as a firmware lays them out: a RSDP points
to the RSDT, the RSDT to any number of tables, and every MADT among them is a row of
records. What is collected in the end are the processors and the IO APICs of all these
records, in the order of the pointers in the RSDT.
-/

namespace Chestnut

open Lib HeapWorld

namespace Acpi

variable {mp : MemPages} {fs : List Nat} {nodes : Links NodeRef} {slab : Nat → SlabRec}
variable {cs : List AcpiCPU} {xs : List IoApic} {n : Nat} {m : Bytes} {t p : Int}

/-- A table and the records that `ParseDT` takes from it. -/
inductive TableAt (m : Bytes) (t : Int) : List MadtRecord → Prop
  | madt {recs : List MadtRecord} (hsig : m.u32 t = apicSignature) (M : MadtAt m t recs) :
      TableAt m t recs
  | other (hsig : m.u32 t ≠ apicSignature) : TableAt m t []

/-- A RSDT at `t` that points to these tables, given by their addresses and records. -/
structure RsdtAt (m : Bytes) (t : Int) (tables : List (BitVec 32 × List MadtRecord)) : Prop where
  length : m.u32 (t + 4) = 36 + (tables.flatMap fun e => Bytes.le32 e.1.toNat).length
  pointers : m.Holds (t + 36) (tables.flatMap fun e => Bytes.le32 e.1.toNat)
  table : ∀ e ∈ tables, TableAt m (kptr (some e.1.toNat)) e.2

/-- The records of all tables. -/
def recordsOf (tables : List (BitVec 32 × List MadtRecord)) : List MadtRecord :=
  tables.flatMap Prod.snd

theorem cpusOf_append (recs recs' : List MadtRecord) :
    cpusOf (recs ++ recs') = cpusOf recs ++ cpusOf recs' := List.flatMap_append

theorem ioApicsOf_append (recs recs' : List MadtRecord) :
    ioApicsOf (recs ++ recs') = ioApicsOf recs ++ ioApicsOf recs' := List.flatMap_append

theorem collected_nil {ps : Parse} :
    Collected mp nodes slab cs xs n [] ps ↔ Represents mp nodes slab ps.acpi cs xs n := by
  simp [Collected, cpusOf, ioApicsOf]

theorem collected_append {recs recs' : List MadtRecord} {ps : Parse} :
    Collected mp nodes slab cs xs n (recs ++ recs') ps ↔
      Collected mp nodes slab (cs ++ cpusOf recs) (xs ++ ioApicsOf recs)
        (n + (cpusOf recs).length) recs' ps := by
  simp only [Collected, cpusOf_append, ioApicsOf_append, List.append_assoc, List.length_append,
    Nat.add_assoc]

theorem kptr_ne_zero (a : Nat) : kptr (some a) ≠ 0 := by
  simp only [kptr, kernOffset]
  omega

/-- The assertion on a pointer into kernel memory. -/
theorem stopAt_kassert_kptr (ps : Parse) (a : Nat) (expr : String) :
    stopAt ps (kassert (kptr (some a) ≠ 0) expr) = .ok () := by
  rw [(kassert_ok_iff _ _).mpr (decide_eq_true (kptr_ne_zero a))]
  rfl

/-- `ParseDT` on a table of either kind. -/
theorem returns_table (F : MemPages.FreeList mp fs) (ps : Parse) {a : Nat}
    {recs : List MadtRecord} (T : TableAt m (kptr (some a)) recs)
    (R : Represents mp nodes slab ps.acpi cs xs n) :
    Returns (fun fuel => parseDT m (kptr (some a)) fuel ps) (Collected mp nodes slab cs xs n recs)
      Stopped := by
  simp only [parseDT, stopAt_kassert_kptr, andThen_ok]
  cases T with
  | madt hsig M =>
      simp only [if_pos hsig]
      exact returns_madt F _ (kptr_ne_zero a) M R
  | other hsig =>
      simp only [if_neg hsig]
      exact returns_const (meets_ok.mpr (collected_nil.mpr R))

/-- The loop of `ParseRSDT` over the pointers that are left. -/
theorem tables_settle (F : MemPages.FreeList mp fs) (ps : Parse)
    {tables : List (BitVec 32 × List MadtRecord)}
    (hptrs : m.Holds p (tables.flatMap fun e => Bytes.le32 e.1.toNat))
    (hend : p + (tables.flatMap fun e => Bytes.le32 e.1.toNat).length = t + m.u32 (t + 4))
    (htables : ∀ e ∈ tables, TableAt m (kptr (some e.1.toNat)) e.2)
    (R : Represents mp nodes slab ps.acpi cs xs n) :
    Settles (inTable m t) (parseEntry m t) ⟨p, ps⟩
      (fun w => Collected mp nodes slab cs xs n (recordsOf tables) w.parse) Stopped := by
  induction tables generalizing p ps cs xs n with
  | nil =>
      refine .done ?_ ?_
      · have hp : ¬ p < t + m.u32 (t + 4) := by
          rw [← hend]
          simp
        exact decide_eq_false hp
      · exact collected_nil.mpr R
  | cons e tables ih =>
      obtain ⟨T, hrest⟩ := List.forall_mem_cons.mp htables
      rw [List.flatMap_cons] at hptrs hend
      obtain ⟨hptr, hptrs⟩ := Bytes.holds_append.mp hptrs
      rw [List.length_append] at hend
      rw [Bytes.length_le32] at hptrs hend
      refine .turn (decide_eq_true (show p < t + m.u32 (t + 4) by omega)) ?_
      have hword : m.u32 p = e.1.toNat := hptr.u32_eq e.1.isLt
      have hdt := returns_table F (ps.read t p 4) T R
      rw [← hword] at hdt
      refine hdt.andThen (fuelMono_parseDT m _ _) (fun _ => fuelMono_const _) ?_
      intro ps' R'
      refine returns_const (meets_ok.mpr ?_)
      have hnext := ih ps' hptrs (by omega) hrest R'
      simp only [← collected_append] at hnext
      exact hnext

theorem returns_rsdt (F : MemPages.FreeList mp fs) (ps : Parse) {r : Nat}
    {tables : List (BitVec 32 × List MadtRecord)} (T : RsdtAt m (kptr (some r)) tables)
    (R : Represents mp nodes slab ps.acpi cs xs n) :
    Returns (fun fuel => parseRSDT m (kptr (some r)) fuel ps)
      (Collected mp nodes slab cs xs n (recordsOf tables)) Stopped := by
  simp only [parseRSDT, stopAt_kassert_kptr, andThen_ok]
  have hend : kptr (some r) + 36 + ((tables.flatMap fun e => Bytes.le32 e.1.toNat).length : Int) =
      kptr (some r) + m.u32 (kptr (some r) + 4) := by
    rw [T.length]
    omega
  have hloop := tables_settle F (ps.read (kptr (some r)) (kptr (some r) + 4) 4) T.pointers hend
    T.table R
  exact (hloop.returns (fuelMono_parseEntry m _)).andThen
    (whileLoop_mono (fuelMono_parseEntry m _) _) (fun _ => fuelMono_const _)
    fun w hw => returns_const (meets_ok.mpr hw)

/-- As many IO APICs as the vector has elements. -/
theorem Represents.ioApics_len {a : Acpi} (R : Represents mp nodes slab a cs xs n) :
    a.ioApics.len = xs.length := by
  obtain ⟨qs, I, hobj, -⟩ := R
  have hlen := congrArg List.length I.ioApics
  have hxs := congrArg List.length hobj
  simp only [BaseVector.elements, List.length_map, List.length_range] at hlen hxs
  rw [hlen, hxs]

/-- The end of `Init` when no IO APIC was found. -/
def NoIoApic (e : Fault × Parse) : Prop :=
  e.1 = .panic "Unable to find IO APIC to setup interrupts.\n"

theorem returns_requireIoApics {ps : Parse} (R : Represents mp nodes slab ps.acpi cs xs n) :
    Returns (fun _ => requireIoApics ps)
      (fun ps' => xs ≠ [] ∧ Represents mp nodes slab ps'.acpi cs xs n)
      fun e => Stopped e ∨ xs = [] ∧ NoIoApic e := by
  have hlen := R.ioApics_len
  by_cases hxs : xs = []
  · subst hxs
    rw [requireIoApics, if_pos (hlen.trans List.length_nil)]
    exact returns_const (meets_error.mpr (.inr ⟨rfl, rfl⟩))
  · have hne : ps.acpi.ioApics.len ≠ 0 := by
      rw [hlen]
      exact fun h => hxs (List.length_eq_zero_iff.mp h)
    rw [requireIoApics, if_neg hne]
    exact returns_const (meets_ok.mpr ⟨hxs, R⟩)

theorem fuelMono_initTables (m : Bytes) (ps : Parse) :
    FuelMono fun fuel => initTables m fuel ps := by
  unfold initTables
  split
  · exact fuelMono_const _
  · exact fuelMono_const _
  · exact fuelMono_andThen (fuelMono_parseRSDT m _ _) fun _ => fuelMono_const _

/-- `Init` behind its first loop, on memory whose first RSDP leads to these tables: the
processors and the IO APICs of all the records are in the two vectors, in order; unless a request
for memory fails, or there is no IO APIC, on which it panics. -/
theorem returns_initTables (F : MemPages.FreeList mp fs) (ps : Parse)
    (R : Represents mp nodes slab ps.acpi [] [] 0) {a : Nat} (hrsdp : FirstRsdp m a)
    (hlt : a < searchEnd) (hptr : rsdtPointer m (kptr (some a)) ≠ 0)
    {tables : List (BitVec 32 × List MadtRecord)}
    (T : RsdtAt m (kptr (some (rsdtPointer m (kptr (some a))))) tables) :
    Returns (fun fuel => initTables m fuel ps)
      (fun ps => ioApicsOf (recordsOf tables) ≠ [] ∧
        Represents mp nodes slab ps.acpi (cpusOf (recordsOf tables))
          (ioApicsOf (recordsOf tables)) (cpusOf (recordsOf tables)).length)
      fun e => Stopped e ∨ ioApicsOf (recordsOf tables) = [] ∧ NoIoApic e := by
  have hsearch : (search m).outcome = .ok (some (rsdtPointer m (kptr (some a)))) := by
    rw [hrsdp.outcome hlt, parseRSDP_some hrsdp.isRsdp hptr]
  simp only [initTables, hsearch]
  have hwalk := returns_rsdt F ps T R
  refine (hwalk.imp (fun _ h => h) fun e he => .inl he).andThen (fuelMono_parseRSDT m _ _)
    (fun _ => fuelMono_const _) ?_
  intro ps R
  rw [Collected, List.nil_append, List.nil_append, Nat.zero_add] at R
  exact returns_requireIoApics R

end Acpi

end Chestnut
