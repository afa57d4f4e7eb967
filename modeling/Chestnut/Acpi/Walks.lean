import Chestnut.Acpi.Madt
import Chestnut.Lib.Walk

/-!
# Walks over arbitrary tables

Which contents of a RSDT and of a MADT the parser walks without leaving the
length that each table declares. Nothing in the code checks a record against
the end of its table or a length byte against zero, so this is a condition on
the tables. It is exact: a walk that returned and stayed inside met it.
-/

namespace Chestnut

open Lib

namespace Acpi

variable {m : Bytes} {t p : Int} {ps ps' : Parse} {w w' : TableWalk}

/-! ### Reads inside a table -/

/-- The byte is one of those that the table it is read for declares. -/
def Inside (m : Bytes) (r : TableRead) : Prop :=
  r.table ≤ r.addr ∧ r.addr < r.table + m.u32 (r.table + 4)

/-- All reads so far were inside. -/
def AllInside (m : Bytes) (ps : Parse) : Prop := ∀ r ∈ ps.reads, Inside m r

/-- The `n` bytes at `a` are inside the table. -/
def Fits (m : Bytes) (t a : Int) (n : Nat) : Prop := t ≤ a ∧ a + n ≤ t + m.u32 (t + 4)

theorem allInside_read {a : Int} {n : Nat} (hn : 0 < n) :
    AllInside m (ps.read t a n) ↔ Fits m t a n ∧ AllInside m ps := by
  simp only [AllInside, Parse.read, List.forall_mem_append, List.forall_mem_map, mem_span, Inside,
    Fits]
  refine and_congr_left fun _ => ⟨fun h => ?_, fun h x hx => by omega⟩
  have hfirst := h a (by omega)
  have hlast := h (a + n - 1) (by omega)
  omega

theorem allInside_congr (h : ps'.reads = ps.reads) : AllInside m ps' ↔ AllInside m ps := by
  rw [AllInside, AllInside, h]

theorem stopAt_reads {α : Type} (ps : Parse) (x : Except Fault α) :
    Meets (stopAt ps x) (fun _ => True) fun e => e.2.reads = ps.reads := by
  cases x with
  | error e => exact meets_error.mpr rfl
  | ok a => exact meets_ok.mpr trivial

theorem stopAt_inside {α : Type} (hin : AllInside m ps) (x : Except Fault α) :
    Meets (stopAt ps x) (fun _ => True) fun e => AllInside m e.2 :=
  (stopAt_reads ps x).imp (fun _ h => h) fun _ h => (allInside_congr h).mpr hin

/-! ### One record -/

/-- The bytes that the parser reads of a record of this type. -/
def need (m : Bytes) (p : Int) : Nat :=
  if m.u8 p = typeLocalApic then 8 else if m.u8 p = typeIoApic then 12 else 2

/-- The reads of the `switch`. -/
def logged (m : Bytes) (t p : Int) (ps : Parse) : Parse :=
  if m.u8 p = typeLocalApic then ps.read t (p + 2) 6
  else if m.u8 p = typeIoApic then (ps.read t (p + 2) 1).read t (p + 4) 8
  else ps

theorem allInside_logged :
    AllInside m (logged m t p (ps.read t p 2)) ↔ Fits m t p (need m p) ∧ AllInside m ps := by
  rw [logged, need]
  split
  · rw [allInside_read (by decide), allInside_read (by decide), ← and_assoc]
    refine and_congr_left fun _ => ?_
    simp only [Fits]
    omega
  · split
    · rw [allInside_read (by decide), allInside_read (by decide), allInside_read (by decide),
        ← and_assoc, ← and_assoc]
      refine and_congr_left fun _ => ?_
      simp only [Fits]
      omega
    · exact allInside_read (by decide)

theorem parseCase_reads (m : Bytes) (t p : Int) (ps : Parse) :
    Meets (parseCase m t p ps) (fun ps' => ps'.reads = (logged m t p ps).reads)
      fun e => e.2.reads = (logged m t p ps).reads := by
  rw [parseCase, logged]
  split
  · exact (stopAt_reads (ps.read t (p + 2) 6) _).bind fun _ _ => meets_ok.mpr rfl
  · split
    · refine (stopAt_reads ((ps.read t (p + 2) 1).read t (p + 4) 8) _).bind ?_
      rintro ⟨q, a⟩ -
      exact (stopAt_reads { (ps.read t (p + 2) 1).read t (p + 4) 8 with acpi := a } _).bind
        fun _ _ => meets_ok.mpr rfl
    · exact meets_ok.mpr rfl

/-- One turn of the loop over the records. -/
theorem parseRecord_inside (m : Bytes) (t : Int) (w : TableWalk) :
    Meets (parseRecord m t w)
      (fun w' => w'.p = w.p + m.u8 (w.p + 1) ∧
        (AllInside m w'.parse ↔ Fits m t w.p (need m w.p) ∧ AllInside m w.parse))
      fun e => AllInside m e.2 ↔ Fits m t w.p (need m w.p) ∧ AllInside m w.parse := by
  have hcase := (parseCase_reads m t w.p (w.parse.read t w.p 2)).imp
    (fun _ h => (allInside_congr (m := m) h).trans allInside_logged)
    fun _ h => (allInside_congr (m := m) h).trans allInside_logged
  exact hcase.bind fun ps' h => meets_ok.mpr ⟨rfl, h⟩

/-! ### Walks -/

section Walk

variable {good : Int → Prop} {length : Int → Nat}
variable {body : Nat → TableWalk → Option (Except (Fault × Parse) TableWalk)}

/-- A walk over good entries ends, with all reads inside. -/
theorem settles_of_walkWithin (h : WalkWithin (t + m.u32 (t + 4)) good length p)
    (hturn : ∀ w, t ≤ w.p → good w.p → AllInside m w.parse →
      Returns (fun n => body n w) (fun w' => w'.p = w.p + length w.p ∧ AllInside m w'.parse)
        fun e => AllInside m e.2) (hle : t ≤ p) (hin : AllInside m ps) :
    Settles (inTable m t) body ⟨p, ps⟩ (fun w => AllInside m w.parse)
      fun e => AllInside m e.2 := by
  refine h.induct (motive := fun p => ∀ ps, t ≤ p → AllInside m ps →
    Settles (inTable m t) body ⟨p, ps⟩ (fun w => AllInside m w.parse)
      fun e => AllInside m e.2) ?_ ?_ ps hle hin
  · intro p hstop ps _ hin
    exact .done (decide_eq_false (Int.not_lt.mpr hstop)) hin
  · intro p hlt hgood ih ps hle hin
    refine .turn (decide_eq_true hlt) ?_
    obtain ⟨n, r, hr, hmeets⟩ := hturn ⟨p, ps⟩ hle hgood hin
    refine ⟨n, r, hr, hmeets.imp ?_ fun _ he => he⟩
    rintro ⟨p', ps'⟩ ⟨rfl, hin'⟩
    exact ih ps' (by omega) hin'

/-- A walk that has ended with all reads inside went over good entries. -/
theorem walkWithin_of_ends (good : Int → Prop) (length : Int → Nat)
    (hturn : ∀ n w w', body n w = some (.ok w') → w'.p = w.p + length w.p ∧
      (AllInside m w'.parse → AllInside m w.parse ∧ good w.p))
    {r : Except (Fault × Parse) TableWalk} (h : Ends (inTable m t) body w r) (hr : r = .ok w')
    (hin : AllInside m w'.parse) :
    AllInside m w.parse ∧ WalkWithin (t + m.u32 (t + 4)) good length w.p := by
  induction h with
  | done hg =>
      cases hr
      exact ⟨hin, .done (Int.not_lt.mp (of_decide_eq_false hg))⟩
  | fault => cases hr
  | @turn w w₁ r n hg hb rest ih =>
      obtain ⟨hin₁, next⟩ := ih hr
      obtain ⟨hp, hback⟩ := hturn n w w₁ hb
      obtain ⟨hinw, hgood⟩ := hback hin₁
      rw [hp] at next
      refine ⟨hinw, ?_⟩
      by_cases hzero : length w.p = 0
      · -- an entry of length zero is the next one again
        simpa [hzero] using next
      · exact .entry hgood hzero next

end Walk

/-! ### The MADT -/

/-- The header and the records of a MADT stay within its length. -/
def MadtWithin (m : Bytes) (t : Int) : Prop :=
  40 ≤ m.u32 (t + 4) ∧
    WalkWithin (t + m.u32 (t + 4)) (fun p => p + need m p ≤ t + m.u32 (t + 4))
      (fun p => m.u8 (p + 1)) (t + 44)

theorem parseHeader_ok (h : parseHeader m t ps = .ok ps') :
    AllInside m ps' ↔ 40 ≤ m.u32 (t + 4) ∧ AllInside m ps := by
  obtain ⟨-, -, h⟩ := bind_ok h
  obtain ⟨-, -, h⟩ := bind_ok h
  obtain ⟨a, -, h⟩ := bind_ok h
  cases h
  have hsame : AllInside m { ps.read t (t + 36) 4 with acpi := a } ↔
      AllInside m (ps.read t (t + 36) 4) := allInside_congr rfl
  rw [allInside_read (by decide), hsame, allInside_read (by decide), ← and_assoc]
  apply and_congr_left
  intro _
  simp only [Fits]
  omega

theorem parseHeader_inside (hlen : 40 ≤ m.u32 (t + 4)) (hin : AllInside m ps) :
    Meets (parseHeader m t ps) (AllInside m) fun e => AllInside m e.2 := by
  refine ⟨fun _ h => (parseHeader_ok h).mpr ⟨hlen, hin⟩, ?_⟩
  have hread : AllInside m (ps.read t (t + 36) 4) :=
    (allInside_read (by decide)).mpr ⟨⟨by omega, by omega⟩, hin⟩
  have hsteps : Meets (parseHeader m t ps) (fun _ => True) fun e => AllInside m e.2 := by
    refine (stopAt_inside hin _).bind fun _ _ => ?_
    refine (stopAt_inside hread _).bind fun _ _ => ?_
    exact (stopAt_inside hread _).bind fun _ _ => meets_ok.mpr trivial
  exact hsteps.error

theorem returns_parseTableAPIC (h : MadtWithin m t) (hin : AllInside m ps) :
    Returns (fun fuel => parseTableAPIC m t fuel ps) (AllInside m) fun e => AllInside m e.2 := by
  obtain ⟨hlen, hwalk⟩ := h
  refine (returns_const (parseHeader_inside hlen hin)).andThen (fuelMono_const _)
    (fun ps => fuelMono_records m t ⟨t + 44, ps⟩) ?_
  intro ps' hin'
  have hloop : Settles (inTable m t) (fun _ w => some (parseRecord m t w)) ⟨t + 44, ps'⟩
      (fun w => AllInside m w.parse) fun e => AllInside m e.2 :=
    settles_of_walkWithin hwalk
      (fun w hle hfit hin => returns_const ((parseRecord_inside m t w).imp
        (fun _ h => ⟨h.1, h.2.mpr ⟨⟨hle, hfit⟩, hin⟩⟩) fun _ h => h.mpr ⟨⟨hle, hfit⟩, hin⟩))
      (by omega) hin'
  refine (hloop.returns (fuelMono_parseRecord m t)).andThen
    (whileLoop_mono (fuelMono_parseRecord m t) _) (fun _ => fuelMono_const _) ?_
  exact fun w hw => returns_const (meets_ok.mpr hw)

theorem madtWithin_of_parseTableAPIC {fuel : Nat}
    (h : parseTableAPIC m t fuel ps = some (.ok ps')) (hin : AllInside m ps') :
    AllInside m ps ∧ MadtWithin m t := by
  obtain ⟨ps₁, hheader, h⟩ := andThen_eq_ok h
  obtain ⟨w, hloop, h⟩ := andThen_eq_ok h
  cases h
  obtain ⟨hin₁, hwalk⟩ := walkWithin_of_ends
    (fun p => p + need m p ≤ t + m.u32 (t + 4)) (fun p => m.u8 (p + 1))
    (fun n w w' hb => by
      obtain ⟨hp, hiff⟩ := (parseRecord_inside m t w).ok w' (Option.some.inj hb)
      exact ⟨hp, fun hin => ⟨(hiff.mp hin).2, (hiff.mp hin).1.2⟩⟩)
    (ends_of_whileLoop hloop) rfl hin
  obtain ⟨hlen, hin₀⟩ := (parseHeader_ok (Option.some.inj hheader)).mp hin₁
  exact ⟨hin₀, hlen, hwalk⟩

/-! ### The RSDT -/

/-- The signature of a table is within its length, and a MADT stays within its own. -/
def DtWithin (m : Bytes) (t : Int) : Prop :=
  4 ≤ m.u32 (t + 4) ∧ (m.u32 t = apicSignature → MadtWithin m t)

/-- The length word and the entries of a RSDT are within its length, and so is what is read
of the tables it lists. -/
def RsdtWithin (m : Bytes) (t : Int) : Prop :=
  8 ≤ m.u32 (t + 4) ∧
    WalkWithin (t + m.u32 (t + 4))
      (fun p => p + 4 ≤ t + m.u32 (t + 4) ∧ DtWithin m (kptr (some (m.u32 p)))) (fun _ => 4)
      (t + 36)

theorem fuelMono_parseDT (m : Bytes) (t : Int) (ps : Parse) :
    FuelMono fun fuel => parseDT m t fuel ps := by
  refine fuelMono_andThen (fuelMono_const _) fun _ => ?_
  by_cases hsig : m.u32 t = apicSignature
  · simp only [if_pos hsig]
    exact fuelMono_parseTableAPIC m t _
  · simp only [if_neg hsig]
    exact fuelMono_const _

theorem fuelMono_parseEntry (m : Bytes) (t : Int) (w : TableWalk) :
    FuelMono fun fuel => parseEntry m t fuel w :=
  fuelMono_andThen (fuelMono_parseDT m _ _) fun _ => fuelMono_const _

theorem fuelMono_parseRSDT (m : Bytes) (t : Int) (ps : Parse) :
    FuelMono fun fuel => parseRSDT m t fuel ps :=
  fuelMono_andThen (fuelMono_const _) fun _ =>
    fuelMono_andThen (whileLoop_mono (fuelMono_parseEntry m t) _) fun _ => fuelMono_const _

theorem returns_parseDT (h : DtWithin m t) (hin : AllInside m ps) :
    Returns (fun fuel => parseDT m t fuel ps) (AllInside m) fun e => AllInside m e.2 := by
  have hassert := stopAt_inside hin (kassert (t ≠ 0) "ptr")
  have hin' : AllInside m (ps.read t t 4) :=
    (allInside_read (by decide)).mpr ⟨⟨le_rfl, by have := h.1; omega⟩, hin⟩
  by_cases hsig : m.u32 t = apicSignature
  · simp only [parseDT, if_pos hsig]
    exact (returns_const hassert).andThen (fuelMono_const _)
      (fun _ => fuelMono_parseTableAPIC m t _) fun _ _ => returns_parseTableAPIC (h.2 hsig) hin'
  · simp only [parseDT, if_neg hsig]
    exact (returns_const hassert).andThen (fuelMono_const _) (fun _ => fuelMono_const _)
      fun _ _ => returns_const (meets_ok.mpr hin')

theorem dtWithin_of_parseDT {fuel : Nat} (h : parseDT m t fuel ps = some (.ok ps'))
    (hin : AllInside m ps') : AllInside m ps ∧ DtWithin m t := by
  obtain ⟨-, -, h⟩ := andThen_eq_ok h
  have hread : AllInside m (ps.read t t 4) → AllInside m ps ∧ 4 ≤ m.u32 (t + 4) := by
    intro hread
    obtain ⟨hfits, hin⟩ := (allInside_read (by decide)).mp hread
    exact ⟨hin, by have := hfits.2; omega⟩
  simp only at h
  split at h
  · obtain ⟨hin', hmadt⟩ := madtWithin_of_parseTableAPIC h hin
    exact ⟨(hread hin').1, (hread hin').2, fun _ => hmadt⟩
  · rename_i hsig
    cases h
    exact ⟨(hread hin).1, (hread hin).2, fun h => absurd h hsig⟩

theorem returns_parseRSDT (h : RsdtWithin m t) (hin : AllInside m ps) :
    Returns (fun fuel => parseRSDT m t fuel ps) (AllInside m) fun e => AllInside m e.2 := by
  obtain ⟨hlen, hwalk⟩ := h
  have hassert := stopAt_inside hin (kassert (t ≠ 0) "ptr")
  have hin' : AllInside m (ps.read t (t + 4) 4) :=
    (allInside_read (by decide)).mpr ⟨⟨by omega, by omega⟩, hin⟩
  have hloop : Settles (inTable m t) (parseEntry m t) ⟨t + 36, ps.read t (t + 4) 4⟩
      (fun w => AllInside m w.parse) fun e => AllInside m e.2 :=
    settles_of_walkWithin hwalk
      (fun w hle hgood hin => by
        have hread : AllInside m (w.parse.read t w.p 4) :=
          (allInside_read (by decide)).mpr ⟨⟨hle, hgood.1⟩, hin⟩
        exact (returns_parseDT hgood.2 hread).andThen (fuelMono_parseDT m _ _)
          (fun _ => fuelMono_const _) fun _ hin => returns_const (meets_ok.mpr ⟨rfl, hin⟩))
      (by omega) hin'
  have hmono : FuelMono fun n =>
      whileLoop (inTable m t) (parseEntry m t) n ⟨t + 36, ps.read t (t + 4) 4⟩ :=
    whileLoop_mono (fuelMono_parseEntry m t) _
  refine (returns_const hassert).andThen (fuelMono_const _)
    (fun _ => fuelMono_andThen hmono fun _ => fuelMono_const _) ?_
  intro _ _
  refine (hloop.returns (fuelMono_parseEntry m t)).andThen hmono (fun _ => fuelMono_const _) ?_
  exact fun w hw => returns_const (meets_ok.mpr hw)

theorem rsdtWithin_of_parseRSDT {fuel : Nat} (h : parseRSDT m t fuel ps = some (.ok ps'))
    (hin : AllInside m ps') : RsdtWithin m t := by
  obtain ⟨-, -, h⟩ := andThen_eq_ok h
  obtain ⟨w, hloop, h⟩ := andThen_eq_ok h
  cases h
  obtain ⟨hin₁, hwalk⟩ := walkWithin_of_ends
    (fun p => p + 4 ≤ t + m.u32 (t + 4) ∧ DtWithin m (kptr (some (m.u32 p)))) (fun _ => 4)
    (fun n w w' hb => by
      obtain ⟨ps₁, hdt, hb⟩ := andThen_eq_ok hb
      cases hb
      refine ⟨rfl, fun hin => ?_⟩
      obtain ⟨hread, hgood⟩ := dtWithin_of_parseDT hdt hin
      obtain ⟨hfits, hin⟩ := (allInside_read (by decide)).mp hread
      exact ⟨hin, hfits.2, hgood⟩)
    (ends_of_whileLoop hloop) rfl hin
  obtain ⟨hfits, -⟩ := (allInside_read (by decide)).mp hin₁
  exact ⟨by have := hfits.2; omega, hwalk⟩

/-- The walks over a RSDT and over a MADT, for every content of memory. A table that stays
within its length is walked to an end, be it a fault of an assertion or of the heap, and
nothing outside the tables is read. A walk that has returned read something outside if its
table did not; in particular it never returns from a record of length zero. -/
theorem walks_iff (m : Bytes) (ptr : Int) (a : Acpi) :
    (RsdtWithin m ptr → Returns (fun fuel => parseRSDT m ptr fuel ⟨a, []⟩) (AllInside m)
      fun e => AllInside m e.2) ∧
    (∀ fuel ps', parseRSDT m ptr fuel ⟨a, []⟩ = some (.ok ps') →
      (AllInside m ps' ↔ RsdtWithin m ptr)) ∧
    (MadtWithin m ptr → Returns (fun fuel => parseTableAPIC m ptr fuel ⟨a, []⟩) (AllInside m)
      fun e => AllInside m e.2) ∧
    ∀ fuel ps', parseTableAPIC m ptr fuel ⟨a, []⟩ = some (.ok ps') →
      (AllInside m ps' ↔ MadtWithin m ptr) := by
  have hnil : AllInside m ⟨a, []⟩ := fun r hr => absurd hr List.not_mem_nil
  refine ⟨fun h => returns_parseRSDT h hnil, fun fuel ps' hrun => ⟨?_, fun h => ?_⟩,
    fun h => returns_parseTableAPIC h hnil, fun fuel ps' hrun => ⟨?_, fun h => ?_⟩⟩
  · exact rsdtWithin_of_parseRSDT hrun
  · exact meets_ok.mp ((returns_parseRSDT h hnil).meets (fuelMono_parseRSDT m ptr _) hrun)
  · exact fun hin => (madtWithin_of_parseTableAPIC hrun hin).2
  · exact meets_ok.mp ((returns_parseTableAPIC h hnil).meets (fuelMono_parseTableAPIC m ptr _) hrun)

theorem madtWithin_sampleMadt : MadtWithin sampleMadt 0x1000 := by
  have hlen : sampleMadt.u32 (0x1000 + 4) = 74 := by decide
  refine ⟨by decide, ?_⟩
  rw [hlen]
  refine .entry (by decide) (by decide) ?_
  refine .entry (by decide) (by decide) ?_
  exact .entry (by decide) (by decide) (.done (by decide))

theorem walks_iff_sampleMadt :
    Returns (fun fuel => parseTableAPIC sampleMadt 0x1000 fuel sampleParse) (AllInside sampleMadt)
      fun e => AllInside sampleMadt e.2 :=
  (walks_iff sampleMadt 0x1000 sampleParse.acpi).2.2.1 madtWithin_sampleMadt

/-- A MADT whose only record has the length zero, of a type that is skipped. -/
def zeroRecordMadt : Bytes :=
  .ofList 0x1000 (Bytes.le32 apicSignature ++ (Bytes.le32 46 ++ (List.replicate 28 0#8 ++
    (Bytes.le32 0xfee00000 ++ (Bytes.le32 1 ++ [2#8, 0#8])))))

/-- The walk never leaves the record. -/
theorem parse_zeroRecordMadt :
    zeroRecordMadt.u32 (0x1000 + 36) ≠ 0 ∧
      ∀ fuel r, parseTableAPIC zeroRecordMadt 0x1000 fuel sampleParse ≠ some r := by
  refine ⟨by decide, ?_⟩
  intro fuel r hrun
  obtain ⟨ps, hheader, -⟩ := exists_of_okAnd (x := parseHeader zeroRecordMadt 0x1000 sampleParse)
    (p := fun _ => true) (by decide +kernel)
  have hguard : ∀ w : TableWalk, w.p = 0x1000 + 44 → inTable zeroRecordMadt 0x1000 w = true := by
    intro w hw
    rw [inTable, hw]
    decide
  have hrecord : ∀ w : TableWalk, w.p = 0x1000 + 44 →
      ∃ w', parseRecord zeroRecordMadt 0x1000 w = .ok w' ∧ w'.p = 0x1000 + 44 := by
    rintro ⟨p, ps⟩ rfl
    have htype : zeroRecordMadt.u8 (0x1000 + 44) = 2 := by decide
    have hlen : zeroRecordMadt.u8 (0x1000 + 44 + 1) = 0 := by decide
    refine ⟨⟨0x1000 + 44, ps.read 0x1000 (0x1000 + 44) 2⟩, ?_, rfl⟩
    rw [parseRecord, parseCase, htype, hlen]
    rfl
  have hloop : ∀ r, whileLoop (inTable zeroRecordMadt 0x1000)
      (fun _ w => some (parseRecord zeroRecordMadt 0x1000 w)) fuel ⟨0x1000 + 44, ps⟩ ≠ some r := by
    intro r hr
    obtain ⟨n, w, e, hw, hb, -⟩ := (ends_of_whileLoop hr).error_of_guard hguard
      (fun w n w' hw hb => by
        obtain ⟨w₁, hw₁, hp⟩ := hrecord w hw
        rw [hw₁] at hb
        cases hb
        exact hp) rfl
    obtain ⟨w₁, hw₁, -⟩ := hrecord w hw
    rw [hw₁] at hb
    cases hb
  rw [parseTableAPIC, hheader, andThen_ok] at hrun
  rcases andThen_eq_some hrun with ⟨e, hr, -⟩ | ⟨w, hr, -⟩
  · exact hloop _ hr
  · exact hloop _ hr

end Acpi

end Chestnut
