import Chestnut.IoApic.Model
import Mathlib.Tactic.Common

/-!
# What the redirection table holds

`Write` passes a `u8` on to the window. A redirection entry arrives exactly if
both of its halves are below 256: vectors survive, the mask bit and everything
else above the vector does not, and the ID register, whose field starts at bit
24, is cleared instead of patched.
-/

namespace Chestnut

namespace IoApicDevice

/-- The register with the low half of a redirection entry. -/
def lowReg (i : Nat) : BitVec 8 := BitVec.ofNat 8 (0x10 + 2 * i)

/-- The register with the high half of a redirection entry. -/
def highReg (i : Nat) : BitVec 8 := BitVec.ofNat 8 (0x10 + 2 * i + 1)

/-- A redirection entry. -/
def entry (d : IoApicDevice) (i : Nat) : BitVec 64 := d.reg (highReg i) ++ d.reg (lowReg i)

/-- The number of interrupts in the version register. -/
def interrupts (d : IoApicDevice) : Nat := (d.reg 0x01#8 >>> 16 &&& 0xFF#32).toNat + 1

/-- Bits 27:24 of the ID register. -/
def idField (d : IoApicDevice) : BitVec 32 := d.reg 0x00#8 >>> 24 &&& 0xF#32

/-- The vector of an entry. -/
def vector (e : BitVec 64) : Nat := (e.setWidth 8).toNat

/-- The mask bit of an entry. -/
def masked (e : BitVec 64) : Bool := e.getLsbD 16

variable {i j : Nat}

theorem lowReg_ne (hi : i < 120) (hj : j < 120) (hne : i ≠ j) : lowReg i ≠ lowReg j := by
  intro he
  have hn := congrArg BitVec.toNat he
  simp only [lowReg, BitVec.toNat_ofNat] at hn
  omega

theorem highReg_ne (hi : i < 120) (hj : j < 120) (hne : i ≠ j) : highReg i ≠ highReg j := by
  intro he
  have hn := congrArg BitVec.toNat he
  simp only [highReg, BitVec.toNat_ofNat] at hn
  omega

/-- The two halves have numbers of different parity. -/
theorem lowReg_ne_highReg (i j : Nat) : lowReg i ≠ highReg j := by
  intro he
  have hn := congrArg BitVec.toNat he
  simp only [lowReg, highReg, BitVec.toNat_ofNat] at hn
  omega

end IoApicDevice

open IoApicDevice

namespace IoApicRegistersAccessor

variable {d : IoApicDevice}

/-- What `Write` does to the registers. -/
theorem write_reg (reg : IoApicRegister) (o v r : BitVec 8) :
    (write reg o v d).reg r =
      if r = (reg.code + o.setWidth 32).setWidth 8 then v.setWidth 32 else d.reg r := rfl

theorem select_redtbl (n : Nat) :
    (IoApicRegister.redtbl.code + (BitVec.ofNat 8 n).setWidth 32).setWidth 8 =
      BitVec.ofNat 8 (0x10 + n) := by
  apply BitVec.eq_of_toNat_eq
  simp only [IoApicRegister.code, BitVec.toNat_setWidth, BitVec.toNat_add, BitVec.toNat_ofNat]
  omega

/-- What `SetEntry` does to the registers. -/
theorem setEntry_reg (index : BitVec 8) (data : BitVec 64) (r : BitVec 8) :
    (setEntry index data d).reg r =
      if r = highReg index.toNat then
        (((data >>> 32).setWidth 32).setWidth 8).setWidth 32
      else if r = lowReg index.toNat then ((data.setWidth 32).setWidth 8).setWidth 32
      else d.reg r := by
  rw [setEntry, write_reg, write_reg, select_redtbl, select_redtbl, lowReg, highReg,
    Nat.mul_comm index.toNat, Nat.add_assoc]

/-- The entry behind `SetEntry`: one byte of each half. -/
theorem setEntry_entry (index : BitVec 8) (data : BitVec 64) :
    (setEntry index data d).entry index.toNat =
      (((data >>> 32).setWidth 32).setWidth 8).setWidth 32 ++
        ((data.setWidth 32).setWidth 8).setWidth 32 := by
  rw [entry, setEntry_reg, setEntry_reg, if_pos rfl, if_neg (lowReg_ne_highReg _ _),
    if_pos rfl]

/-- `SetEntry` leaves every other register as it was. -/
theorem setEntry_reg_other {index : BitVec 8} {data : BitVec 64} {r : BitVec 8}
    (hl : r ≠ lowReg index.toNat) (hh : r ≠ highReg index.toNat) :
    (setEntry index data d).reg r = d.reg r := by
  rw [setEntry_reg, if_neg hh, if_neg hl]

/-- A word survives its way through the window exactly if both halves are bytes. -/
theorem bytes_eq_iff (data : BitVec 64) :
    (((data >>> 32).setWidth 32).setWidth 8).setWidth 32 ++
        ((data.setWidth 32).setWidth 8).setWidth 32 = data ↔
      (data.setWidth 32).toNat < 256 ∧ ((data >>> 32).setWidth 32).toNat < 256 := by
  rw [← BitVec.toNat_inj]
  simp only [BitVec.toNat_append, BitVec.toNat_setWidth, BitVec.toNat_ushiftRight,
    Nat.shiftRight_eq_div_pow, Nat.shiftLeft_eq]
  rw [← Nat.shiftLeft_eq, ← Nat.shiftLeft_add_eq_or_of_lt (by omega), Nat.shiftLeft_eq]
  have hdata := data.isLt
  omega

end IoApicRegistersAccessor

namespace IoApic

open IoApicRegistersAccessor

variable {a : IoApic} {d : IoApicDevice} {i n : Nat}

/-- What `Init` writes into an entry, masked or not. -/
def written (a : IoApic) (i : Nat) : BitVec 64 :=
  BitVec.ofNat 64 ((32 + i + a.interruptBase.toNat) % 256)

theorem bytes_of_u32 (v : BitVec 32) :
    ((((v.setWidth 64) >>> 32).setWidth 32).setWidth 8).setWidth 32 ++
        (((v.setWidth 64).setWidth 32).setWidth 8).setWidth 32 =
      BitVec.ofNat 64 (v.toNat % 256) := by
  apply BitVec.eq_of_toNat_eq
  simp only [BitVec.toNat_append, BitVec.toNat_setWidth, BitVec.toNat_ushiftRight,
    Nat.shiftRight_eq_div_pow, BitVec.toNat_ofNat]
  rw [← Nat.shiftLeft_add_eq_or_of_lt (by omega), Nat.shiftLeft_eq]
  have hv := v.isLt
  omega

theorem toNat_index (hi : i < 120) : ((BitVec.ofNat 32 i).setWidth 8).toNat = i := by
  simp only [BitVec.toNat_setWidth, BitVec.toNat_ofNat]
  omega

/-- One turn of the loop of `Init`. -/
theorem initEntry_entry (hi : i < 120) :
    (a.initEntry (BitVec.ofNat 32 i) d).entry i = a.written i := by
  rw [initEntry]
  split
  next h =>
    obtain ⟨hb, hz⟩ := h
    have hi0 : i = 0 := by
      have hn := congrArg BitVec.toNat hz
      simp only [BitVec.toNat_ofNat] at hn
      omega
    subst hi0
    have he := setEntry_entry (d := d) ((BitVec.ofNat 32 0).setWidth 8)
      ((kIntMasked ||| (kIRQOffset + BitVec.ofNat 32 0)).setWidth 64)
    rw [bytes_of_u32] at he
    rw [written, ← hb]
    exact he
  next h =>
    have he := setEntry_entry (d := d) ((BitVec.ofNat 32 i).setWidth 8)
      ((kIRQOffset + BitVec.ofNat 32 i + a.interruptBase).setWidth 64)
    rw [bytes_of_u32, toNat_index hi] at he
    rw [enableIrq, he, written]
    congr 1
    simp only [kIRQOffset, BitVec.toNat_add, BitVec.toNat_ofNat]
    omega

/-- The registers that one turn of the loop may change. -/
theorem initEntry_reg_other (hi : i < 120) {r : BitVec 8} (hl : r ≠ lowReg i)
    (hh : r ≠ highReg i) : (a.initEntry (BitVec.ofNat 32 i) d).reg r = d.reg r := by
  rw [← toNat_index hi] at hl hh
  rw [initEntry]
  split
  · exact setEntry_reg_other hl hh
  · exact setEntry_reg_other hl hh

/-- The whole loop of `Init`: what was written so far, and the registers below the
table. -/
theorem initEntries_entry (hn : n ≤ 120) (hi : i < n) :
    (a.initEntries n d).entry i = a.written i := by
  induction n with
  | zero => cases hi
  | succ n ih =>
      rw [initEntries]
      rcases Nat.lt_succ_iff_lt_or_eq.mp hi with hlt | rfl
      · have hne : i ≠ n := Nat.ne_of_lt hlt
        rw [entry,
          initEntry_reg_other (by omega) (lowReg_ne_highReg _ _).symm
            (highReg_ne (by omega) (by omega) hne),
          initEntry_reg_other (by omega) (lowReg_ne (by omega) (by omega) hne)
            (lowReg_ne_highReg _ _), ← entry]
        exact ih (by omega) hlt
      · exact initEntry_entry (by omega)

theorem initEntries_reg_low (hn : n ≤ 120) {r : BitVec 8} (hr : r.toNat < 0x10) :
    (a.initEntries n d).reg r = d.reg r := by
  induction n with
  | zero => rfl
  | succ n ih =>
      have hl : r ≠ lowReg n := by
        rintro rfl
        simp only [lowReg, BitVec.toNat_ofNat] at hr
        omega
      have hh : r ≠ highReg n := by
        rintro rfl
        simp only [highReg, BitVec.toNat_ofNat] at hr
        omega
      rw [initEntries, initEntry_reg_other (by omega) hl hh]
      exact ih (by omega)

theorem patchId_eq (a : IoApic) (d : IoApicDevice) :
    a.patchId d =
      if d.idField ≠ a.id then
        write .id 0#8 ((a.id <<< 24).setWidth 8) { d with ioregsel := IoApicRegister.id.code }
      else { d with ioregsel := IoApicRegister.id.code } := rfl

/-- The ID register behind `patchId`: a wrong ID is replaced by zero. -/
theorem patchId_reg (r : BitVec 8) :
    (a.patchId d).reg r = if r = 0x00#8 ∧ d.idField ≠ a.id then 0#32 else d.reg r := by
  have hzero : ((a.id <<< 24).setWidth 8).setWidth 32 = 0#32 := by
    apply BitVec.eq_of_toNat_eq
    simp only [BitVec.toNat_setWidth, BitVec.toNat_shiftLeft, Nat.shiftLeft_eq,
      BitVec.toNat_ofNat]
    omega
  by_cases hid : d.idField = a.id
  · rw [patchId_eq, if_neg fun h => h hid, if_neg fun h => h.2 hid]
  · rw [patchId_eq, if_pos hid, write_reg, hzero]
    by_cases hr : r = 0x00#8
    · rw [if_pos (And.intro hr hid)]
      exact if_pos hr
    · rw [if_neg fun h : r = 0x00#8 ∧ d.idField ≠ a.id => hr h.1]
      exact if_neg hr

/-- The number of interrupts as `Init` computes it. -/
theorem toNat_maxInterrupts :
    ((d.reg 0x01#8 >>> 16 &&& 0xFF#32) + 1#32).toNat = d.interrupts := by
  rw [interrupts, BitVec.toNat_add]
  have hle : (d.reg 0x01#8 >>> 16 &&& 0xFF#32).toNat ≤ 255 := by
    rw [BitVec.toNat_and]
    exact Nat.and_le_right
  simp only [BitVec.toNat_ofNat]
  omega

/-- `Init` returns exactly if there is a second interrupt, and then has filled the
table. -/
theorem init_eq (hm : d.interrupts ≤ 120) :
    (2 ≤ d.interrupts → a.init d = .ok (a.initEntries d.interrupts
      { a.patchId d with ioregsel := IoApicRegister.ver.code })) ∧
    (d.interrupts < 2 → ∃ e, a.init d = .error e) := by
  have hver : (a.patchId d).reg 0x01#8 = d.reg 0x01#8 := by
    rw [patchId_reg, if_neg fun h => absurd h.1 (by decide)]
  have hmax : (d.reg 0x01#8 >>> 16 &&& 0xFF#32 ≠ 0#32) ↔ 2 ≤ d.interrupts := by
    rw [interrupts, ne_eq, ← BitVec.toNat_inj]
    simp only [BitVec.toNat_ofNat]
    omega
  have hinit : a.init d = do
      kassert (d.reg 0x01#8 >>> 16 &&& 0xFF#32 ≠ 0#32) "max_value"
      kassert (d.interrupts < kMaxInterrupt) "max_interrupts < IrqVector::kMaxInterrupt"
      return a.initEntries d.interrupts
        { a.patchId d with ioregsel := IoApicRegister.ver.code } := by
    rw [← toNat_maxInterrupts, ← hver]
    rfl
  rw [hinit]
  constructor
  · intro h2
    rw [decide_eq_true (hmax.mpr h2), decide_eq_true (Nat.lt_of_le_of_lt hm (by decide))]
    rfl
  · intro h2
    rw [decide_eq_false fun h => absurd (hmax.mp h) (by omega)]
    exact ⟨_, rfl⟩

/-- What `Init` is for: every interrupt has its vector and only the timer of the first
IO APIC is masked, and the device has the ID of the table. -/
def Programmed (a : IoApic) (m : Nat) (d : IoApicDevice) : Prop :=
  (∀ i < m, vector (d.entry i) = 32 + i + a.interruptBase.toNat ∧
    masked (d.entry i) = decide (i = 0 ∧ a.interruptBase = 0#32)) ∧ d.idField = a.id

theorem vector_written (a : IoApic) (i : Nat) :
    vector (a.written i) = (32 + i + a.interruptBase.toNat) % 256 := by
  simp only [vector, written, BitVec.toNat_setWidth, BitVec.toNat_ofNat]
  omega

/-- Nothing that `Init` writes has the mask bit. -/
theorem masked_written (a : IoApic) (i : Nat) : masked (a.written i) = false := by
  rw [masked, written, BitVec.getLsbD_ofNat, Nat.testBit_lt_two_pow]
  · rfl
  · calc (32 + i + a.interruptBase.toNat) % 256 < 256 := Nat.mod_lt _ (by decide)
      _ ≤ 2 ^ 16 := by decide

/-- The ID field behind `Init`. -/
theorem initEntries_idField (hn : n ≤ 120) (s : BitVec 32) :
    (a.initEntries n { a.patchId d with ioregsel := s }).idField = a.id ↔
      d.idField = a.id ∨ a.id = 0#32 := by
  rw [idField, initEntries_reg_low hn (by decide), patchId_reg]
  by_cases hid : d.idField = a.id
  · rw [if_neg fun h => h.2 hid]
    exact iff_of_true hid (.inl hid)
  · rw [if_pos ⟨rfl, hid⟩]
    constructor
    · exact fun h => .inr h.symm
    · rintro (h | h)
      · exact absurd h hid
      · rw [h]
        rfl

/-- The table behind `Init` is right exactly if no vector is beyond a byte and no entry
has to be masked. -/
theorem initEntries_programmed_iff (h2 : 2 ≤ n) (hn : n ≤ 120) (s : BitVec 32) :
    a.Programmed n (a.initEntries n { a.patchId d with ioregsel := s }) ↔
      a.interruptBase ≠ 0#32 ∧ a.interruptBase.toNat + n ≤ 224 ∧
        (d.idField = a.id ∨ a.id = 0#32) := by
  rw [Programmed, initEntries_idField hn]
  constructor
  · rintro ⟨hent, hid⟩
    refine ⟨?_, ?_, hid⟩
    · intro hb
      obtain ⟨-, hmask⟩ := hent 0 (by omega)
      rw [initEntries_entry hn (by omega), masked_written] at hmask
      exact absurd hmask.symm (by simp [hb])
    · obtain ⟨hvec, -⟩ := hent (n - 1) (by omega)
      rw [initEntries_entry hn (by omega), vector_written] at hvec
      omega
  · rintro ⟨hb, hle, hid⟩
    refine ⟨?_, hid⟩
    intro i hi
    rw [initEntries_entry hn hi, vector_written, masked_written]
    exact ⟨by omega, by simp [hb]⟩

/-- `SetEntry` changes only its entry, and the entry is the one asked for exactly if both
halves of the data fit the `u8` parameter of `Write`. `Init` returns with the table and the
ID as they should be exactly if there are at least two interrupts, no entry is to be masked,
all vectors are bytes and the ID is right already or zero. -/
theorem programmed_iff (a : IoApic) (d : IoApicDevice) (index : BitVec 8) (data : BitVec 64)
    (hm : d.interrupts ≤ 120) :
    (((setEntry index data d).entry index.toNat = data ∧
        ∀ r, r ≠ lowReg index.toNat → r ≠ highReg index.toNat →
          (setEntry index data d).reg r = d.reg r) ↔
      (data.setWidth 32).toNat < 256 ∧ ((data >>> 32).setWidth 32).toNat < 256) ∧
    ((∃ d', a.init d = .ok d' ∧ a.Programmed d.interrupts d') ↔
      2 ≤ d.interrupts ∧ a.interruptBase ≠ 0#32 ∧ a.interruptBase.toNat + d.interrupts ≤ 224 ∧
        (d.idField = a.id ∨ a.id = 0#32)) := by
  constructor
  · rw [setEntry_entry, bytes_eq_iff]
    exact and_iff_left fun r hl hh => setEntry_reg_other hl hh
  · obtain ⟨hok, hpanic⟩ := init_eq (a := a) hm
    rcases Nat.lt_or_ge d.interrupts 2 with hlt | h2
    · obtain ⟨e, he⟩ := hpanic hlt
      refine iff_of_false ?_ fun h => absurd h.1 (by omega)
      rintro ⟨d', hd', -⟩
      rw [he] at hd'
      cases hd'
    · rw [hok h2, and_iff_right h2, ← initEntries_programmed_iff h2 hm]
      constructor
      · rintro ⟨d', hd', hp⟩
        cases hd'
        exact hp
      · exact fun hp => ⟨_, rfl, hp⟩

/-- A device with 24 interrupts. -/
def device24 : IoApicDevice := ⟨0#32, fun r => if r = 0x01#8 then 0x170011#32 else 0#32⟩

theorem programmed_iff_device24 :
    ∃ d', init ⟨0#32, 0xFEC00000, 24#32⟩ device24 = .ok d' ∧
      Programmed ⟨0#32, 0xFEC00000, 24#32⟩ 24 d' := by
  have hm : device24.interrupts = 24 := by decide
  have h := (programmed_iff ⟨0#32, 0xFEC00000, 24#32⟩ device24 0#8 0#64 (by decide)).2
  rw [hm] at h
  exact h.mpr (by decide)

/-- The first IO APIC with ID 2: the timer entry is not masked, and the ID is lost. -/
theorem init_loses_mask :
    (setEntry 0#8 0x10020#64 device24).entry 0 = 0x20#64 ∧
      ∃ d', init ⟨2#32, 0xFEC00000, 0#32⟩ device24 = .ok d' ∧ masked (d'.entry 0) = false ∧
        d'.idField = 0#32 := by
  refine ⟨by decide, ?_⟩
  obtain ⟨hok, -⟩ := init_eq (a := ⟨2#32, 0xFEC00000, 0#32⟩) (d := device24) (by decide)
  refine ⟨_, hok (by decide), ?_, ?_⟩
  · rw [initEntries_entry (by decide) (by decide)]
    exact masked_written _ _
  · rw [idField, initEntries_reg_low (by decide) (by decide), patchId_reg]
    decide

end IoApic

end Chestnut
