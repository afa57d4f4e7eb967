import Chestnut.Interrupt.Chains
import Chestnut.Interrupt.Gates
import Chestnut.Interrupt.Pic
import Chestnut.IoApic.Entries

/-!
# Bringing up the interrupts

The end of `KernelMain`: `Acpi::InitIoApics`, the loop that takes the address of
the interrupt table from the IO APICs, and `IrqVector::Setup` with that address.
The loop stores the interrupt base of an IO APIC, that is, the number of its first
interrupt, as the address; the processor takes its table from `IDT64`.

## Implementation notes

A device is found by the address of its registers. The wrappers are given by
their entry points. The assembly at the end of `Setup` moves `%rax` into its
operand and not the other way, so that `lidt` loads from wherever `%rax` points
to: what it finds there is a parameter, and `IDT64` the intended value.
-/

namespace Chestnut

open Lib IrqVector

variable {H : Type}

/-- `IDT`. -/
structure Idt where
  len : BitVec 16
  addr : BitVec 64
  deriving DecidableEq, Repr

/-- `IDT64` of `boot.asm`. -/
def idt64 : Idt := ⟨4095#16, 0xFFFFFF0000000000#64⟩

/-- What `Setup` works on. -/
structure InterruptState (H : Type) where
  baseIrqAddr : BitVec 64
  vec : IrqVector H
  table : ExceptionTable
  pics : PicPair
  mem : Memory
  idtr : Idt

namespace InterruptState

/-- `IrqVector::Setup`. -/
def setup (wrapper : BitVec 8 → BitVec 64) (found : Idt) (baseAddr : BitVec 64)
    (s : InterruptState H) : InterruptState H where
  baseIrqAddr := baseAddr
  pics := s.pics.setup
  vec := s.vec.clearHandlers
  table := s.table.setup
  mem := handlerInstaller baseAddr wrapper 0xFF s.mem
  idtr := found

/-- The gate that the processor takes for a vector. -/
def gateAt (s : InterruptState H) (v : BitVec 8) : Option Gate :=
  if 16 * v.toNat + 15 ≤ s.idtr.len.toNat then
    some (readGate s.mem (s.idtr.addr + BitVec.ofNat 64 (16 * v.toNat)))
  else none

end InterruptState

/-- `Acpi::InitIoApics`. -/
def initIoApics : List IoApic → (Nat → IoApicDevice) → Except Fault (Nat → IoApicDevice)
  | [], devs => .ok devs
  | a :: as, devs => do
      let d ← a.init (devs a.addr)
      initIoApics as (Function.update devs a.addr d)

/-- The loop over the IO APICs in `KernelMain`. -/
def irqVectorBase : List IoApic → BitVec 64 → Except Fault (BitVec 64)
  | [], base => .ok base
  | a :: as, base => do
      if base ≠ 0#64 then
        kassert (base = a.interruptBase.setWidth 64)
          "irq_vector_base == io_apic->interrupt_base_address()"
      irqVectorBase as (a.interruptBase.setWidth 64)

/-- `KernelMain` from `InitIoApics` to `Setup`. -/
def bringUp (wrapper : BitVec 8 → BitVec 64) (found : Idt) (as : List IoApic)
    (devs : Nat → IoApicDevice) (s : InterruptState H) :
    Except Fault ((Nat → IoApicDevice) × InterruptState H) := do
  let devs ← initIoApics as devs
  let base ← irqVectorBase as 0#64
  return (devs, s.setup wrapper found base)

section Base

variable {as : List IoApic} {base b : BitVec 64}

theorem setWidth_eq_zero_iff (x : BitVec 32) : x.setWidth 64 = 0#64 ↔ x = 0#32 := by
  constructor
  · intro h
    have hn := congrArg BitVec.toNat h
    have hx := x.isLt
    apply BitVec.eq_of_toNat_eq
    simp only [BitVec.toNat_setWidth, BitVec.toNat_ofNat] at hn ⊢
    omega
  · rintro rfl
    rfl

/-- One turn of the loop. -/
theorem irqVectorBase_cons {a : IoApic} (h : irqVectorBase (a :: as) base = .ok b) :
    (base = 0#64 ∨ base = a.interruptBase.setWidth 64) ∧
      irqVectorBase as (a.interruptBase.setWidth 64) = .ok b := by
  rw [irqVectorBase] at h
  by_cases hbase : base = 0#64
  · rw [if_neg (not_not.mpr hbase)] at h
    exact ⟨.inl hbase, h⟩
  · rw [if_pos hbase] at h
    obtain ⟨⟨⟩, hassert, hrest⟩ := bind_ok h
    exact ⟨.inr (of_decide_eq_true ((kassert_ok_iff _ _).mp hassert)), hrest⟩

/-- The loop comes out with 0 only if every interrupt base is 0. -/
theorem irqVectorBase_eq_zero_iff (h : irqVectorBase as base = .ok b) :
    b = 0#64 ↔ base = 0#64 ∧ ∀ a ∈ as, a.interruptBase = 0#32 := by
  induction as generalizing base with
  | nil =>
      cases h
      simp
  | cons a as ih =>
      obtain ⟨hbase, hrest⟩ := irqVectorBase_cons h
      rw [ih hrest, setWidth_eq_zero_iff, List.forall_mem_cons]
      constructor
      · rintro ⟨ha, has⟩
        refine ⟨hbase.elim id fun heq => ?_, ha, has⟩
        rw [heq, ha]
        rfl
      · exact fun hall => hall.2

theorem irqVectorBase_zero (h : ∀ a ∈ as, a.interruptBase = 0#32) :
    irqVectorBase as 0#64 = .ok 0#64 := by
  induction as with
  | nil => rfl
  | cons a as ih =>
      obtain ⟨ha, has⟩ := List.forall_mem_cons.mp h
      rw [irqVectorBase, ha]
      exact ih has

/-- The address is an interrupt number, far below the end of memory. -/
theorem toNat_irqVectorBase_lt (h : irqVectorBase as base = .ok b) (hb : base.toNat < 2 ^ 32) :
    b.toNat < 2 ^ 32 := by
  induction as generalizing base with
  | nil =>
      cases h
      exact hb
  | cons a as ih =>
      refine ih (irqVectorBase_cons h).2 ?_
      rw [BitVec.toNat_setWidth]
      exact (Nat.mod_le _ _).trans_lt a.interruptBase.isLt

end Base

/-! ### The table that the processor sees -/

section Table

variable {wrapper : BitVec 8 → BitVec 64} {b : BitVec 64} {m : Memory}

/-- The intended gate of a vector. -/
def wrapperGate (wrapper : BitVec 8 → BitVec 64) (v : BitVec 8) : Gate :=
  Install.gate ⟨v, wrapper v, defaultType⟩

theorem handlerInstaller_apply_of_not_inSlot {x : BitVec 64} (h : ∀ irq, ¬ InSlot b irq x)
    (n : Nat) : handlerInstaller b wrapper n m x = m x := by
  induction n with
  | zero => rw [handlerInstaller, installIrqFunction_apply, if_neg (h _)]
  | succ n ih => rw [handlerInstaller, installIrqFunction_apply, if_neg (h _), ih]

/-- The bytes in front of the table are in no slot. -/
theorem not_inSlot_of_lt {k : Nat} (hk : k < b.toNat) (hb : b.toNat < 2 ^ 32) (irq : BitVec 8) :
    ¬ InSlot b irq (idt64.addr + BitVec.ofNat 64 k) := by
  have hirq := irq.isLt
  simp only [InSlot, slot, paddrToKptr, idt64, kernOffset]
  bv_omega

/-- The later installations leave slot 0 alone. -/
theorem handlerInstaller_slot_zero {n : Nat} (hn : n ≤ 0xFF) {k : BitVec 64} (hk : k.toNat < 16) :
    handlerInstaller b wrapper n m (slot b 0#8 + k) =
      gateBytes (wrapper 0#8) defaultType k.toNat := by
  induction n with
  | zero => exact installIrqFunction_slot m ⟨0#8, wrapper 0#8, defaultType⟩ hk
  | succ n ih =>
      have hne : (0#8 : BitVec 8) ≠ BitVec.ofNat 8 (n + 1) := by
        intro h
        have htoNat := congrArg BitVec.toNat h
        simp only [BitVec.toNat_ofNat] at htoNat
        omega
      rw [handlerInstaller, installIrqFunction_apply,
        if_neg fun h => hne ((inSlot_add hk).unique h)]
      exact ih (by omega)

/-- Two of the bytes that a gate to a wrapper must have. -/
theorem bytes_of_readGate {x : BitVec 64} {v : BitVec 8}
    (h : readGate m x = wrapperGate wrapper v) : m (x + 2#64) = 0x08#8 ∧ m (x + 5#64) = 0x8E#8 := by
  refine ⟨BitVec.eq_of_getLsbD_eq fun i hi => ?_, congrArg Gate.type h⟩
  have hsel : m (x + 3#64) ++ m (x + 2#64) = 0x08#16 := congrArg Gate.selector h
  have hbit := congrArg (fun w => w.getLsbD i) hsel
  rw [BitVec.getLsbD_append, if_pos hi] at hbit
  rw [hbit, BitVec.getLsbD_ofNat, BitVec.getLsbD_ofNat, decide_eq_true hi,
    decide_eq_true (hi.trans (by decide))]

/-- A table that is not where the processor looks for it: over zeroed memory,
vector 0 has no gate to its wrapper. -/
theorem readGate_displaced (hb : b ≠ 0#64) (hlt : b.toNat < 2 ^ 32) :
    readGate (handlerInstaller b wrapper 0xFF fun _ => 0#8) idt64.addr ≠
      wrapperGate wrapper 0#8 := by
  intro h
  obtain ⟨hsel, htype⟩ := bytes_of_readGate h
  have hpos : b.toNat ≠ 0 := fun h0 => hb (BitVec.eq_of_toNat_eq h0)
  by_cases h3 : 3 ≤ b.toNat
  · -- the selector lies in front of the table
    have hfront := not_inSlot_of_lt (k := 2) (by omega) hlt
    rw [handlerInstaller_apply_of_not_inSlot hfront] at hsel
    exact absurd hsel (by decide)
  · -- the type is one of the zero bytes of gate 0
    obtain h1 | h2 : b.toNat = 1 ∨ b.toNat = 2 := by omega
    · obtain rfl : b = 1#64 := BitVec.eq_of_toNat_eq h1
      have haddr : idt64.addr + 5#64 = slot 1#64 0#8 + 4#64 := by decide
      rw [haddr, handlerInstaller_slot_zero (Nat.le_refl _) (by decide)] at htype
      change (0#8 : BitVec 8) = 0x8E#8 at htype
      exact absurd htype (by decide)
    · obtain rfl : b = 2#64 := BitVec.eq_of_toNat_eq h2
      have haddr : idt64.addr + 5#64 = slot 2#64 0#8 + 3#64 := by decide
      rw [haddr, handlerInstaller_slot_zero (Nat.le_refl _) (by decide)] at htype
      change (0#8 : BitVec 8) = 0x8E#8 at htype
      exact absurd htype (by decide)

theorem setup_mem (found : Idt) (s : InterruptState H) :
    (s.setup wrapper found b).mem = handlerInstaller b wrapper 0xFF s.mem := rfl

theorem gateAt_of_idt64 {s : InterruptState H} (h : s.idtr = idt64) (v : BitVec 8) :
    s.gateAt v = some (readGate s.mem (idt64.addr + BitVec.ofNat 64 (16 * v.toNat))) := by
  have hv := v.isLt
  have hlimit : 16 * v.toNat + 15 ≤ idt64.len.toNat := by
    simp only [idt64, BitVec.toNat_ofNat]
    omega
  rw [InterruptState.gateAt, h, if_pos hlimit]

/-- A table at address 0 is where the processor looks for it. -/
theorem slot_zero_eq (v : BitVec 8) :
    idt64.addr + BitVec.ofNat 64 (16 * v.toNat) = slot 0#64 v := by
  simp only [slot, paddrToKptr, idt64, kernOffset, Nat.mul_comm 16]
  bv_omega

end Table

/-! ### The devices -/

section Devices

variable {as : List IoApic} {devs devs' : Nat → IoApicDevice}

theorem initIoApics_of_not_mem (h : initIoApics as devs = .ok devs') {p : Nat}
    (hp : p ∉ as.map IoApic.addr) : devs' p = devs p := by
  induction as generalizing devs with
  | nil =>
      cases h
      rfl
  | cons a as ih =>
      obtain ⟨d, -, hrest⟩ := bind_ok h
      obtain ⟨hne, hmem⟩ := not_or.mp fun hm => hp (List.mem_cons.mpr hm)
      rw [ih hrest hmem, Function.update_of_ne hne]

/-- With a device of its own for every IO APIC, each is filled as if it were the
only one. -/
theorem initIoApics_spec (haddr : (as.map IoApic.addr).Nodup)
    (hdevs : ∀ a ∈ as, 2 ≤ (devs a.addr).interrupts ∧ (devs a.addr).interrupts ≤ 120) :
    ∃ devs', initIoApics as devs = .ok devs' ∧
      ∀ a ∈ as, ∀ i < (devs a.addr).interrupts, (devs' a.addr).entry i = a.written i := by
  induction as generalizing devs with
  | nil => exact ⟨devs, rfl, fun a ha => absurd ha List.not_mem_nil⟩
  | cons a as ih =>
      obtain ⟨hfresh, hnodup⟩ := List.nodup_cons.mp haddr
      obtain ⟨⟨h2, h120⟩, hrest⟩ := List.forall_mem_cons.mp hdevs
      have hinit := (IoApic.init_eq (a := a) h120).1 h2
      have hother : ∀ c ∈ as, c.addr ≠ a.addr := fun c hc he =>
        hfresh (he ▸ List.mem_map_of_mem hc)
      obtain ⟨d, hd⟩ : ∃ d, a.init (devs a.addr) = .ok d := ⟨_, hinit⟩
      have hupdated : ∀ c ∈ as, 2 ≤ (Function.update devs a.addr d c.addr).interrupts ∧
          (Function.update devs a.addr d c.addr).interrupts ≤ 120 := by
        intro c hc
        rw [Function.update_of_ne (hother c hc)]
        exact hrest c hc
      obtain ⟨devs', hrun, hentries⟩ := ih hnodup hupdated
      refine ⟨devs', ?_, ?_⟩
      · rw [initIoApics, hd]
        exact hrun
      · intro c hc i hi
        rcases List.mem_cons.mp hc with rfl | hc
        · rw [initIoApics_of_not_mem hrun hfresh, Function.update_self]
          cases hd.symm.trans hinit
          exact IoApic.initEntries_entry h120 hi
        · have hsame : Function.update devs a.addr d c.addr = devs c.addr :=
            Function.update_of_ne (hother c hc) ..
          exact hentries c hc i (hsame ▸ hi)

end Devices

/-- The interrupts are routed: every vector has the gate of its wrapper, the
entries of the IO APICs have their vectors, and nothing comes from the old
controllers, whatever happens on their lines. -/
structure Routed (wrapper : BitVec 8 → BitVec 64) (as : List IoApic)
    (devs devs' : Nat → IoApicDevice) (s : InterruptState H) : Prop where
  gates : ∀ v, s.gateAt v = some (wrapperGate wrapper v)
  entries : ∀ a ∈ as, ∀ i < (devs a.addr).interrupts,
    (devs' a.addr).entry i = BitVec.ofNat 64 ((32 + i + a.interruptBase.toNat) % 256)
  silent : ∀ rs : List PicPair.Lines, (rs.foldl PicPair.request s.pics).intr = false

/-- Whatever is in memory, `KernelMain` gets the interrupts routed exactly if every
IO APIC has the interrupt base 0: the loop passes that base on as the address of
the table, and the processor looks for it at address 0. -/
theorem bringUp_routed_iff (wrapper : BitVec 8 → BitVec 64) (as : List IoApic)
    (devs : Nat → IoApicDevice) (s : InterruptState H) (haddr : (as.map IoApic.addr).Nodup)
    (hdevs : ∀ a ∈ as, 2 ≤ (devs a.addr).interrupts ∧ (devs a.addr).interrupts ≤ 120) :
    (∀ mem, ∃ devs' s', bringUp wrapper idt64 as devs { s with mem } = .ok (devs', s') ∧
        Routed wrapper as devs devs' s') ↔
      ∀ a ∈ as, a.interruptBase = 0#32 := by
  obtain ⟨devs', hinit, hentries⟩ := initIoApics_spec haddr hdevs
  constructor
  · intro h
    obtain ⟨devs₁, s', hrun, R⟩ := h fun _ => 0#8
    rw [bringUp, hinit, ok_bind] at hrun
    obtain ⟨b, hbase, hrun⟩ := bind_ok hrun
    cases hrun
    by_contra hall
    have hb : b ≠ 0#64 := fun hb => hall ((irqVectorBase_eq_zero_iff hbase).mp hb).2
    have hgate := R.gates 0#8
    have hfirst : idt64.addr + BitVec.ofNat 64 (16 * (0#8).toNat) = idt64.addr := by decide
    rw [gateAt_of_idt64 rfl, hfirst, setup_mem] at hgate
    exact readGate_displaced hb (toNat_irqVectorBase_lt hbase (by decide)) (Option.some.inj hgate)
  · intro hall mem
    refine ⟨devs', InterruptState.setup wrapper idt64 0#64 { s with mem }, ?_, ?_, hentries,
      fun rs => PicPair.intr_setup s.pics rs⟩
    · rw [bringUp, hinit, ok_bind, irqVectorBase_zero hall]
      rfl
    · intro v
      rw [gateAt_of_idt64 rfl, slot_zero_eq, setup_mem, setup_gates]
      rfl

/-- One IO APIC works; a second one behind its 24 interrupts breaks the table. -/
theorem bringUp_routed_iff_two :
    let first : IoApic := ⟨0#32, 0xFEC00000, 0#32⟩
    let second : IoApic := ⟨1#32, 0xFEC01000, 24#32⟩
    let devs := fun _ : Nat => IoApic.device24
    (∀ (wrapper : BitVec 8 → BitVec 64) (s : InterruptState Nat) (mem : Memory), ∃ devs' s',
      bringUp wrapper idt64 [first] devs { s with mem } = .ok (devs', s') ∧
        Routed wrapper [first] devs devs' s') ∧
    ∀ (wrapper : BitVec 8 → BitVec 64) (s : InterruptState Nat), ¬ ∀ mem : Memory, ∃ devs' s',
      bringUp wrapper idt64 [first, second] devs { s with mem } = .ok (devs', s') ∧
        Routed wrapper [first, second] devs devs' s' := by
  intro first second devs
  have hdevice : 2 ≤ IoApic.device24.interrupts ∧ IoApic.device24.interrupts ≤ 120 := by decide
  constructor
  · intro wrapper s
    exact (bringUp_routed_iff wrapper [first] devs s (by decide) fun _ _ => hdevice).mpr (by decide)
  · intro wrapper s
    rw [bringUp_routed_iff wrapper [first, second] devs s (by decide) fun _ _ => hdevice]
    decide

end Chestnut
