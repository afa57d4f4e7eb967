import Chestnut.Base
import Chestnut.Lib.Words
import Mathlib.Data.List.Induction

/-!
# Interrupt gates

`IrqVector::InstallIrqFunction` builds the sixteen bytes of a gate and stores
them into the slot of its vector. The processor reads a slot as a gate with an
offset scattered over three fields. The table after any sequence of calls is
described slot by slot.

## Implementation notes

Memory is addressed by words of 64 bits, so the address of a slot wraps around
as it does in the source. The loop that stores the gate is `Lib.storeBytes`.
-/

namespace Chestnut

open Lib

/-- `PADDR_TO_KPTR`. -/
def paddrToKptr (paddr : BitVec 64) : BitVec 64 := paddr + BitVec.ofNat 64 kernOffset

namespace IrqVector

/-- The array `b` of `InstallIrqFunction`. -/
def gateBytes (func : BitVec 64) (type : BitVec 8) : Nat → BitVec 8
  | 0 => (func &&& 0x00000000000000FF#64).setWidth 8
  | 1 => ((func &&& 0x000000000000FF00#64) >>> 8).setWidth 8
  | 2 => 0x08#8
  | 3 => 0#8
  | 4 => 0#8
  | 5 => type
  | 6 => ((func &&& 0x0000000000FF0000#64) >>> 16).setWidth 8
  | 7 => ((func &&& 0x00000000FF000000#64) >>> 24).setWidth 8
  | 8 => ((func &&& 0x000000FF00000000#64) >>> 32).setWidth 8
  | 9 => ((func &&& 0x0000FF0000000000#64) >>> 40).setWidth 8
  | 10 => ((func &&& 0x00FF000000000000#64) >>> 48).setWidth 8
  | 11 => ((func &&& 0xFF00000000000000#64) >>> 56).setWidth 8
  | _ => 0#8

/-- The address of the first byte of a slot, behind `PADDR_TO_KPTR`. -/
def slot (baseIrqAddr : BitVec 64) (irqId : BitVec 8) : BitVec 64 :=
  paddrToKptr (baseIrqAddr + BitVec.ofNat 64 (irqId.toNat * 16))

/-- The arguments of a call of `InstallIrqFunction`. -/
structure Install where
  irqId : BitVec 8
  func : BitVec 64
  type : BitVec 8
  deriving DecidableEq, Repr

/-- `InstallIrqFunction`. -/
def installIrqFunction (baseIrqAddr : BitVec 64) (m : Memory) (c : Install) : Memory :=
  storeBytes m (slot baseIrqAddr c.irqId) (gateBytes c.func c.type) 16

/-- The default argument `type`. -/
def defaultType : BitVec 8 := 0x8E#8

/-- A sequence of calls. -/
def installAll (baseIrqAddr : BitVec 64) (calls : List Install) (m : Memory) : Memory :=
  calls.foldl (installIrqFunction baseIrqAddr) m

/-- `HandlerInstaller<N>`: the constructor of the base class runs first. -/
def handlerInstaller (baseIrqAddr : BitVec 64) (interruptWrapper : BitVec 8 → BitVec 64) :
    Nat → Memory → Memory
  | 0, m => installIrqFunction baseIrqAddr m ⟨0#8, interruptWrapper 0#8, defaultType⟩
  | n + 1, m =>
      installIrqFunction baseIrqAddr (handlerInstaller baseIrqAddr interruptWrapper n m)
        ⟨BitVec.ofNat 8 (n + 1), interruptWrapper (BitVec.ofNat 8 (n + 1)), defaultType⟩

/-- What the processor takes from a slot; `reserved` are the bits that must be
zero, those above the IST index last. -/
structure Gate where
  offset : BitVec 64
  selector : BitVec 16
  ist : BitVec 3
  type : BitVec 8
  reserved : BitVec 37
  deriving DecidableEq, Repr

/-- The slot at `a`, read as a gate. -/
def readGate (m : Memory) (a : BitVec 64) : Gate where
  offset := m (a + 11#64) ++ m (a + 10#64) ++ m (a + 9#64) ++ m (a + 8#64) ++ m (a + 7#64) ++
    m (a + 6#64) ++ m (a + 1#64) ++ m a
  selector := m (a + 3#64) ++ m (a + 2#64)
  ist := (m (a + 4#64)).extractLsb' 0 3
  type := m (a + 5#64)
  reserved := m (a + 15#64) ++ m (a + 14#64) ++ m (a + 13#64) ++ m (a + 12#64) ++
    (m (a + 4#64)).extractLsb' 3 5

/-- The gate that a call asks for. -/
def Install.gate (c : Install) : Gate where
  offset := c.func
  selector := 0x08#16
  ist := 0#3
  type := c.type
  reserved := 0#37

/-- The address lies in the slot of a vector. -/
def InSlot (baseIrqAddr : BitVec 64) (irqId : BitVec 8) (x : BitVec 64) : Prop :=
  (x - slot baseIrqAddr irqId).toNat < 16

instance (baseIrqAddr : BitVec 64) (irqId : BitVec 8) (x : BitVec 64) :
    Decidable (InSlot baseIrqAddr irqId x) :=
  inferInstanceAs (Decidable (_ < _))

variable {base : BitVec 64} {irq irq' : BitVec 8}

theorem inSlot_add {k : BitVec 64} (hk : k.toNat < 16) : InSlot base irq (slot base irq + k) := by
  have hdist : slot base irq + k - slot base irq = k := by bv_omega
  rw [InSlot, hdist]
  exact hk

/-- The slots do not overlap, also where the table lies across the end of memory. -/
theorem InSlot.unique {x : BitVec 64} (h : InSlot base irq x) (h' : InSlot base irq' x) :
    irq = irq' := by
  simp only [InSlot, slot, paddrToKptr] at h h'
  apply BitVec.eq_of_toNat_eq
  have hlt := irq.isLt
  have hlt' := irq'.isLt
  bv_omega

theorem installIrqFunction_apply (m : Memory) (c : Install) (x : BitVec 64) :
    installIrqFunction base m c x =
      if InSlot base c.irqId x then
        gateBytes c.func c.type (x - slot base c.irqId).toNat
      else m x :=
  storeBytes_apply m _ _ (by decide) x

/-- The byte of a slot after its installation. -/
theorem installIrqFunction_slot (m : Memory) (c : Install) {k : BitVec 64} (hk : k.toNat < 16) :
    installIrqFunction base m c (slot base c.irqId + k) = gateBytes c.func c.type k.toNat := by
  have hdist : slot base c.irqId + k - slot base c.irqId = k := by bv_omega
  rw [installIrqFunction_apply, if_pos (inSlot_add hk), hdist]

/-- Masking out a byte and shifting it down extracts it. -/
theorem extract_byte (w : BitVec 64) (k : Nat) {mask : BitVec 64} (hmask : mask = 0xFF#64 <<< k) :
    ((w &&& mask) >>> k).setWidth 8 = w.extractLsb' k 8 := by
  subst hmask
  have hones : ∀ i < 8, (0xFF#64).getLsbD i = true := by decide
  apply BitVec.eq_of_getLsbD_eq
  intro i hi
  by_cases hk : k + i < 64
  · have hsub : k + i - k = i := by omega
    simp [hi, hk, hsub, hones i hi]
  · simp [hi, hk, BitVec.getLsbD_of_ge w (k + i) (by omega)]

/-- The bytes of the handler address join up again. -/
theorem gateBytes_offset (func : BitVec 64) (type : BitVec 8) :
    gateBytes func type 11 ++ gateBytes func type 10 ++ gateBytes func type 9 ++
      gateBytes func type 8 ++ gateBytes func type 7 ++ gateBytes func type 6 ++
      gateBytes func type 1 ++ gateBytes func type 0 = func := by
  have h0 : gateBytes func type 0 = func.extractLsb' 0 8 := by
    have hbyte := extract_byte func 0 (BitVec.shiftLeft_zero 0xFF#64).symm
    rwa [BitVec.ushiftRight_zero] at hbyte
  have h1 : gateBytes func type 1 = func.extractLsb' 8 8 := extract_byte func 8 rfl
  have h6 : gateBytes func type 6 = func.extractLsb' 16 8 := extract_byte func 16 rfl
  have h7 : gateBytes func type 7 = func.extractLsb' 24 8 := extract_byte func 24 rfl
  have h8 : gateBytes func type 8 = func.extractLsb' 32 8 := extract_byte func 32 rfl
  have h9 : gateBytes func type 9 = func.extractLsb' 40 8 := extract_byte func 40 rfl
  have h10 : gateBytes func type 10 = func.extractLsb' 48 8 := extract_byte func 48 rfl
  have h11 : gateBytes func type 11 = func.extractLsb' 56 8 := extract_byte func 56 rfl
  rw [h0, h1, h6, h7, h8, h9, h10, h11,
    BitVec.extractLsb'_append_extractLsb'_eq_extractLsb' (by rfl),
    BitVec.extractLsb'_append_extractLsb'_eq_extractLsb' (by rfl),
    BitVec.extractLsb'_append_extractLsb'_eq_extractLsb' (by rfl),
    BitVec.extractLsb'_append_extractLsb'_eq_extractLsb' (by rfl),
    BitVec.extractLsb'_append_extractLsb'_eq_extractLsb' (by rfl),
    BitVec.extractLsb'_append_extractLsb'_eq_extractLsb' (by rfl),
    BitVec.extractLsb'_append_extractLsb'_eq_extractLsb' (by rfl)]
  exact BitVec.extractLsb'_eq_self

/-- The gate of sixteen known bytes. -/
theorem readGate_of_bytes {m : Memory} {a : BitVec 64} {f : BitVec 64 → BitVec 8}
    (hbyte : ∀ k : BitVec 64, k.toNat < 16 → m (a + k) = f k) :
    readGate m a =
      { offset := f 11#64 ++ f 10#64 ++ f 9#64 ++ f 8#64 ++ f 7#64 ++ f 6#64 ++ f 1#64 ++ f 0#64
        selector := f 3#64 ++ f 2#64
        ist := (f 4#64).extractLsb' 0 3
        type := f 5#64
        reserved := f 15#64 ++ f 14#64 ++ f 13#64 ++ f 12#64 ++ (f 4#64).extractLsb' 3 5 } := by
  have h0 := hbyte 0#64 (by decide)
  rw [BitVec.add_zero] at h0
  simp only [readGate, h0, hbyte 1#64 (by decide), hbyte 2#64 (by decide), hbyte 3#64 (by decide),
    hbyte 4#64 (by decide), hbyte 5#64 (by decide), hbyte 6#64 (by decide),
    hbyte 7#64 (by decide), hbyte 8#64 (by decide), hbyte 9#64 (by decide),
    hbyte 10#64 (by decide), hbyte 11#64 (by decide), hbyte 12#64 (by decide),
    hbyte 13#64 (by decide), hbyte 14#64 (by decide), hbyte 15#64 (by decide)]

/-- An installed slot decodes to the gate asked for. -/
theorem readGate_self (m : Memory) (c : Install) :
    readGate (installIrqFunction base m c) (slot base c.irqId) = c.gate := by
  have hbyte : ∀ k : BitVec 64, k.toNat < 16 →
      installIrqFunction base m c (slot base c.irqId + k) = gateBytes c.func c.type k.toNat :=
    fun k hk => installIrqFunction_slot m c hk
  rw [readGate_of_bytes hbyte, Install.gate, Gate.mk.injEq]
  have hreserved : 0#8 ++ 0#8 ++ 0#8 ++ 0#8 ++ (0#8).extractLsb' 3 5 = 0#37 := by decide
  have hselector : 0#8 ++ 0x08#8 = 0x08#16 := by decide
  exact ⟨gateBytes_offset c.func c.type, hselector, rfl, rfl, hreserved⟩

/-- A gate is read from its own slot only. -/
theorem readGate_congr {m m' : Memory} (h : ∀ x, InSlot base irq x → m' x = m x) :
    readGate m' (slot base irq) = readGate m (slot base irq) := by
  have hbyte : ∀ k : BitVec 64, k.toNat < 16 → m' (slot base irq + k) = m (slot base irq + k) :=
    fun k hk => h _ (inSlot_add hk)
  rw [readGate_of_bytes hbyte, readGate_of_bytes fun k _ => rfl]

theorem readGate_of_ne (m : Memory) {c : Install} (h : c.irqId ≠ irq) :
    readGate (installIrqFunction base m c) (slot base irq) = readGate m (slot base irq) := by
  apply readGate_congr
  intro x hx
  rw [installIrqFunction_apply, if_neg fun hc => h (hc.unique hx)]

/-- Installations for different vectors commute. -/
theorem installIrqFunction_comm (m : Memory) {c d : Install} (h : c.irqId ≠ d.irqId) :
    installIrqFunction base (installIrqFunction base m c) d =
      installIrqFunction base (installIrqFunction base m d) c := by
  ext x : 1
  simp only [installIrqFunction_apply]
  by_cases hc : InSlot base c.irqId x
  · have hd : ¬ InSlot base d.irqId x := fun hd => h (hc.unique hd)
    simp only [if_pos hc, if_neg hd]
  · simp only [if_neg hc]

/-- Run lemma: the last call for a vector decides its gate. -/
theorem exists_last_install (m : Memory) {calls : List Install}
    (h : irq ∈ calls.map Install.irqId) :
    ∃ pre c post, calls = pre ++ c :: post ∧ c.irqId = irq ∧ (∀ d ∈ post, d.irqId ≠ irq) ∧
      readGate (installAll base calls m) (slot base irq) = c.gate := by
  induction calls using List.reverseRecOn with
  | nil => cases h
  | append_singleton calls c ih =>
      have hrun : installAll base (calls ++ [c]) m =
          installIrqFunction base (installAll base calls m) c := by
        simp only [installAll, List.foldl_append, List.foldl_cons, List.foldl_nil]
      rw [hrun]
      by_cases hc : c.irqId = irq
      · refine ⟨calls, c, [], rfl, hc, by simp, ?_⟩
        rw [← hc]
        exact readGate_self _ c
      · have hmem : irq ∈ calls.map Install.irqId := by
          simpa [Ne.symm hc] using h
        obtain ⟨pre, d, post, heq, hd, hpost, hread⟩ := ih hmem
        refine ⟨pre, d, post ++ [c], by rw [heq]; simp, hd, ?_, ?_⟩
        · intro e he
          rcases List.mem_append.mp he with he | he
          · exact hpost e he
          · rw [List.mem_singleton.mp he]
            exact hc
        · rw [readGate_of_ne _ hc]
          exact hread

/-- Run lemma: bytes outside the slots of the calls stay. -/
theorem installAll_apply_of_not_inSlot {calls : List Install} {x : BitVec 64}
    (h : ∀ c ∈ calls, ¬ InSlot base c.irqId x) (m : Memory) :
    installAll base calls m x = m x := by
  induction calls generalizing m with
  | nil => rfl
  | cons c calls ih =>
      calc installAll base (c :: calls) m x
          = installAll base calls (installIrqFunction base m c) x := rfl
        _ = installIrqFunction base m c x := ih (fun d hd => h d (List.mem_cons_of_mem c hd)) _
        _ = m x := by
            rw [installIrqFunction_apply, if_neg (h c List.mem_cons_self)]

/-- The table after any sequence of calls: every vector that was installed
decodes to its last installation, no other byte changes, and neighbouring
calls for different vectors may be swapped. -/
theorem installed_gates (base : BitVec 64) (m : Memory) (calls : List Install) :
    (∀ irq ∈ calls.map Install.irqId, ∃ pre c post, calls = pre ++ c :: post ∧ c.irqId = irq ∧
      (∀ d ∈ post, d.irqId ≠ irq) ∧
      readGate (installAll base calls m) (slot base irq) = c.gate) ∧
    (∀ x, (∀ c ∈ calls, ¬ InSlot base c.irqId x) → installAll base calls m x = m x) ∧
    ∀ pre c d post, calls = pre ++ c :: d :: post → c.irqId ≠ d.irqId →
      installAll base calls m = installAll base (pre ++ d :: c :: post) m := by
  refine ⟨fun irq h => exists_last_install m h,
    fun x h => installAll_apply_of_not_inSlot h m, ?_⟩
  rintro pre c d post rfl h
  simp only [installAll, List.foldl_append, List.foldl_cons]
  rw [installIrqFunction_comm _ h]

theorem installed_gates_twice :
    let c : Install := ⟨3#8, 0x123456789ABCDEF0#64, 0x8E#8⟩
    let d : Install := ⟨4#8, 0xFEDCBA9876543210#64, 0x8F#8⟩
    let e : Install := ⟨3#8, 0x0F1E2D3C4B5A6978#64, 0xEE#8⟩
    installAll 0x1000#64 [c, d, e] (fun _ => 0#8) =
      installAll 0x1000#64 [c, e, d] (fun _ => 0#8) :=
  (installed_gates 0x1000#64 (fun _ => 0#8) _).2.2 [_] _ _ [] rfl (by decide)

theorem readGate_handlerInstaller (wrapper : BitVec 8 → BitVec 64) (m : Memory) {n : Nat}
    (hn : n ≤ 0xFF) {irq : BitVec 8} (h : irq.toNat ≤ n) :
    readGate (handlerInstaller base wrapper n m) (slot base irq) =
      Install.gate ⟨irq, wrapper irq, defaultType⟩ := by
  induction n with
  | zero =>
      obtain rfl : irq = 0#8 := BitVec.eq_of_toNat_eq (Nat.le_zero.mp h)
      exact readGate_self m _
  | succ n ih =>
      by_cases hlast : irq = BitVec.ofNat 8 (n + 1)
      · subst hlast
        exact readGate_self (handlerInstaller base wrapper n m) _
      · have hle : irq.toNat ≤ n := by
          have hne : irq.toNat ≠ n + 1 := by
            intro he
            apply hlast
            rw [← he, BitVec.ofNat_toNat, BitVec.setWidth_eq]
          omega
        rw [handlerInstaller, readGate_of_ne _ (Ne.symm hlast)]
        exact ih (by omega) hle

/-- `HandlerInstaller<0xFF>` of `Setup` leaves every vector with a gate to its
own wrapper. -/
theorem setup_gates (base : BitVec 64) (wrapper : BitVec 8 → BitVec 64) (m : Memory)
    (irq : BitVec 8) :
    readGate (handlerInstaller base wrapper 0xFF m) (slot base irq) =
      Install.gate ⟨irq, wrapper irq, defaultType⟩ :=
  readGate_handlerInstaller wrapper m (Nat.le_refl _) (by have := irq.isLt; omega)

end IrqVector

end Chestnut
