import Chestnut.Pci.Model
import Mathlib.Data.List.Induction
import Mathlib.Tactic.IntervalCases

/-!
# The configuration space behind the accessors

The accessors implement one space of bytes, addressed by function and offset.
`lastWritten` is that space read off the history of calls: the byte that the
latest write covering an offset put there. Every call answers from it, and a
write changes exactly its own bytes.
-/

namespace Chestnut

namespace PciCall

def function : PciCall → PciFunction
  | .readB f _ | .readW f _ | .readDW f _ | .writeB f _ _ | .writeW f _ _ | .writeDW f _ _ => f

def offset : PciCall → BitVec 8
  | .readB _ o | .readW _ o | .readDW _ o | .writeB _ o _ | .writeW _ o _ | .writeDW _ o _ => o

/-- The number of bytes that a call reads or writes. -/
def width : PciCall → Nat
  | .readB _ _ | .writeB _ _ _ => 1
  | .readW _ _ | .writeW _ _ _ => 2
  | .readDW _ _ | .writeDW _ _ _ => 4

/-- A call with a slot and a function that exist and an aligned offset. -/
structure Valid (c : PciCall) : Prop where
  slot : c.function.slot.toNat < 32
  func : c.function.func.toNat < 8
  aligned : c.offset.toNat % c.width = 0

/-- The bytes that a call writes, lowest first. -/
def bytes : PciCall → List (BitVec 8)
  | .writeB _ _ v => [v]
  | .writeW _ _ v => [v.extractLsb' 0 8, v.extractLsb' 8 8]
  | .writeDW _ _ v => [v.extractLsb' 0 8, v.extractLsb' 8 8, v.extractLsb' 16 8, v.extractLsb' 24 8]
  | _ => []

/-- What a call writes at an offset of a function. -/
def written (c : PciCall) (f : PciFunction) (o : BitVec 8) : Option (BitVec 8) :=
  if f = c.function ∧ c.offset.toNat ≤ o.toNat then c.bytes[o.toNat - c.offset.toNat]? else none

/-- What a call answers when the space holds the given bytes: little-endian
values for the reads. -/
def reply (space : PciFunction → BitVec 8 → BitVec 8) : PciCall → PciReply
  | .readB f o => .byte (space f o)
  | .readW f o => .word (space f (o + 1#8) ++ space f o)
  | .readDW f o =>
      .dword (space f (o + 3#8) ++ space f (o + 2#8) ++ space f (o + 1#8) ++ space f o)
  | _ => .done

/-- The byte last written by a sequence of calls. -/
def lastWritten (init : PciFunction → BitVec 8 → BitVec 8) (calls : List PciCall)
    (f : PciFunction) (o : BitVec 8) : BitVec 8 :=
  (calls.reverse.findSome? fun c => c.written f o).getD (init f o)

end PciCall

open IoPorts

/-- The bridge has a dword of a function selected. -/
structure PciBridge.Selects (d : PciBridge) (f : PciFunction) (base : BitVec 8) : Prop where
  enabled : d.enabled = true
  function : d.function = f
  dword : d.dword = base

section Address

variable {bus slot func : BitVec 8} (offset : BitVec 8)

theorem getLsbD_of_lt {x : BitVec 8} {n i : Nat} (hx : x.toNat < 2 ^ n) (hi : n ≤ i) :
    x.getLsbD i = false := by
  rw [BitVec.getLsbD]
  exact Nat.testBit_lt_two_pow (Nat.lt_of_lt_of_le hx (Nat.pow_le_pow_right (by decide) hi))

/-- The fields of the address do not overlap. -/
theorem pciAddr_getLsbD (hslot : slot.toNat < 2 ^ 5) (hfunc : func.toNat < 2 ^ 3) {i : Nat}
    (hi : i < 32) :
    (pciAddr bus slot func offset).getLsbD i =
      if i < 8 then (offset &&& 0xFC#8).getLsbD i
      else if i < 11 then func.getLsbD (i - 8)
      else if i < 16 then slot.getLsbD (i - 11)
      else if i < 24 then bus.getLsbD (i - 16)
      else decide (i = 31) := by
  have htop : ∀ j < 32, (0x80000000#32).getLsbD j = decide (j = 31) := by decide
  have hf : 3 ≤ i - 8 → func.getLsbD (i - 8) = false := getLsbD_of_lt hfunc
  have hs : 5 ≤ i - 11 → slot.getLsbD (i - 11) = false := getLsbD_of_lt hslot
  have hb : 8 ≤ i - 16 → bus.getLsbD (i - 16) = false := BitVec.getLsbD_of_ge bus _
  have ho : 8 ≤ i → (offset &&& 0xFC#8).getLsbD i = false := BitVec.getLsbD_of_ge _ _
  simp only [pciAddr, BitVec.getLsbD_or, BitVec.getLsbD_shiftLeft, BitVec.getLsbD_setWidth,
    htop i hi]
  grind

variable (hslot : slot.toNat < 2 ^ 5) (hfunc : func.toNat < 2 ^ 3)
include hslot hfunc

theorem pciAddr_bus : (pciAddr bus slot func offset).extractLsb' 16 8 = bus := by
  apply BitVec.eq_of_getLsbD_eq
  intro i hi
  have hsub : 16 + i - 16 = i := by omega
  rw [BitVec.getLsbD_extractLsb', pciAddr_getLsbD offset hslot hfunc (by omega),
    if_neg (by omega), if_neg (by omega), if_neg (by omega), if_pos (by omega), hsub]
  simp [hi]

theorem pciAddr_slot : ((pciAddr bus slot func offset).extractLsb' 11 5).setWidth 8 = slot := by
  apply BitVec.eq_of_getLsbD_eq
  intro i hi
  rw [BitVec.getLsbD_setWidth, BitVec.getLsbD_extractLsb']
  by_cases h5 : i < 5
  · have hsub : 11 + i - 11 = i := by omega
    rw [pciAddr_getLsbD offset hslot hfunc (by omega), if_neg (by omega), if_neg (by omega),
      if_pos (by omega), hsub]
    simp [hi, h5]
  · simp [h5, getLsbD_of_lt hslot (Nat.le_of_not_lt h5)]

theorem pciAddr_func : ((pciAddr bus slot func offset).extractLsb' 8 3).setWidth 8 = func := by
  apply BitVec.eq_of_getLsbD_eq
  intro i hi
  rw [BitVec.getLsbD_setWidth, BitVec.getLsbD_extractLsb']
  by_cases h3 : i < 3
  · have hsub : 8 + i - 8 = i := by omega
    rw [pciAddr_getLsbD offset hslot hfunc (by omega), if_neg (by omega), if_pos (by omega), hsub]
    simp [hi, h3]
  · simp [h3, getLsbD_of_lt hfunc (Nat.le_of_not_lt h3)]

theorem pciAddr_dword :
    (pciAddr bus slot func offset).extractLsb' 0 8 &&& 0xFC#8 = offset &&& 0xFC#8 := by
  apply BitVec.eq_of_getLsbD_eq
  intro i hi
  rw [BitVec.getLsbD_and, BitVec.getLsbD_extractLsb', Nat.zero_add,
    pciAddr_getLsbD offset hslot hfunc (by omega), if_pos hi, BitVec.getLsbD_and]
  simp [hi]

end Address

/-- `PciWriteAddr` selects the dword of the offset and stores nothing. -/
theorem pciWriteAddr_selects (f : PciFunction) (o : BitVec 8) (hslot : f.slot.toNat < 32)
    (hfunc : f.func.toNat < 8) (d : PciBridge) :
    ∃ d', pciWriteAddr f.bus f.slot f.func o d = .ok d' ∧ d'.space = d.space ∧
      d'.Selects f (o &&& 0xFC#8) := by
  have h32 : f.slot < 32#8 := hslot
  have h8 : f.func < 8#8 := hfunc
  refine ⟨{ d with address := pciAddr f.bus f.slot f.func o }, ?_, rfl, ?_, ?_, ?_⟩
  · simp [pciWriteAddr, h32, h8, PciBridge.outDW, kPciAddressPort]
  · rw [PciBridge.enabled, pciAddr_getLsbD o hslot hfunc (by decide)]
    rfl
  · rw [PciBridge.function, pciAddr_bus o hslot hfunc, pciAddr_slot o hslot hfunc,
      pciAddr_func o hslot hfunc]
  · exact pciAddr_dword o hslot hfunc


namespace PciBridge.Selects

variable {d : PciBridge} {f : PciFunction} {base o : BitVec 8}

/-- A load from the first data port. -/
theorem inDW (S : d.Selects f base) :
    d.inDW (kPciDataPort.setWidth 16) =
      d.space f (base + 3#8) ++ d.space f (base + 2#8) ++ d.space f (base + 1#8) ++
        d.space f base := by
  have hload : ∀ k < 4, d.loadByte k = d.space f (base + BitVec.ofNat 8 k) := by
    intro k hk
    rw [loadByte, if_pos ⟨S.enabled, hk⟩, S.function, S.dword]
  have hport : d.inDW (kPciDataPort.setWidth 16) =
      d.loadByte 3 ++ d.loadByte 2 ++ d.loadByte 1 ++ d.loadByte 0 := rfl
  rw [hport, hload 3 (by decide), hload 2 (by decide), hload 1 (by decide), hload 0 (by decide),
    BitVec.add_zero]

/-- A store of bytes that stay within the selected dword. -/
theorem storeData (S : d.Selects f base) {k : Nat} {bytes : List (BitVec 8)}
    (hfirst : base.toNat + k = o.toNat) (hlast : k + bytes.length ≤ 4) (f' : PciFunction)
    (o' : BitVec 8) :
    (d.storeData k bytes).space f' o' =
      (if f' = f ∧ o.toNat ≤ o'.toNat then bytes[o'.toNat - o.toNat]? else none).getD
        (d.space f' o') := by
  simp only [PciBridge.storeData, S.enabled, S.function, S.dword, hfirst, if_true]
  by_cases hf : f' = f ∧ o.toNat ≤ o'.toNat
  · rw [if_pos hf]
    by_cases hlt : o'.toNat < base.toNat + 4
    · rw [if_pos ⟨hf.1, hf.2, hlt⟩]
    · rw [if_neg fun h => hlt h.2.2, List.getElem?_eq_none (by omega), Option.getD_none]
  · rw [if_neg hf, if_neg fun h => hf ⟨h.1, h.2.1⟩, Option.getD_none]

end PciBridge.Selects

section Lanes

/-- Shifting down and masking extracts a field. -/
theorem extract_lanes (w : BitVec 32) (n k : Nat) {mask : BitVec 32}
    (hmask : mask.setWidth k = BitVec.allOnes k) :
    ((w >>> n) &&& mask).setWidth k = w.extractLsb' n k := by
  rw [BitVec.setWidth_and, hmask, BitVec.and_allOnes]
  ext i hi
  simp

variable (b₀ b₁ b₂ b₃ : BitVec 8)

theorem extract_byte_lane :
    (b₃ ++ b₂ ++ b₁ ++ b₀).extractLsb' 0 8 = b₀ ∧ (b₃ ++ b₂ ++ b₁ ++ b₀).extractLsb' 8 8 = b₁ ∧
      (b₃ ++ b₂ ++ b₁ ++ b₀).extractLsb' 16 8 = b₂ ∧
      (b₃ ++ b₂ ++ b₁ ++ b₀).extractLsb' 24 8 = b₃ := by
  refine ⟨?_, ?_, ?_, ?_⟩
  all_goals
    apply BitVec.eq_of_getLsbD_eq
    intro i hi
    simp only [BitVec.getLsbD_extractLsb', BitVec.getLsbD_append]
    grind

theorem extract_word_lane :
    (b₃ ++ b₂ ++ b₁ ++ b₀).extractLsb' 0 16 = b₁ ++ b₀ ∧
      (b₃ ++ b₂ ++ b₁ ++ b₀).extractLsb' 16 16 = b₃ ++ b₂ := by
  refine ⟨?_, ?_⟩
  all_goals
    apply BitVec.eq_of_getLsbD_eq
    intro i hi
    simp only [BitVec.getLsbD_extractLsb', BitVec.getLsbD_append]
    grind

/-- The lane of a byte in its dword. -/
theorem byte_lane (o : BitVec 8) :
    ∃ k < 4, (o &&& 3#8) = BitVec.ofNat 8 k ∧ (o &&& 0xFC#8).toNat + k = o.toNat := by
  revert o
  decide +kernel

/-- The lane of an aligned word in its dword. -/
theorem word_lane (o : BitVec 8) (h : o.toNat % 2 = 0) :
    (o &&& 1#8) = 0#8 ∧ ∃ k, (k = 0 ∨ k = 2) ∧ (o &&& 2#8) = BitVec.ofNat 8 k ∧
      (o &&& 0xFC#8).toNat + k = o.toNat := by
  have hall : ∀ o : BitVec 8, o.toNat % 2 = 0 → (o &&& 1#8) = 0#8 ∧
      ((o &&& 2#8 = 0#8 ∧ (o &&& 0xFC#8).toNat + 0 = o.toNat) ∨
        (o &&& 2#8 = 2#8 ∧ (o &&& 0xFC#8).toNat + 2 = o.toNat)) := by
    decide +kernel
  obtain ⟨h1, h | h⟩ := hall o h
  · exact ⟨h1, 0, Or.inl rfl, h⟩
  · exact ⟨h1, 2, Or.inr rfl, h⟩

theorem dword_lane (o : BitVec 8) (h : o.toNat % 4 = 0) :
    (o &&& 3#8) = 0#8 ∧ (o &&& 0xFC#8) = o := by
  revert o
  decide +kernel

end Lanes

theorem add_lane {base o : BitVec 8} {k : Nat} (h : base.toNat + k = o.toNat) :
    base + BitVec.ofNat 8 k = o := by
  apply BitVec.eq_of_toNat_eq
  have hlt := o.isLt
  rw [BitVec.toNat_add, BitVec.toNat_ofNat]
  omega

namespace PciCall

section Accessors

variable (f : PciFunction) (o : BitVec 8) (hslot : f.slot.toNat < 32) (hfunc : f.func.toNat < 8)
  (d : PciBridge)
include hslot hfunc

theorem pciReadB_spec :
    ∃ d', pciReadB f.bus f.slot f.func o d = .ok (d.space f o, d') ∧ d'.space = d.space := by
  obtain ⟨d', hd', hspace, S⟩ := pciWriteAddr_selects f o hslot hfunc d
  obtain ⟨k, hk, hlane, hsum⟩ := byte_lane o
  have ho := add_lane hsum
  refine ⟨d', ?_, hspace⟩
  have hvalue : ((d'.inDW (kPciDataPort.setWidth 16) >>> ((o &&& 3#8).toNat * 8)) &&&
      0xff#32).setWidth 8 = d.space f o := by
    rw [extract_lanes _ _ 8 (by decide), S.inDW, hlane, hspace]
    obtain ⟨h0, h1, h2, h3⟩ := extract_byte_lane (d.space f (o &&& 0xFC#8))
      (d.space f ((o &&& 0xFC#8) + 1#8)) (d.space f ((o &&& 0xFC#8) + 2#8))
      (d.space f ((o &&& 0xFC#8) + 3#8))
    interval_cases k
    · exact h0.trans (congrArg _ ((BitVec.add_zero _).symm.trans ho))
    · exact h1.trans (congrArg _ ho)
    · exact h2.trans (congrArg _ ho)
    · exact h3.trans (congrArg _ ho)
  rw [pciReadB, hd', ok_bind]
  exact congrArg (fun v => Except.ok (v, d')) hvalue

theorem pciReadW_spec (ho : o.toNat % 2 = 0) :
    ∃ d', pciReadW f.bus f.slot f.func o d = .ok (d.space f (o + 1#8) ++ d.space f o, d') ∧
      d'.space = d.space := by
  obtain ⟨d', hd', hspace, S⟩ := pciWriteAddr_selects f o hslot hfunc d
  obtain ⟨heven, k, hk, hlane, hsum⟩ := word_lane o ho
  have hbase := add_lane hsum
  refine ⟨d', ?_, hspace⟩
  have hvalue : ((d'.inDW (kPciDataPort.setWidth 16) >>> ((o &&& 2#8).toNat * 8)) &&&
      0xffff#32).setWidth 16 = d.space f (o + 1#8) ++ d.space f o := by
    rw [extract_lanes _ _ 16 (by decide), S.inDW, hlane, hspace]
    obtain ⟨hlow, hhigh⟩ := extract_word_lane (d.space f (o &&& 0xFC#8))
      (d.space f ((o &&& 0xFC#8) + 1#8)) (d.space f ((o &&& 0xFC#8) + 2#8))
      (d.space f ((o &&& 0xFC#8) + 3#8))
    rcases hk with rfl | rfl
    · rw [BitVec.add_zero] at hbase
      rw [hbase] at hlow ⊢
      exact hlow
    · have hnext : (o &&& 0xFC#8) + 3#8 = o + 1#8 := by
        calc (o &&& 0xFC#8) + 3#8 = (o &&& 0xFC#8) + 2#8 + 1#8 := (BitVec.add_assoc _ 2#8 1#8).symm
          _ = o + 1#8 := congrArg (· + 1#8) hbase
      rw [hbase, hnext] at hhigh ⊢
      exact hhigh
  rw [pciReadW, heven, hd']
  exact congrArg (fun v => Except.ok (v, d')) hvalue

theorem pciReadDW_spec (ho : o.toNat % 4 = 0) :
    ∃ d', pciReadDW f.bus f.slot f.func o d =
        .ok (d.space f (o + 3#8) ++ d.space f (o + 2#8) ++ d.space f (o + 1#8) ++ d.space f o,
          d') ∧ d'.space = d.space := by
  obtain ⟨d', hd', hspace, S⟩ := pciWriteAddr_selects f o hslot hfunc d
  obtain ⟨hzero, hbase⟩ := dword_lane o ho
  refine ⟨d', ?_, hspace⟩
  have hvalue := S.inDW
  rw [hbase, hspace] at hvalue
  rw [pciReadDW, hzero, hd']
  exact congrArg (fun v => Except.ok (v, d')) hvalue

theorem pciWriteB_spec (v : BitVec 8) :
    ∃ d', pciWriteB f.bus f.slot f.func o v d = .ok d' ∧ ∀ f' o',
      d'.space f' o' = ((writeB f o v).written f' o').getD (d.space f' o') := by
  obtain ⟨d', hd', hspace, S⟩ := pciWriteAddr_selects f o hslot hfunc d
  obtain ⟨k, hk, hlane, hsum⟩ := byte_lane o
  refine ⟨d'.storeData k [v], ?_, ?_⟩
  · have hport : ∀ k < 4, PciBridge.lane ((kPciDataPort +
        (BitVec.ofNat 8 k).setWidth 32).setWidth 16) = some k := by decide
    simp only [pciWriteB, hd', ok_bind, PciBridge.outB, hlane, hport k hk]
    rfl
  · intro f' o'
    have hone : [v].length = 1 := rfl
    rw [S.storeData hsum (by omega), hspace]
    rfl

theorem pciWriteW_spec (ho : o.toNat % 2 = 0) (v : BitVec 16) :
    ∃ d', pciWriteW f.bus f.slot f.func o v d = .ok d' ∧ ∀ f' o',
      d'.space f' o' = ((writeW f o v).written f' o').getD (d.space f' o') := by
  obtain ⟨d', hd', hspace, S⟩ := pciWriteAddr_selects f o hslot hfunc d
  obtain ⟨heven, k, hk, hlane, hsum⟩ := word_lane o ho
  refine ⟨d'.storeData k (writeW f o v).bytes, ?_, ?_⟩
  · have hport : PciBridge.lane ((kPciDataPort + (BitVec.ofNat 8 k).setWidth 32).setWidth 16) =
        some k := by
      rcases hk with rfl | rfl <;> decide
    simp only [pciWriteW, heven, hd', ok_bind, PciBridge.outW, hlane, hport]
    rfl
  · intro f' o'
    have htwo : (writeW f o v).bytes.length = 2 := rfl
    rw [S.storeData hsum (by omega), hspace]
    rfl

theorem pciWriteDW_spec (ho : o.toNat % 4 = 0) (v : BitVec 32) :
    ∃ d', pciWriteDW f.bus f.slot f.func o v d = .ok d' ∧ ∀ f' o',
      d'.space f' o' = ((writeDW f o v).written f' o').getD (d.space f' o') := by
  obtain ⟨d', hd', hspace, S⟩ := pciWriteAddr_selects f o hslot hfunc d
  obtain ⟨hzero, hbase⟩ := dword_lane o ho
  refine ⟨d'.storeData 0 (writeDW f o v).bytes, ?_, ?_⟩
  · rw [pciWriteDW, hzero, hd']
    rfl
  · intro f' o'
    have hsum : (o &&& 0xFC#8).toNat + 0 = o.toNat := by rw [hbase, Nat.add_zero]
    have hfour : (writeDW f o v).bytes.length = 4 := rfl
    rw [S.storeData hsum (by omega), hspace]
    rfl

end Accessors

theorem written_of_bytes_nil {c : PciCall} (h : c.bytes = []) (f : PciFunction) (o : BitVec 8) :
    c.written f o = none := by
  simp [written, h]

/-- Step lemma: a valid call answers from the space and changes its own bytes. -/
theorem exec_spec {c : PciCall} (hc : c.Valid) (d : PciBridge) :
    ∃ d', c.exec d = .ok (c.reply d.space, d') ∧
      ∀ f o, d'.space f o = (c.written f o).getD (d.space f o) := by
  obtain ⟨hslot, hfunc, haligned⟩ := hc
  cases c with
  | readB f o =>
      obtain ⟨d', hd', hspace⟩ := pciReadB_spec f o hslot hfunc d
      refine ⟨d', ?_, fun f' o' => ?_⟩
      · simp only [exec, hd', ok_bind]
        rfl
      · rw [written_of_bytes_nil rfl, hspace, Option.getD_none]
  | readW f o =>
      obtain ⟨d', hd', hspace⟩ := pciReadW_spec f o hslot hfunc d haligned
      refine ⟨d', ?_, fun f' o' => ?_⟩
      · simp only [exec, hd', ok_bind]
        rfl
      · rw [written_of_bytes_nil rfl, hspace, Option.getD_none]
  | readDW f o =>
      obtain ⟨d', hd', hspace⟩ := pciReadDW_spec f o hslot hfunc d haligned
      refine ⟨d', ?_, fun f' o' => ?_⟩
      · simp only [exec, hd', ok_bind]
        rfl
      · rw [written_of_bytes_nil rfl, hspace, Option.getD_none]
  | writeB f o v =>
      obtain ⟨d', hd', hspace⟩ := pciWriteB_spec f o hslot hfunc d v
      refine ⟨d', ?_, hspace⟩
      simp only [exec, hd', ok_bind]
      rfl
  | writeW f o v =>
      obtain ⟨d', hd', hspace⟩ := pciWriteW_spec f o hslot hfunc d haligned v
      refine ⟨d', ?_, hspace⟩
      simp only [exec, hd', ok_bind]
      rfl
  | writeDW f o v =>
      obtain ⟨d', hd', hspace⟩ := pciWriteDW_spec f o hslot hfunc d haligned v
      refine ⟨d', ?_, hspace⟩
      simp only [exec, hd', ok_bind]
      rfl

theorem lastWritten_append (init : PciFunction → BitVec 8 → BitVec 8) (calls : List PciCall)
    (c : PciCall) (f : PciFunction) (o : BitVec 8) :
    lastWritten init (calls ++ [c]) f o = (c.written f o).getD (lastWritten init calls f o) := by
  rw [lastWritten, List.reverse_append, List.reverse_singleton, List.singleton_append,
    List.findSome?_cons, lastWritten]
  cases c.written f o <;> rfl

/-- Run lemma: the space is the one read off the history. -/
theorem execAll_spec {calls : List PciCall} (h : ∀ c ∈ calls, c.Valid) (d : PciBridge) :
    ∃ d', execAll calls d = .ok d' ∧ d'.space = lastWritten d.space calls := by
  induction calls using List.reverseRecOn with
  | nil => exact ⟨d, rfl, rfl⟩
  | append_singleton calls c ih =>
      obtain ⟨d₁, hrun, hspace⟩ := ih fun c' hc' => h c' (List.mem_append_left _ hc')
      obtain ⟨d₂, hexec, hstep⟩ := exec_spec (h c (by simp)) d₁
      refine ⟨d₂, ?_, ?_⟩
      · rw [execAll] at hrun
        rw [execAll, List.foldlM_append, hrun, ok_bind, List.foldlM_cons, hexec]
        rfl
      · ext f o : 2
        rw [hstep, lastWritten_append, hspace]

/-- After any sequence of valid calls, a valid call answers with the bytes last
written, whatever the widths of the writes, and changes its own bytes only. -/
theorem answers_last_written (d : PciBridge) (calls : List PciCall) (c : PciCall)
    (hcalls : ∀ c' ∈ calls, c'.Valid) (hc : c.Valid) :
    ∃ d₁ d₂, execAll calls d = .ok d₁ ∧
      c.exec d₁ = .ok (c.reply (lastWritten d.space calls), d₂) ∧
      ∀ f o, d₂.space f o = (c.written f o).getD (d₁.space f o) := by
  obtain ⟨d₁, hrun, hspace⟩ := execAll_spec hcalls d
  obtain ⟨d₂, hexec, hstep⟩ := exec_spec hc d₁
  rw [hspace] at hexec
  exact ⟨d₁, d₂, hrun, hexec, hstep⟩

theorem answers_last_written_mixed :
    let f : PciFunction := ⟨0#8, 31#8, 2#8⟩
    ∃ d₁ d₂, execAll [.writeDW f 0x40#8 0x12345678#32, .writeB f 0x42#8 0xAB#8]
        ⟨0#32, fun _ _ => 0#8⟩ = .ok d₁ ∧
      (PciCall.readDW f 0x40#8).exec d₁ = .ok (.dword 0x12AB5678#32, d₂) := by
  intro f
  have hreply : reply (lastWritten (fun _ _ => 0#8) [.writeDW f 0x40#8 0x12345678#32,
      .writeB f 0x42#8 0xAB#8]) (.readDW f 0x40#8) = .dword 0x12AB5678#32 := by decide
  obtain ⟨d₁, d₂, hrun, hexec, -⟩ := answers_last_written ⟨0#32, fun _ _ => 0#8⟩
    [.writeDW f 0x40#8 0x12345678#32, .writeB f 0x42#8 0xAB#8] (.readDW f 0x40#8)
    (by
      intro c hc
      simp only [List.mem_cons, List.not_mem_nil, or_false] at hc
      rcases hc with rfl | rfl <;> exact ⟨by decide, by decide, by decide⟩)
    ⟨by decide, by decide, by decide⟩
  exact ⟨d₁, d₂, hrun, hreply ▸ hexec⟩

end PciCall

end Chestnut
