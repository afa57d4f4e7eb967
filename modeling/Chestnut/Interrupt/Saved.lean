import Chestnut.Interrupt.Model

/-!
# The stack of the wrapper

`Saved` describes the stack between the two blocks of assembly: the context,
the area of the x87 environment, the locals, the interrupted frame pointer and
the first five words the processor left. The first block establishes it, the
C++ part and the handlers keep it, and the second block takes everything back
from it.
-/

namespace Chestnut

open Lib Lib.X86

variable {alu : Cpu → BitVec 64} {L : Layout} {c₀ c c' : Cpu} {F : List (BitVec 64)}

/-- The registers saved below and above the gap for `rbp` and `rsp`. -/
def lowRegs : List Reg := [.rax, .rbx, .rcx, .rdx, .rdi, .rsi]

def highRegs : List Reg := [.r8, .r9, .r10, .r11, .r12, .r13, .r14, .r15]

/-- The words of a `Context` up to `rip`, the three that the assembly skips given
separately. -/
def contextWords (g : Reg → BitVec 64) (rbp rsp rip : BitVec 64) : List (BitVec 64) :=
  lowRegs.map g ++ ([rbp, rsp] ++ (highRegs.map g ++ [rip]))

/-- `fp_state`: the environment with its last dword replaced by MXCSR, and the
rest of the area. -/
def fpState (c₀ : Cpu) (rest : List (BitVec 32)) : List (BitVec 32) :=
  c₀.fpu.image.set 6 c₀.mxcsr ++ rest

/-- The stack between the two blocks of assembly, for the state `c₀` at entry and
the words `F` it found on the stack. -/
structure Saved (L : Layout) (c₀ : Cpu) (F : List (BitVec 64)) (rbp rsp rip : BitVec 64)
    (c : Cpu) : Prop where
  framed : ∃ rest locals, rest.length = 121 ∧ locals.length = L.words ∧
    locals[L.framePtr.val]? = some (c.regs .rbp) ∧ locals[L.stackPtr.val]? = some (c.regs .rsp) ∧
    Framed c (dwords (contextWords c₀.regs rbp rsp rip) ++ (fpState c₀ rest ++ dwords locals))
      (dwords (c₀.regs .rbp :: F))

theorem saveContext_eq (L : Layout) :
    saveContext L = [Instr.sub (8 * 64), .fnstenv, .stmxcsr (4 * 6), .sub (8 * 1)] ++
      (highRegs.reverse.map Instr.push ++ ([Instr.sub (8 * 2)] ++
        (lowRegs.reverse.map Instr.push ++
          [Instr.store .rbp (L.disp L.framePtr), .store .rsp (L.disp L.stackPtr)]))) := rfl

theorem restoreContext_eq (L : Layout) :
    restoreContext L = [Instr.load (L.disp L.stackPtr) .rsp] ++ (lowRegs.map Instr.pop ++
      ([Instr.add 16] ++ (highRegs.map Instr.pop ++
        [Instr.add 8, .fldenv, .ldmxcsr (4 * 6), .add 512, .leave, .iretq]))) := rfl

/-- The prologue: a frame with the interrupted frame pointer at its base. -/
theorem prologue_framed (alu : Cpu → BitVec 64) (hF : F.length = 5)
    (h : Stacked c.mem (c.regs .rsp) (dwords F)) :
    (∃ locals, locals.length = L.words ∧
      Framed (c.run alu (prologue L)) (dwords locals) (dwords (c.regs .rbp :: F))) ∧
    ∀ q, q ≠ .rsp → q ≠ .rbp → (c.run alu (prologue L)).regs q = c.regs q := by
  have hsmall := L.small
  have hpush := Cpu.pushWord_stack h (by rw [length_dwords, hF]; decide) (c.regs .rbp)
  have hbase : Framed (((c.exec alu (.push .rbp))).exec alu (.mov .rsp .rbp)) []
      (dwords (c.regs .rbp :: F)) := by
    refine ⟨?_, ?_⟩
    · simpa [Cpu.exec, Cpu.set, dwords] using hpush
    · simp [Cpu.exec, Cpu.set]
  refine ⟨?_, fun q hq hq' => ?_⟩
  · obtain ⟨locals, hlen, hframed⟩ := hbase.sub alu L.words (by
      simp only [List.nil_append, length_dwords, List.length_cons, hF]
      omega)
    rw [List.append_nil] at hframed
    exact ⟨locals, hlen, hframed⟩
  · simp [prologue, Cpu.exec, Cpu.set, Cpu.pushWord, hq, hq']

/-- The area of the x87 environment, and the gap for `rip`. -/
theorem fpu_framed (alu : Cpu → BitVec 64) {locals : List (BitVec 64)} {ys : List (BitVec 32)}
    (h : Framed c (dwords locals) ys) (hroom : locals.length + ys.length ≤ 2 ^ 40) :
    (∃ rest rip, rest.length = 121 ∧
      Framed (c.run alu [.sub (8 * 64), .fnstenv, .stmxcsr (4 * 6), .sub (8 * 1)])
        (dwords [rip] ++ (fpState c rest ++ dwords locals)) ys) ∧
    ∀ q, q ≠ .rsp →
      (c.run alu [.sub (8 * 64), .fnstenv, .stmxcsr (4 * 6), .sub (8 * 1)]).regs q = c.regs q := by
  refine ⟨?_, fun q hq => by simp [Cpu.exec, Cpu.set, hq]⟩
  obtain ⟨area, harea, h₁⟩ := h.sub alu 64 (by
    simp only [List.length_append, length_dwords]
    omega)
  have hlen : (dwords area).length = 128 := by rw [length_dwords, harea]
  rw [← List.take_append_drop 7 (dwords area), List.append_assoc] at h₁
  have h₂ := h₁.fnstenv alu (by rw [List.length_take, hlen]; decide)
  have h₃ := h₂.stmxcsr alu (i := 6) (by simp; omega)
  rw [List.set_append_left _ _ (by simp)] at h₃
  obtain ⟨gap, hgap, h₄⟩ := h₃.sub alu 1 (by
    simp only [List.length_append, List.length_set, List.length_drop, hlen, length_dwords,
      FpuEnv.length_image]
    omega)
  obtain ⟨rip, rfl⟩ := List.length_eq_one_iff.mp hgap
  refine ⟨(dwords area).drop 7, rip, by rw [List.length_drop, hlen], ?_⟩
  rw [fpState, List.append_assoc]
  exact h₄

theorem length_contextWords (g : Reg → BitVec 64) (rbp rsp rip : BitVec 64) :
    (contextWords g rbp rsp rip).length = 17 := rfl

theorem length_fpState {rest : List (BitVec 32)} (h : rest.length = 121) :
    (fpState c rest).length = 128 := by
  rw [fpState, List.length_append, List.length_set, FpuEnv.length_image, h]

/-- The blocks push and pop neither pointer. -/
theorem ne_pointer {q : Reg} (h : q ∈ lowRegs ++ highRegs) : q ≠ .rsp ∧ q ≠ .rbp := by
  revert h
  cases q <;> decide

theorem contextWords_congr {g h : Reg → BitVec 64} (hgh : ∀ q, q ≠ .rsp → q ≠ .rbp → g q = h q)
    (rbp rsp rip : BitVec 64) : contextWords g rbp rsp rip = contextWords h rbp rsp rip := by
  have hlow : lowRegs.map g = lowRegs.map h := by
    apply List.map_congr_left
    intro q hq
    obtain ⟨hsp, hbp⟩ := ne_pointer (List.mem_append_left highRegs hq)
    exact hgh q hsp hbp
  have hhigh : highRegs.map g = highRegs.map h := by
    apply List.map_congr_left
    intro q hq
    obtain ⟨hsp, hbp⟩ := ne_pointer (List.mem_append_right lowRegs hq)
    exact hgh q hsp hbp
  rw [contextWords, contextWords, hlow, hhigh]

/-- The pushes around the gap for `rbp` and `rsp`. -/
theorem regs_framed (alu : Cpu → BitVec 64) {xs ys : List (BitVec 32)} {rip : BitVec 64}
    (h : Framed c (dwords [rip] ++ xs) ys) (hroom : xs.length + ys.length ≤ 2 ^ 40) :
    ∃ rbp rsp, Framed (c.run alu (highRegs.reverse.map Instr.push ++ ([Instr.sub (8 * 2)] ++
      lowRegs.reverse.map Instr.push))) (dwords (contextWords c.regs rbp rsp rip) ++ xs) ys := by
  obtain ⟨h₁, hregs₁⟩ := h.pushes alu highRegs.reverse (by decide) (by
    simp only [List.length_append, length_dwords, List.length_reverse, highRegs, List.length_cons,
      List.length_nil]
    omega)
  obtain ⟨gap, hgap, h₂⟩ := h₁.sub alu 2 (by
    simp only [List.length_append, length_dwords, List.length_reverse, List.length_map, highRegs,
      List.length_cons, List.length_nil]
    omega)
  obtain ⟨rbp, rsp, rfl⟩ := List.length_eq_two.mp hgap
  obtain ⟨h₃, -⟩ := h₂.pushes alu lowRegs.reverse (by decide) (by
    simp only [List.length_append, length_dwords, List.length_reverse, List.length_map, highRegs,
      lowRegs, List.length_cons, List.length_nil]
    omega)
  refine ⟨rbp, rsp, ?_⟩
  have hlow : lowRegs.map ((c.run alu (highRegs.reverse.map .push)).exec alu (.sub (8 * 2))).regs =
      lowRegs.map c.regs := by
    apply List.map_congr_left
    intro q hq
    have hsp : q ≠ .rsp := (ne_pointer (List.mem_append_left highRegs hq)).1
    rw [← hregs₁ q hsp]
    exact Cpu.set_ne _ _ hsp
  rw [List.reverse_reverse, List.reverse_reverse, hlow] at h₃
  simp only [Cpu.run_append, Cpu.run_cons, Cpu.run_nil, contextWords, dwords_append,
    List.append_assoc]
  exact h₃

/-- The two locals that keep the frame and stack pointers. -/
theorem slots_framed {xs zs ys : List (BitVec 32)} {locals : List (BitVec 64)}
    (h : Framed c (xs ++ (zs ++ dwords locals)) ys) (hlen : locals.length = L.words)
    (hc' : c' = c.run alu [.store .rbp (L.disp L.framePtr), .store .rsp (L.disp L.stackPtr)]) :
    ∃ locals', locals'.length = L.words ∧ locals'[L.framePtr.val]? = some (c'.regs .rbp) ∧
      locals'[L.stackPtr.val]? = some (c'.regs .rsp) ∧
      Framed c' (xs ++ (zs ++ dwords locals')) ys := by
  simp only [← List.append_assoc] at h ⊢
  have hf := L.framePtr.isLt
  have hs := L.stackPtr.isLt
  have hregs : c'.regs = c.regs := hc' ▸ rfl
  have h₁ := h.store alu (i := L.framePtr) (by omega) .rbp
  have h₂ := h₁.store alu (i := L.stackPtr) (by rw [List.length_set]; omega) .rsp
  rw [List.length_set, hlen] at h₂
  rw [hregs]
  refine ⟨(locals.set L.framePtr (c.regs .rbp)).set L.stackPtr (c.regs .rsp), ?_, ?_, ?_, hc' ▸ h₂⟩
  · rw [List.length_set, List.length_set, hlen]
  · have hne : L.stackPtr.val ≠ L.framePtr.val := fun he => L.apart (Fin.ext he.symm)
    rw [List.getElem?_set_ne hne, List.getElem?_set_self (by omega)]
  · rw [List.getElem?_set_self (by rw [List.length_set]; omega)]

/-- The first block of assembly saves the context. -/
theorem saved_of_saveContext (alu : Cpu → BitVec 64) (L : Layout) (hF : F.length = 5)
    (h : Stacked c.mem (c.regs .rsp) (dwords F)) :
    ∃ rbp rsp rip, Saved L c F rbp rsp rip (c.run alu (prologue L ++ saveContext L)) := by
  rw [saveContext_eq]
  have hsmall := L.small
  obtain ⟨⟨locals, hlocals, h₁⟩, hregs₁⟩ := prologue_framed alu (L := L) hF h
  obtain ⟨⟨rest, rip, hrest, h₂⟩, hregs₂⟩ := fpu_framed alu h₁ (by
    simp only [length_dwords, List.length_cons, hF]
    omega)
  obtain ⟨rbp, rsp, h₃⟩ := regs_framed alu h₂ (by
    simp only [List.length_append, length_dwords, length_fpState hrest, List.length_cons, hF]
    omega)
  rw [contextWords_congr (h := c.regs)
    (fun q hq hq' => by rw [hregs₂ q hq, hregs₁ q hq hq'])] at h₃
  obtain ⟨locals', hlen, hframe, hstack, h₄⟩ := slots_framed h₃ hlocals rfl
  rw [← Cpu.run_append, ← Cpu.run_append, ← Cpu.run_append] at hframe hstack h₄
  exact ⟨rbp, rsp, rip, ⟨rest, locals', hrest, hlen, hframe, hstack, h₄⟩⟩

namespace Saved

variable {rbp rsp rip rbp' rsp' rip' : BitVec 64}

theorem framePtr_read (h : Saved L c₀ F rbp rsp rip c) :
    load64 c.mem (c.regs .rbp - BitVec.ofNat 64 (L.disp L.framePtr)) = c.regs .rbp := by
  obtain ⟨rest, locals, -, hlocals, hframe, -, hframed⟩ := h.framed
  rw [← List.append_assoc] at hframed
  have hread := hframed.slot_read hframe
  rw [hlocals] at hread
  exact hread

theorem stackPtr_read (h : Saved L c₀ F rbp rsp rip c) :
    load64 c.mem (c.regs .rbp - BitVec.ofNat 64 (L.disp L.stackPtr)) = c.regs .rsp := by
  obtain ⟨rest, locals, -, hlocals, -, hstack, hframed⟩ := h.framed
  rw [← List.append_assoc] at hframed
  have hread := hframed.slot_read hstack
  rw [hlocals] at hread
  exact hread

/-- A word of the context. -/
theorem context_read (h : Saved L c₀ F rbp rsp rip c) {i : Nat} {w : BitVec 64}
    (hw : (contextWords c₀.regs rbp rsp rip)[i]? = some w) :
    load64 c.mem (c.regs .rsp + BitVec.ofNat 64 (8 * i)) = w := by
  obtain ⟨rest, locals, -, -, -, -, hframed⟩ := h.framed
  have hstack := hframed.stack
  rw [List.append_assoc] at hstack
  exact hstack.loadWord [] hw (by simp)

/-- A word above the saved frame pointer. -/
theorem frame_read (h : Saved L c₀ F rbp rsp rip c) {i : Nat} {w : BitVec 64}
    (hw : (c₀.regs .rbp :: F)[i]? = some w) :
    load64 c.mem (c.regs .rbp + BitVec.ofNat 64 (8 * i)) = w := by
  obtain ⟨rest, locals, -, -, -, -, hframed⟩ := h.framed
  have hstack := hframed.stack
  rw [← List.append_nil (dwords (c₀.regs .rbp :: F))] at hstack
  apply hstack.loadWord _ hw
  rw [hframed.base, BitVec.add_assoc, ← BitVec.ofNat_add]

/-- A store to the context. -/
theorem store (h : Saved L c₀ F rbp rsp rip c) {i : Nat} {w : BitVec 64} (hi : i < 17)
    (hset : (contextWords c₀.regs rbp rsp rip).set i w = contextWords c₀.regs rbp' rsp' rip') :
    Saved L c₀ F rbp' rsp' rip'
      { c with mem := store64 c.mem (c.regs .rsp + BitVec.ofNat 64 (8 * i)) w } := by
  obtain ⟨rest, locals, hrest, hlocals, hframe, hslot, hframed⟩ := h.framed
  have hstack := hframed.stack
  rw [List.append_assoc] at hstack
  have haddr : c.regs .rsp + BitVec.ofNat 64 (8 * i) =
      c.regs .rsp + BitVec.ofNat 64 (4 * ([] : List (BitVec 32)).length + 8 * i) := by simp
  have hlt : i < (contextWords c₀.regs rbp rsp rip).length := hi
  have hstore := Stacked.storeWord [] hstack hlt haddr w
  rw [hset] at hstore
  refine ⟨rest, locals, hrest, hlocals, hframe, hslot, ?_, ?_⟩
  · rw [List.append_assoc]
    exact hstore
  · have hbase := hframed.base
    rw [List.length_append, length_dwords, length_contextWords] at hbase ⊢
    exact hbase

/-- A routine that is given the frame keeps everything. -/
theorem keeps (h : Saved L c₀ F rbp rsp rip c) (hF : F.length = 5) {f : BitVec 64}
    (hf : f = c.regs .rbp + 8#64) (hk : c.Keeps ((f - c.regs .rsp).toNat + 40) c') :
    Saved L c₀ F rbp rsp rip c' := by
  obtain ⟨rest, locals, hrest, hlocals, hframe, hslot, hframed⟩ := h.framed
  refine ⟨rest, locals, hrest, hlocals, hk.rbp ▸ hframe, hk.rsp ▸ hslot, hframed.keeps hk ?_⟩
  have hbase := hframed.base
  have hroom := hframed.stack.room
  rw [List.length_append, length_dwords (_ :: F), List.length_cons, hF] at hroom ⊢
  generalize (dwords (contextWords c₀.regs rbp rsp rip) ++
    (fpState c₀ rest ++ dwords locals)).length = n at hbase hroom ⊢
  have hdist : f - c.regs .rsp = BitVec.ofNat 64 (4 * n + 8) := by
    rw [hf, hbase, BitVec.ofNat_add]
    bv_omega
  rw [hdist, BitVec.toNat_ofNat]
  omega

/-- The chain of handlers. -/
theorem invokeChainHandlers (h : Saved L c₀ F rbp rsp rip c) (hF : F.length = 5)
    (chain : List Routine) (ctx : BitVec 64) {f : BitVec 64} (hf : f = c.regs .rbp + 8#64) :
    Saved L c₀ F rbp rsp rip (invokeChainHandlers chain f ctx c) ∧
      (Chestnut.invokeChainHandlers chain f ctx c).regs .rbp = c.regs .rbp ∧
      (Chestnut.invokeChainHandlers chain f ctx c).regs .rsp = c.regs .rsp := by
  induction chain generalizing c with
  | nil => exact ⟨h, rfl, rfl⟩
  | cons handler chain ih =>
      have hk := handler.keeps f ctx c
      obtain ⟨hsaved, hbp, hsp⟩ := ih (h.keeps hF hf hk) (by rw [hk.rbp, hf])
      exact ⟨hsaved, hbp.trans hk.rbp, hsp.trans hk.rsp⟩

/-- The C++ part completes the context from the frame. -/
theorem fillContext {w₀ w₁ w₂ w₃ w₄ : BitVec 64}
    (h : Saved L c₀ [w₀, w₁, w₂, w₃, w₄] rbp rsp rip c) :
    Saved L c₀ [w₀, w₁, w₂, w₃, w₄] (c₀.regs .rbp) w₃ w₀
      (fillContext (c.regs .rbp) (c.regs .rbp + 8#64) (c.regs .rsp) c) := by
  have hrbp : load64 c.mem (c.regs .rbp) = c₀.regs .rbp := by
    have hread := h.frame_read (i := 0) rfl
    rwa [Nat.mul_zero, BitVec.add_zero] at hread
  have h₁ := h.store (i := 6) (w := c₀.regs .rbp) (by decide) rfl
  have hrsp := h₁.frame_read (i := 4) rfl
  have h₂ := h₁.store (i := 7) (w := w₃) (by decide) rfl
  have hrip := h₂.frame_read (i := 1) rfl
  have h₃ := h₂.store (i := 16) (w := w₀) (by decide) rfl
  have haddr : c.regs .rbp + 8#64 + 24#64 = c.regs .rbp + BitVec.ofNat 64 (8 * 4) :=
    BitVec.add_assoc _ _ _
  have hoffsets : contextOffset .rbp = 8 * 6 ∧ contextOffset .rsp = 8 * 7 ∧
      contextRip = 8 * 16 := by decide
  rw [Chestnut.fillContext, hoffsets.1, hoffsets.2.1, hoffsets.2.2, hrbp, haddr, hrsp]
  exact hrip ▸ h₃

/-- Taking the registers back. -/
theorem popRegs (alu : Cpu → BitVec 64) {xs ys : List (BitVec 32)} {g : Reg → BitVec 64}
    (h : Framed c (dwords (contextWords g rbp rsp rip) ++ xs) ys) :
    Framed (c.run alu (lowRegs.map Instr.pop ++ ([Instr.add 16] ++ (highRegs.map Instr.pop ++
        [Instr.add 8])))) xs ys ∧
      ∀ q, q ≠ .rsp → q ≠ .rbp → (c.run alu (lowRegs.map Instr.pop ++ ([Instr.add 16] ++
        (highRegs.map Instr.pop ++ [Instr.add 8])))).regs q = g q := by
  simp only [contextWords, dwords_append, List.append_assoc] at h
  obtain ⟨h₁, hlow, -⟩ := h.pops alu lowRegs (by decide) (by decide)
  have h₂ := h₁.add alu (n := 16) rfl
  obtain ⟨h₃, hhigh, hkeep⟩ := h₂.pops alu highRegs (by decide) (by decide)
  have h₄ := h₃.add alu (n := 8) rfl
  simp only [Cpu.run_append, Cpu.run_cons, Cpu.run_nil]
  refine ⟨h₄, fun q hsp hbp => ?_⟩
  have hadd : ∀ (s : Cpu) n, (s.exec alu (.add n)).regs q = s.regs q := fun s n => s.set_ne _ hsp
  rw [hadd]
  by_cases hq : q ∈ highRegs
  · exact hhigh q hq
  · rw [hkeep q hq hsp, hadd]
    apply hlow
    revert hsp hbp hq
    cases q <;> decide

/-- Taking the environment back and leaving the wrapper. -/
theorem popFpu {rest : List (BitVec 32)} {locals : List (BitVec 64)}
    {w w₀ w₁ w₂ w₃ w₄ : BitVec 64} (hrest : rest.length = 121)
    (h : Framed c (fpState c₀ rest ++ dwords locals) (dwords [w, w₀, w₁, w₂, w₃, w₄]))
    (hc' : c' = c.run alu [.fldenv, .ldmxcsr (4 * 6), .add 512, .leave, .iretq]) :
    c'.regs .rsp = w₃ ∧ c'.regs .rbp = w ∧ (∀ q, q ≠ .rsp → q ≠ .rbp → c'.regs q = c.regs q) ∧
      c'.rip = w₀ ∧ c'.cs = w₁.setWidth 16 ∧ c'.rflags = w₂ ∧
      c'.fpu = { c₀.fpu with dataSelector := c₀.mxcsr.extractLsb' 0 16 } ∧
      c'.mxcsr = c₀.mxcsr := by
  have hread : ∀ i y, (c₀.fpu.image.set 6 c₀.mxcsr)[i]? = some y →
      load32 c.mem (c.regs .rsp + BitVec.ofNat 64 (4 * i)) = y := by
    intro i y hy
    apply h.dword_read
    rw [fpState, List.append_assoc, List.getElem?_append_left (List.getElem?_eq_some_iff.mp hy).1,
      hy]
  have hmxcsr := hread 6 c₀.mxcsr rfl
  have h₁ : Framed ((c.exec alu .fldenv).exec alu (.ldmxcsr (4 * 6)))
      (fpState c₀ rest ++ dwords locals) (dwords [w, w₀, w₁, w₂, w₃, w₄]) := ⟨h.stack, h.base⟩
  have h₂ := h₁.add alu (n := 512) (by rw [length_fpState hrest])
  obtain ⟨hstack, hbp, hregs⟩ := h₂.leave alu
  rw [Cpu.run_cons, Cpu.run_cons, Cpu.run_cons, Cpu.run_cons, Cpu.run_cons, Cpu.run_nil,
    Cpu.iretq_eq alu hstack] at hc'
  subst hc'
  refine ⟨?_, ?_, fun q hsp hbp' => ?_, rfl, rfl, rfl, FpuEnv.ofImage_set hread, hmxcsr⟩
  · simp only [Function.update_self]
  · simp only [ne_eq, reduceCtorEq, not_false_eq_true, Function.update_of_ne, hbp]
  · simp only [ne_eq, hsp, not_false_eq_true, Function.update_of_ne]
    rw [hregs q hsp hbp']
    exact Function.update_of_ne hsp _ _

/-- The second block of assembly, `leave` and `iretq`: the registers and MXCSR are
those at entry, the x87 environment has another data selector, and the rest is
what lies above the saved frame pointer. -/
theorem restoreContext {w₀ w₁ w₂ w₃ w₄ : BitVec 64}
    (h : Saved L c₀ [w₀, w₁, w₂, w₃, w₄] rbp rsp rip c)
    (hc' : c' = c.run alu (Chestnut.restoreContext L)) :
    c'.regs = Function.update c₀.regs .rsp w₃ ∧ c'.rip = w₀ ∧ c'.cs = w₁.setWidth 16 ∧
      c'.rflags = w₂ ∧ c'.fpu = { c₀.fpu with dataSelector := c₀.mxcsr.extractLsb' 0 16 } ∧
      c'.mxcsr = c₀.mxcsr := by
  have hload : c.exec alu (.load (L.disp L.stackPtr) .rsp) = c := by
    rw [Cpu.exec, h.stackPtr_read, Cpu.set, Function.update_eq_self]
  obtain ⟨rest, locals, hrest, -, -, -, hframed⟩ := h.framed
  obtain ⟨hpopped, hregs⟩ := popRegs alu hframed
  have hsplit : c' = (c.run alu (lowRegs.map Instr.pop ++ ([Instr.add 16] ++
      (highRegs.map Instr.pop ++ [Instr.add 8])))).run alu
        [.fldenv, .ldmxcsr (4 * 6), .add 512, .leave, .iretq] := by
    simp only [hc', restoreContext_eq, Cpu.run_append, Cpu.run_cons, Cpu.run_nil, hload]
  obtain ⟨hsp, hbp, hkeep, hfields⟩ := popFpu hrest hpopped hsplit
  refine ⟨?_, hfields⟩
  funext q
  by_cases hq : q = .rsp
  · rw [hq, hsp, Function.update_self]
  · rw [Function.update_of_ne hq]
    by_cases hq' : q = .rbp
    · rw [hq', hbp]
    · rw [hkeep q hq hq', hregs q hq hq']

end Saved

end Chestnut
