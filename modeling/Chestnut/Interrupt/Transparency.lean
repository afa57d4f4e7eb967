import Chestnut.Interrupt.Saved

/-!
# When an interrupt is transparent

What the handlers are given and what is restored, for every vector and every
interrupted state. The wrapper takes the five words above the saved frame
pointer for the frame whatever the vector, so the error code of an exception
shifts it; and it stores MXCSR over the last dword of the x87 environment. The
table of exceptions is indexed beyond its end by `Setup` and by the wrappers
of the vectors from 32 on.
-/

namespace Chestnut

open Lib Lib.X86

/-- The frame and the context show the interrupted state `i`. -/
structure Given (i : Cpu) (f ctx : BitVec 64) (c : Cpu) : Prop where
  rip : load64 c.mem f = i.rip
  cs : load64 c.mem (f + 8#64) = i.cs.setWidth 64
  eflags : load64 c.mem (f + 16#64) = i.rflags
  rsp : load64 c.mem (f + 24#64) = i.regs .rsp
  context : ∀ r, load64 c.mem (ctx + BitVec.ofNat 64 (contextOffset r)) = i.regs r
  contextRip : load64 c.mem (ctx + BitVec.ofNat 64 contextRip) = i.rip

/-- The interrupted state is back. -/
structure Restored (i c : Cpu) : Prop where
  regs : c.regs = i.regs
  rip : c.rip = i.rip
  cs : c.cs = i.cs
  rflags : c.rflags = i.rflags
  fpu : c.fpu = i.fpu
  mxcsr : c.mxcsr = i.mxcsr

/-- Every handler of the chain is given the interrupted state, and it is back
after `iretq`. -/
structure Transparent (i : Cpu) (chain : List Routine) (o : Interruption) : Prop where
  given : ∀ called, called <+: chain →
    Given i o.frame o.context (invokeChainHandlers called o.frame o.context o.entered)
  restored : Restored i o.resumed

/-- The words above the saved frame pointer are the frame: without an error code
always, with one only if they happen to coincide. -/
def FrameFits (v : Nat) (d : Delivery) (i : Cpu) : Prop :=
  v ∈ errorCodeVectors →
    d.errorCode.setWidth 64 = i.rip ∧ i.rip = i.cs.setWidth 64 ∧
      i.cs.setWidth 64 = i.rflags ∧ i.rflags = i.regs .rsp

/-- The last dword of the x87 environment happens to be that of MXCSR. -/
def SelectorFits (i : Cpu) : Prop := i.fpu.dataSelector = i.mxcsr.extractLsb' 0 16

variable {alu : Cpu → BitVec 64} {L : Layout} {kprintf eoi : Routine} {chain : List Routine}
  {v : Nat} {t : ExceptionTable} {d : Delivery} {i c : Cpu} {o : Interruption}
  {w₀ w₁ w₂ w₃ w₄ : BitVec 64}

theorem interruptFrame_eq (isException : Bool) (framePtr : BitVec 64) :
    interruptFrame isException framePtr = framePtr + 8#64 := by
  cases isException <;> rfl

/-- The wrapper up to the handlers. -/
theorem saved_entered (h : Stacked c.mem (c.regs .rsp) (dwords [w₀, w₁, w₂, w₃, w₄]))
    (ho : o = interruptWrapper alu L kprintf eoi chain v t c) :
    Saved L c [w₀, w₁, w₂, w₃, w₄] (c.regs .rbp) w₃ w₀ o.entered ∧
      o.frame = o.entered.regs .rbp + 8#64 ∧ o.context = o.entered.regs .rsp := by
  obtain ⟨rbp, rsp, rip, hsaved⟩ := saved_of_saveContext alu L rfl h
  simp only [interruptWrapper, interruptFrame_eq, hsaved.framePtr_read, hsaved.stackPtr_read] at ho
  generalize c.run alu (prologue L ++ saveContext L) = saved at ho hsaved
  have hk := kprintf.keeps (saved.regs .rbp + 8#64) (saved.regs .rsp) saved
  have hfill := (hsaved.keeps rfl rfl hk).fillContext
  rw [hk.rbp, hk.rsp] at hfill
  subst ho
  exact ⟨hfill, congrArg (· + 8#64) hk.rbp.symm, hk.rsp.symm⟩

/-- What the handlers are given and what the wrapper restores, in terms of the
words it found on the stack. -/
theorem interruptWrapper_spec (h : Stacked c.mem (c.regs .rsp) (dwords [w₀, w₁, w₂, w₃, w₄]))
    (ho : o = interruptWrapper alu L kprintf eoi chain v t c) :
    (∀ called, called <+: chain → ∃ s, s = invokeChainHandlers called o.frame o.context o.entered ∧
      Saved L c [w₀, w₁, w₂, w₃, w₄] (c.regs .rbp) w₃ w₀ s ∧
      o.frame = s.regs .rbp + 8#64 ∧ o.context = s.regs .rsp) ∧
    o.resumed.regs = Function.update c.regs .rsp w₃ ∧ o.resumed.rip = w₀ ∧
      o.resumed.cs = w₁.setWidth 16 ∧ o.resumed.rflags = w₂ ∧
      o.resumed.fpu = { c.fpu with dataSelector := c.mxcsr.extractLsb' 0 16 } ∧
      o.resumed.mxcsr = c.mxcsr := by
  obtain ⟨hsaved, hframe, hcontext⟩ := saved_entered h ho
  refine ⟨fun called _ => ?_, ?_⟩
  · obtain ⟨hs, hbp, hsp⟩ := hsaved.invokeChainHandlers rfl called o.context hframe
    exact ⟨_, rfl, hs, by rw [hbp, hframe], by rw [hsp, hcontext]⟩
  · obtain ⟨hs, hbp, -⟩ := hsaved.invokeChainHandlers rfl chain o.context hframe
    have hk := eoi.keeps o.frame o.context (invokeChainHandlers chain o.frame o.context o.entered)
    exact (hs.keeps rfl (by rw [hbp, hframe]) hk).restoreContext (by rw [ho]; rfl)

/-- The registers of a context whose `rsp` is `w`. -/
theorem contextWords_getElem? (g : Reg → BitVec 64) (w rip : BitVec 64) (r : Reg) :
    (contextWords g (g .rbp) w rip)[contextRegs.idxOf r]? =
      some (Function.update g .rsp w r) := by
  cases r <;> rfl

/-- The frame and the context as the handlers read them. -/
theorem given_iff {s : Cpu} (h : Saved L c [w₀, w₁, w₂, w₃, w₄] (c.regs .rbp) w₃ w₀ s)
    (hregs : ∀ q, q ≠ .rsp → c.regs q = i.regs q) {f ctx : BitVec 64}
    (hf : f = s.regs .rbp + 8#64) (hctx : ctx = s.regs .rsp) :
    Given i f ctx s ↔
      w₀ = i.rip ∧ w₁ = i.cs.setWidth 64 ∧ w₂ = i.rflags ∧ w₃ = i.regs .rsp := by
  have hframe : ∀ k w, [w₀, w₁, w₂, w₃, w₄][k]? = some w →
      load64 s.mem (f + BitVec.ofNat 64 (8 * k)) = w := by
    intro k w hw
    have hread := h.frame_read (i := k + 1) hw
    rw [Nat.mul_succ, Nat.add_comm, BitVec.ofNat_add, ← BitVec.add_assoc] at hread
    rw [hf]
    exact hread
  have h0 := hframe 0 w₀ rfl
  rw [Nat.mul_zero, BitVec.add_zero] at h0
  have hcontext : ∀ r, load64 s.mem (ctx + BitVec.ofNat 64 (contextOffset r)) =
      Function.update c.regs .rsp w₃ r := fun r => by
    rw [hctx]
    exact h.context_read (contextWords_getElem? _ _ _ r)
  have hrip : load64 s.mem (ctx + BitVec.ofNat 64 contextRip) = w₀ := by
    rw [hctx]
    exact h.context_read (i := 16) rfl
  constructor
  · intro hg
    exact ⟨h0.symm.trans hg.rip, (hframe 1 w₁ rfl).symm.trans hg.cs,
      (hframe 2 w₂ rfl).symm.trans hg.eflags, (hframe 3 w₃ rfl).symm.trans hg.rsp⟩
  · rintro ⟨rfl, rfl, rfl, rfl⟩
    refine ⟨h0, hframe 1 _ rfl, hframe 2 _ rfl, hframe 3 _ rfl, fun r => ?_, hrip⟩
    rw [hcontext]
    by_cases hr : r = .rsp
    · rw [hr, Function.update_self]
    · rw [Function.update_of_ne hr, hregs r hr]

/-- Transparency in terms of the words the wrapper found on the stack. -/
theorem transparent_iff_words
    (h : Stacked c.mem (c.regs .rsp) (dwords [w₀, w₁, w₂, w₃, w₄]))
    (ho : o = interruptWrapper alu L kprintf eoi chain v t c)
    (hregs : ∀ q, q ≠ .rsp → c.regs q = i.regs q) (hfpu : c.fpu = i.fpu)
    (hmxcsr : c.mxcsr = i.mxcsr) :
    Transparent i chain o ↔
      (w₀ = i.rip ∧ w₁ = i.cs.setWidth 64 ∧ w₂ = i.rflags ∧ w₃ = i.regs .rsp) ∧
        SelectorFits i := by
  obtain ⟨hgiven, hreg, hrip, hcs, hflags, hf, hm⟩ := interruptWrapper_spec h ho
  rw [hfpu, hmxcsr] at hf
  constructor
  · intro ht
    obtain ⟨s, rfl, hs, hframe, hctx⟩ := hgiven [] (List.nil_prefix)
    refine ⟨(given_iff hs hregs hframe hctx).mp (ht.given [] List.nil_prefix), ?_⟩
    exact congrArg FpuEnv.dataSelector (ht.restored.fpu.symm.trans hf)
  · rintro ⟨hwords, hselector⟩
    refine ⟨fun called hcalled => ?_, ?_⟩
    · obtain ⟨s, rfl, hs, hframe, hctx⟩ := hgiven called hcalled
      exact (given_iff hs hregs hframe hctx).mpr hwords
    · obtain ⟨rfl, rfl, rfl, rfl⟩ := hwords
      refine ⟨?_, hrip, ?_, hflags, ?_, hm.trans hmxcsr⟩
      · rw [hreg]
        funext q
        by_cases hq : q = .rsp
        · rw [hq, Function.update_self]
        · rw [Function.update_of_ne hq, hregs q hq]
      · rw [hcs]
        exact BitVec.setWidth_setWidth_of_le _ (by decide)
      · rw [hf, ← hselector]

/-- Delivery leaves the other registers and the floating-point state alone. -/
theorem deliver_keeps (v : Nat) (d : Delivery) (i : Cpu) :
    (∀ q, q ≠ .rsp → (deliver v d i).regs q = i.regs q) ∧ (deliver v d i).fpu = i.fpu ∧
      (deliver v d i).mxcsr = i.mxcsr := by
  unfold deliver
  generalize deliveredWords v d i = ws
  have hpush : ∀ (c : Cpu), (∀ q, q ≠ .rsp → (ws.foldl Cpu.pushWord c).regs q = c.regs q) ∧
      (ws.foldl Cpu.pushWord c).fpu = c.fpu ∧ (ws.foldl Cpu.pushWord c).mxcsr = c.mxcsr := by
    induction ws with
    | nil => exact fun c => ⟨fun _ _ => rfl, rfl, rfl⟩
    | cons w ws ih =>
        intro c
        obtain ⟨hregs, hfpu, hmxcsr⟩ := ih (c.pushWord w)
        exact ⟨fun q hq => (hregs q hq).trans (c.pushWord_ne w hq), hfpu, hmxcsr⟩
  obtain ⟨hregs, hfpu, hmxcsr⟩ := hpush (i.set .rsp d.stack)
  exact ⟨fun q hq => (hregs q hq).trans (i.set_ne _ hq), hfpu, hmxcsr⟩

theorem deliver_stacked (v : Nat) (d : Delivery) (i : Cpu) :
    Stacked (deliver v d i).mem ((deliver v d i).regs .rsp)
      (dwords (deliveredWords v d i).reverse) := by
  have hlen : (deliveredWords v d i).length ≤ 6 := by
    unfold deliveredWords
    split <;> simp
  unfold deliver
  generalize deliveredWords v d i = ws at hlen ⊢
  have hpush := Cpu.pushWords_stack ws (Stacked.nil (i.set .rsp d.stack).mem _)
    (by rw [List.length_nil]; omega)
  rw [List.append_nil] at hpush
  exact hpush

/-- The exact condition for one interrupt. -/
theorem transparent_iff (ho : o = interruptWrapper alu L kprintf eoi chain v t (deliver v d i)) :
    Transparent i chain o ↔ FrameFits v d i ∧ SelectorFits i := by
  obtain ⟨hregs, hfpu, hmxcsr⟩ := deliver_keeps v d i
  have hstack := deliver_stacked v d i
  unfold FrameFits
  by_cases hv : v ∈ errorCodeVectors
  · have hwords : (deliveredWords v d i).reverse = [d.errorCode.setWidth 64, i.rip,
        i.cs.setWidth 64, i.rflags, i.regs .rsp] ++ [i.ss.setWidth 64] := by
      rw [deliveredWords, if_pos hv]
      rfl
    rw [hwords, dwords_append] at hstack
    rw [transparent_iff_words hstack.left ho hregs hfpu hmxcsr, imp_iff_right hv]
  · have hwords : (deliveredWords v d i).reverse = [i.rip, i.cs.setWidth 64, i.rflags,
        i.regs .rsp, i.ss.setWidth 64] := by
      rw [deliveredWords, if_neg hv]
      rfl
    rw [hwords] at hstack
    rw [transparent_iff_words hstack ho hregs hfpu hmxcsr]
    exact and_congr_left fun _ => ⟨fun _ h => absurd h hv, fun _ => ⟨rfl, rfl, rfl, rfl⟩⟩

/-- `Setup` marks vector 48 in a table of 32. -/
theorem setup_not_inBounds (t : ExceptionTable) : ¬ t.setup.InBounds := by
  intro h
  have hlast : 0x30 ∈ t.setup.touched := List.mem_cons_self
  exact absurd (h _ hlast) (by decide)

/-- For every vector, interrupted state and chain of handlers: the interrupt is
transparent exactly if the vector has no error code, coincidences apart, and
the last dword of the x87 environment is that of MXCSR; the wrapper indexes the
table inside its bounds exactly for the vectors below 32, and `Setup` never
does. -/
theorem interrupt_transparent_iff (alu : Cpu → BitVec 64) (L : Layout) (kprintf eoi : Routine)
    (chain : List Routine) (v : Nat) (d : Delivery) (i : Cpu) (cell : Nat → Bool) :
    (Transparent i chain
        (interruptWrapper alu L kprintf eoi chain v ⟨cell, []⟩ (deliver v d i)) ↔
      FrameFits v d i ∧ SelectorFits i) ∧
    ((interruptWrapper alu L kprintf eoi chain v ⟨cell, []⟩ (deliver v d i)).table.InBounds ↔
      v < exceptionTableSize) ∧
    ¬ (ExceptionTable.setup ⟨cell, []⟩).InBounds := by
  refine ⟨transparent_iff rfl, ?_, setup_not_inBounds _⟩
  have htouched : (interruptWrapper alu L kprintf eoi chain v ⟨cell, []⟩
      (deliver v d i)).table.touched = [v] := rfl
  rw [ExceptionTable.InBounds, htouched]
  exact List.forall_mem_singleton

/-- A routine without effect. -/
def Routine.none : Routine := ⟨fun _ _ c => c, fun _ _ _ => ⟨rfl, rfl, fun _ _ => rfl⟩⟩

/-- Two locals. -/
def smallLayout : Layout := ⟨2, 0, 1, by decide, by decide⟩

/-- A program at 0x1000 with the usual floating-point state. -/
def program : Cpu where
  regs r := if r = .rsp then 0x8000#64 else 7#64
  rip := 0x1000#64
  cs := 8#16
  ss := 0#16
  rflags := 0x202#64
  fpu := ⟨0x37f#16, 0#16, 0xffff#16, 0#32, 0#16, 0#11, 0#32, 0#16⟩
  mxcsr := 0x1f80#32
  mem _ := 0#8

/-- A page fault with error code 2. -/
def writeFault : Delivery := ⟨0x8000#64, 2#32, 0x2000#64, 8#16, 0#16⟩

/-- The program resumes at the error code, with the wrong stack pointer, and the
table has been indexed at 48. -/
theorem page_fault_not_transparent :
    (interruptWrapper (fun _ => 0#64) smallLayout .none .none [] 14 .zero
        (deliver 14 writeFault program)).resumed.rip = 2#64 ∧
      (interruptWrapper (fun _ => 0#64) smallLayout .none .none [] 14 .zero
        (deliver 14 writeFault program)).resumed.regs .rsp = 0x202#64 ∧
      ¬ Transparent program [] (interruptWrapper (fun _ => 0#64) smallLayout .none .none [] 14 .zero
        (deliver 14 writeFault program)) ∧
      ¬ ExceptionTable.zero.setup.InBounds := by
  refine ⟨by decide +kernel, by decide +kernel, fun ht => ?_, setup_not_inBounds _⟩
  obtain ⟨hframe, -⟩ := (transparent_iff rfl).mp ht
  exact absurd (hframe (by decide)).1 (by decide)

end Chestnut
