import Chestnut.Lib.Words
import Mathlib.Logic.Function.Basic

/-!
# Straight-line code that saves and restores processor state

The part of the 64-bit x86 instruction set that entry and exit code of an
interrupt uses, run on registers and byte memory, and a rule for each
instruction. The rules speak of the stack as a list: `Framed c xs ys` says that
`xs` and then `ys` lie at the stack pointer and that the frame pointer points
between them.

## Implementation notes

The instruction pointer is followed only where it is saved and loaded. The
flags that an addition or a subtraction leaves are a parameter `alu`; no
instruction here reads them.
-/

namespace Chestnut.Lib.X86

/-- The general registers. -/
inductive Reg
  | rax
  | rbx
  | rcx
  | rdx
  | rdi
  | rsi
  | rbp
  | rsp
  | r8
  | r9
  | r10
  | r11
  | r12
  | r13
  | r14
  | r15
  deriving DecidableEq, Repr

/-- The x87 environment. -/
structure FpuEnv where
  control : BitVec 16
  status : BitVec 16
  tag : BitVec 16
  ip : BitVec 32
  codeSelector : BitVec 16
  opcode : BitVec 11
  dp : BitVec 32
  dataSelector : BitVec 16
  deriving DecidableEq

namespace FpuEnv

/-- The seven dwords that `fnstenv` writes. -/
def image (e : FpuEnv) : List (BitVec 32) :=
  [0xffff#16 ++ e.control, 0xffff#16 ++ e.status, 0xffff#16 ++ e.tag, e.ip,
    0#5 ++ e.opcode ++ e.codeSelector, e.dp, 0xffff#16 ++ e.dataSelector]

/-- What `fldenv` makes of seven dwords; it ignores the reserved bits. -/
def ofImage (d : Nat → BitVec 32) : FpuEnv where
  control := (d 0).extractLsb' 0 16
  status := (d 1).extractLsb' 0 16
  tag := (d 2).extractLsb' 0 16
  ip := d 3
  codeSelector := (d 4).extractLsb' 0 16
  opcode := (d 4).extractLsb' 16 11
  dp := d 5
  dataSelector := (d 6).extractLsb' 0 16

@[simp] theorem length_image (e : FpuEnv) : e.image.length = 7 := rfl

/-- An image whose last dword has been replaced comes back with another data
selector and otherwise as it was. -/
theorem ofImage_set {e : FpuEnv} {x : BitVec 32} {d : Nat → BitVec 32}
    (h : ∀ i y, (e.image.set 6 x)[i]? = some y → d i = y) :
    ofImage d = { e with dataSelector := x.extractLsb' 0 16 } := by
  have hlow : ∀ u l : BitVec 16, (u ++ l : BitVec 32).extractLsb' 0 16 = l := by
    intro u l
    rw [BitVec.extractLsb'_append_eq_of_add_le (by decide)]
    exact BitVec.extractLsb'_eq_self
  have hselector : (0#5 ++ e.opcode ++ e.codeSelector : BitVec 32).extractLsb' 0 16 =
      e.codeSelector := by
    rw [BitVec.extractLsb'_append_eq_of_add_le (by decide)]
    exact BitVec.extractLsb'_eq_self
  have hopcode : (0#5 ++ e.opcode ++ e.codeSelector : BitVec 32).extractLsb' 16 11 = e.opcode := by
    rw [BitVec.extractLsb'_append_eq_of_le (by decide),
      BitVec.extractLsb'_append_eq_of_add_le (by decide)]
    exact BitVec.extractLsb'_eq_self
  rw [ofImage, h 0 _ rfl, h 1 _ rfl, h 2 _ rfl, h 3 _ rfl, h 4 _ rfl, h 5 _ rfl, h 6 _ rfl,
    hlow, hlow, hlow, hselector, hopcode]

end FpuEnv

/-- The state of the processor. -/
structure Cpu where
  regs : Reg → BitVec 64
  rip : BitVec 64
  cs : BitVec 16
  ss : BitVec 16
  rflags : BitVec 64
  fpu : FpuEnv
  mxcsr : BitVec 32
  mem : Memory

/-- The instructions; memory operands are relative to the stack pointer or lie
below the frame pointer. -/
inductive Instr
  | push (r : Reg)
  | pop (r : Reg)
  | sub (n : Nat)
  | add (n : Nat)
  | mov (src dst : Reg)
  | store (src : Reg) (disp : Nat)
  | load (disp : Nat) (dst : Reg)
  | fnstenv
  | fldenv
  | stmxcsr (disp : Nat)
  | ldmxcsr (disp : Nat)
  | leave
  | iretq
  deriving DecidableEq, Repr

namespace Cpu

def set (c : Cpu) (r : Reg) (w : BitVec 64) : Cpu :=
  { c with regs := Function.update c.regs r w }

def pushWord (c : Cpu) (w : BitVec 64) : Cpu :=
  let sp := c.regs .rsp - 8#64
  { c.set .rsp sp with mem := store64 c.mem sp w }

def popWord (c : Cpu) (r : Reg) : Cpu :=
  (c.set .rsp (c.regs .rsp + 8#64)).set r (load64 c.mem (c.regs .rsp))

/-- One instruction. `fnstenv` masks the floating-point exceptions after it has
stored the environment. -/
def exec (alu : Cpu → BitVec 64) (c : Cpu) : Instr → Cpu
  | .push r => c.pushWord (c.regs r)
  | .pop r => c.popWord r
  | .sub n => { c.set .rsp (c.regs .rsp - BitVec.ofNat 64 n) with rflags := alu c }
  | .add n => { c.set .rsp (c.regs .rsp + BitVec.ofNat 64 n) with rflags := alu c }
  | .mov src dst => c.set dst (c.regs src)
  | .store src disp =>
      { c with mem := store64 c.mem (c.regs .rbp - BitVec.ofNat 64 disp) (c.regs src) }
  | .load disp dst => c.set dst (load64 c.mem (c.regs .rbp - BitVec.ofNat 64 disp))
  | .fnstenv =>
      { c with
        mem := storeDwords c.mem (c.regs .rsp) c.fpu.image
        fpu := { c.fpu with control := c.fpu.control ||| 0x3f#16 } }
  | .fldenv =>
      { c with fpu := .ofImage fun i => load32 c.mem (c.regs .rsp + BitVec.ofNat 64 (4 * i)) }
  | .stmxcsr disp =>
      { c with mem := store32 c.mem (c.regs .rsp + BitVec.ofNat 64 disp) c.mxcsr }
  | .ldmxcsr disp =>
      { c with mxcsr := load32 c.mem (c.regs .rsp + BitVec.ofNat 64 disp) }
  | .leave => (c.set .rsp (c.regs .rbp)).popWord .rbp
  | .iretq =>
      let sp := c.regs .rsp
      { c.set .rsp (load64 c.mem (sp + 24#64)) with
        rip := load64 c.mem sp
        cs := (load64 c.mem (sp + 8#64)).setWidth 16
        rflags := load64 c.mem (sp + 16#64)
        ss := (load64 c.mem (sp + 32#64)).setWidth 16 }

/-- A sequence of instructions. -/
def run (alu : Cpu → BitVec 64) (c : Cpu) (code : List Instr) : Cpu := code.foldl (exec alu) c

end Cpu

/-- The stack as seen from a frame: `xs` lies below the frame pointer, `ys` from
it upwards. -/
structure Framed (c : Cpu) (xs ys : List (BitVec 32)) : Prop where
  stack : Stacked c.mem (c.regs .rsp) (xs ++ ys)
  base : c.regs .rbp = c.regs .rsp + BitVec.ofNat 64 (4 * xs.length)

variable {c c' : Cpu} {xs ys : List (BitVec 32)}

@[simp] theorem Cpu.run_nil (alu : Cpu → BitVec 64) (c : Cpu) : c.run alu [] = c := rfl

@[simp] theorem Cpu.run_cons (alu : Cpu → BitVec 64) (c : Cpu) (i : Instr) (code : List Instr) :
    c.run alu (i :: code) = (c.exec alu i).run alu code := rfl

@[simp] theorem Cpu.run_append (alu : Cpu → BitVec 64) (c : Cpu) (code code' : List Instr) :
    c.run alu (code ++ code') = (c.run alu code).run alu code' := List.foldl_append

@[simp] theorem Cpu.set_self (c : Cpu) (r : Reg) (w : BitVec 64) : (c.set r w).regs r = w :=
  Function.update_self _ _ _

theorem Cpu.set_ne (c : Cpu) {r q : Reg} (w : BitVec 64) (h : q ≠ r) :
    (c.set r w).regs q = c.regs q :=
  Function.update_of_ne h _ _

@[simp] theorem Cpu.pushWord_rsp (c : Cpu) (w : BitVec 64) :
    (c.pushWord w).regs .rsp = c.regs .rsp - 8#64 :=
  c.set_self .rsp _

theorem Cpu.pushWord_ne (c : Cpu) (w : BitVec 64) {q : Reg} (h : q ≠ .rsp) :
    (c.pushWord w).regs q = c.regs q :=
  c.set_ne (c.regs .rsp - 8#64) h

theorem Cpu.pushWord_stack (h : Stacked c.mem (c.regs .rsp) xs)
    (hroom : 4 * (2 + xs.length) ≤ 2 ^ 64) (w : BitVec 64) :
    Stacked (c.pushWord w).mem ((c.pushWord w).regs .rsp) (dwords [w] ++ xs) := by
  rw [Cpu.pushWord_rsp]
  exact h.push hroom w

/-- Several words, the last one ends up lowest. -/
theorem Cpu.pushWords_stack (ws : List (BitVec 64)) (h : Stacked c.mem (c.regs .rsp) xs)
    (hroom : 4 * (2 * ws.length + xs.length) ≤ 2 ^ 64) :
    Stacked (ws.foldl Cpu.pushWord c).mem ((ws.foldl Cpu.pushWord c).regs .rsp)
      (dwords ws.reverse ++ xs) := by
  induction ws generalizing c xs with
  | nil => exact h
  | cons w ws ih =>
      rw [List.length_cons] at hroom
      have hnext := ih (Cpu.pushWord_stack h (by omega) w) (by simp [dwords]; omega)
      rw [List.foldl_cons, List.reverse_cons, dwords_append, List.append_assoc]
      exact hnext

namespace Framed

theorem push (alu : Cpu → BitVec 64) (h : Framed c xs ys)
    (hroom : 4 * (2 + (xs ++ ys).length) ≤ 2 ^ 64) (r : Reg) :
    Framed (c.exec alu (.push r)) (dwords [c.regs r] ++ xs) ys := by
  refine ⟨?_, ?_⟩
  · rw [List.append_assoc]
    exact Cpu.pushWord_stack h.stack hroom _
  · rw [Cpu.exec, Cpu.pushWord_ne _ _ (by decide), Cpu.pushWord_rsp, h.base, List.length_append,
      length_dwords, List.length_singleton, Nat.mul_add, BitVec.ofNat_add]
    bv_omega

/-- A run of pushes. -/
theorem pushes (alu : Cpu → BitVec 64) (rs : List Reg) (h : Framed c xs ys) (hrs : .rsp ∉ rs)
    (hroom : 4 * (2 * rs.length + (xs ++ ys).length) ≤ 2 ^ 64) :
    Framed (c.run alu (rs.map .push)) (dwords (rs.reverse.map c.regs) ++ xs) ys ∧
      ∀ q, q ≠ .rsp → (c.run alu (rs.map .push)).regs q = c.regs q := by
  induction rs generalizing c xs with
  | nil => exact ⟨h, fun _ _ => rfl⟩
  | cons r rs ih =>
      rw [List.length_cons] at hroom
      have hkeep : ∀ q, q ≠ .rsp → (c.exec alu (.push r)).regs q = c.regs q :=
        fun q hq => c.pushWord_ne _ hq
      have hpush := h.push alu (by omega) r
      obtain ⟨hframe, hregs⟩ := ih hpush (fun hmem => hrs (List.mem_cons_of_mem _ hmem))
        (by simp [dwords] at hroom ⊢; omega)
      refine ⟨?_, fun q hq => by rw [List.map_cons, Cpu.run_cons, hregs q hq, hkeep q hq]⟩
      have hmap : rs.reverse.map (c.exec alu (.push r)).regs = rs.reverse.map c.regs := by
        apply List.map_congr_left
        intro q hq
        exact hkeep q fun he => hrs (he ▸ List.mem_cons_of_mem _ (List.mem_reverse.mp hq))
      rw [hmap] at hframe
      rw [List.reverse_cons, List.map_append, dwords_append, List.append_assoc, List.map_cons,
        Cpu.run_cons]
      exact hframe

/-- Reserve words. -/
theorem sub (alu : Cpu → BitVec 64) (n : Nat) (h : Framed c xs ys)
    (hroom : 4 * (2 * n + (xs ++ ys).length) ≤ 2 ^ 64) :
    ∃ gap : List (BitVec 64), gap.length = n ∧
      Framed (c.exec alu (.sub (8 * n))) (dwords gap ++ xs) ys := by
  obtain ⟨gap, hlen, hstack⟩ := h.stack.grow hroom
  obtain ⟨ws, hws, rfl⟩ := exists_dwords hlen
  have hbytes : 8 * n = 4 * (2 * n) := by omega
  refine ⟨ws, hws, ?_, ?_⟩
  · rw [List.append_assoc, hbytes]
    simpa [Cpu.exec, Cpu.set] using hstack
  · rw [List.length_append, length_dwords, hws, Nat.mul_add, BitVec.ofNat_add, hbytes]
    have hbase := h.base
    simp only [Cpu.exec, Cpu.set, ne_eq, reduceCtorEq, not_false_eq_true, Function.update_of_ne,
      Function.update_self]
    bv_omega

/-- The stack pointer moves up over `gap`; memory and frame pointer stay. -/
theorem drop {gap : List (BitVec 32)} (h : Framed c (gap ++ xs) ys) (hmem : c'.mem = c.mem)
    (hbp : c'.regs .rbp = c.regs .rbp)
    (hsp : c'.regs .rsp = c.regs .rsp + BitVec.ofNat 64 (4 * gap.length)) : Framed c' xs ys := by
  have hstack := h.stack
  rw [List.append_assoc] at hstack
  refine ⟨?_, ?_⟩
  · rw [hmem, hsp]
    exact hstack.right
  · rw [hbp, hsp, h.base, List.length_append, Nat.mul_add, BitVec.ofNat_add, BitVec.add_assoc]

theorem add (alu : Cpu → BitVec 64) {gap : List (BitVec 32)} (h : Framed c (gap ++ xs) ys) {n : Nat}
    (hn : n = 4 * gap.length) : Framed (c.exec alu (.add n)) xs ys := by
  apply h.drop
  · rfl
  · simp [Cpu.exec, Cpu.set]
  · simp [Cpu.exec, Cpu.set, hn]

/-- A run of pops that takes back the values of `g`. -/
theorem pops (alu : Cpu → BitVec 64) (rs : List Reg) {g : Reg → BitVec 64}
    (h : Framed c (dwords (rs.map g) ++ xs) ys) (hsp : .rsp ∉ rs) (hbp : .rbp ∉ rs) :
    Framed (c.run alu (rs.map .pop)) xs ys ∧
      (∀ r ∈ rs, (c.run alu (rs.map .pop)).regs r = g r) ∧
      ∀ q, q ∉ rs → q ≠ .rsp → (c.run alu (rs.map .pop)).regs q = c.regs q := by
  induction rs generalizing c with
  | nil => exact ⟨h, by simp, fun _ _ _ => rfl⟩
  | cons r rs ih =>
      rw [List.mem_cons, not_or] at hsp hbp
      have hval : load64 c.mem (c.regs .rsp) = g r :=
        (show Stacked c.mem _ ([] ++ (dwords (g r :: rs.map g) ++ (xs ++ ys))) from by
          simpa [dwords] using h.stack).loadWord [] (i := 0) rfl (by simp)
      have hself : (c.exec alu (.pop r)).regs r = g r := by
        simp [Cpu.exec, Cpu.popWord, hval]
      have hkeep : ∀ q, q ≠ r → q ≠ .rsp → (c.exec alu (.pop r)).regs q = c.regs q := by
        intro q hq hq'
        simp [Cpu.exec, Cpu.popWord, Cpu.set, hq, hq']
      have hframe : Framed (c.exec alu (.pop r)) (dwords (rs.map g) ++ xs) ys := by
        have hgap : Framed c (dwords [g r] ++ (dwords (rs.map g) ++ xs)) ys := by
          simpa [dwords] using h
        apply hgap.drop
        · rfl
        · exact hkeep .rbp hbp.1 (by decide)
        · simp [Cpu.exec, Cpu.popWord, Cpu.set, hsp.1]
      obtain ⟨hrest, hin, hout⟩ := ih hframe hsp.2 hbp.2
      rw [List.map_cons, Cpu.run_cons]
      refine ⟨hrest, fun q hq => ?_, fun q hq hq' => ?_⟩
      · by_cases hmem : q ∈ rs
        · exact hin q hmem
        · have hqr : q = r := (List.mem_cons.mp hq).resolve_right hmem
          subst hqr
          rw [hout q hmem (Ne.symm hsp.1), hself]
      · rw [List.mem_cons, not_or] at hq
        rw [hout q hq.2 hq', hkeep q hq.1 hq']

/-- The address of a word below the frame pointer. -/
theorem slot_addr {ws : List (BitVec 64)} (h : Framed c (xs ++ dwords ws) ys) {i : Nat}
    (hi : i < ws.length) :
    c.regs .rbp - BitVec.ofNat 64 (8 * (ws.length - i)) =
      c.regs .rsp + BitVec.ofNat 64 (4 * xs.length + 8 * i) := by
  have hsplit : 4 * (xs ++ dwords ws).length = 4 * xs.length + 8 * i + 8 * (ws.length - i) := by
    rw [List.length_append, length_dwords]
    omega
  rw [h.base, hsplit, BitVec.ofNat_add (4 * xs.length + 8 * i)]
  bv_omega

/-- The environment replaces the dwords at the stack pointer. -/
theorem fnstenv (alu : Cpu → BitVec 64) {old : List (BitVec 32)} (h : Framed c (old ++ xs) ys)
    (hold : old.length = 7) :
    Framed (c.exec alu .fnstenv) (c.fpu.image ++ xs) ys := by
  have hstack := h.stack
  rw [List.append_assoc] at hstack
  have hover := hstack.storeDwords [] c.fpu.image hold
  refine ⟨?_, ?_⟩
  · simpa [Cpu.exec] using hover
  · have hbase := h.base
    rw [List.length_append, hold] at hbase
    rw [List.length_append]
    exact hbase

/-- The control register replaces one dword. -/
theorem stmxcsr (alu : Cpu → BitVec 64) {i : Nat} (h : Framed c xs ys) (hi : i < xs.length) :
    Framed (c.exec alu (.stmxcsr (4 * i))) (xs.set i c.mxcsr) ys := by
  have hstore := h.stack.store (i := i) (by rw [List.length_append]; omega) c.mxcsr
  rw [List.set_append_left _ _ hi] at hstore
  refine ⟨hstore, ?_⟩
  rw [List.length_set]
  exact h.base

/-- A word below the frame pointer is replaced. -/
theorem store (alu : Cpu → BitVec 64) {ws : List (BitVec 64)} {i : Nat}
    (h : Framed c (xs ++ dwords ws) ys) (hi : i < ws.length) (src : Reg) :
    Framed (c.exec alu (.store src (8 * (ws.length - i)))) (xs ++ dwords (ws.set i (c.regs src)))
      ys := by
  have hstack := h.stack
  rw [List.append_assoc] at hstack
  have hstore := hstack.storeWord xs hi (slot_addr h hi) (c.regs src)
  refine ⟨?_, ?_⟩
  · rw [List.append_assoc]
    exact hstore
  · have hbase := h.base
    rw [List.length_append, length_dwords] at hbase ⊢
    rw [List.length_set]
    exact hbase

/-- A word below the frame pointer is read. -/
theorem slot_read {ws : List (BitVec 64)} {w : BitVec 64} (h : Framed c (xs ++ dwords ws) ys)
    {i : Nat} (hw : ws[i]? = some w) :
    load64 c.mem (c.regs .rbp - BitVec.ofNat 64 (8 * (ws.length - i))) = w := by
  have hstack := h.stack
  rw [List.append_assoc] at hstack
  exact hstack.loadWord xs hw (h.slot_addr (List.getElem?_eq_some_iff.mp hw).1)

/-- A dword above the stack pointer is read. -/
theorem dword_read (h : Framed c xs ys) {i : Nat} {d : BitVec 32} (hd : xs[i]? = some d) :
    load32 c.mem (c.regs .rsp + BitVec.ofNat 64 (4 * i)) = d :=
  h.stack.left.read i d hd

/-- The frame is left, the caller's frame pointer taken back. -/
theorem leave (alu : Cpu → BitVec 64) {w : BitVec 64} {ws : List (BitVec 64)}
    (h : Framed c xs (dwords (w :: ws))) :
    Stacked (c.exec alu .leave).mem ((c.exec alu .leave).regs .rsp) (dwords ws) ∧
      (c.exec alu .leave).regs .rbp = w ∧
      ∀ q, q ≠ .rsp → q ≠ .rbp → (c.exec alu .leave).regs q = c.regs q := by
  have hup : Stacked c.mem (c.regs .rbp) (dwords (w :: ws)) := by
    rw [h.base]
    exact h.stack.right
  have hsp : (c.exec alu .leave).regs .rsp = c.regs .rbp + 8#64 := by
    simp [Cpu.exec, Cpu.popWord, Cpu.set]
  refine ⟨?_, ?_, fun q hq hq' => ?_⟩
  · rw [hsp]
    exact (show Stacked c.mem _ (dwords [w] ++ dwords ws) from hup).right
  · have hval : load64 c.mem (c.regs .rbp) = w :=
      (show Stacked c.mem _ ([] ++ (dwords (w :: ws) ++ [])) from by simpa using hup).loadWord []
        (i := 0) rfl (by simp)
    simp [Cpu.exec, Cpu.popWord, Cpu.set, hval]
  · simp [Cpu.exec, Cpu.popWord, Cpu.set, hq, hq']

end Framed

/-- The five words at the stack pointer are where the interrupted program
resumes. -/
theorem Cpu.iretq_eq (alu : Cpu → BitVec 64) {w₀ w₁ w₂ w₃ w₄ : BitVec 64}
    (h : Stacked c.mem (c.regs .rsp) (dwords [w₀, w₁, w₂, w₃, w₄])) :
    c.exec alu .iretq = { c with
      regs := Function.update c.regs .rsp w₃
      rip := w₀
      cs := w₁.setWidth 16
      rflags := w₂
      ss := w₄.setWidth 16 } := by
  have hread : ∀ i w, [w₀, w₁, w₂, w₃, w₄][i]? = some w →
      load64 c.mem (c.regs .rsp + BitVec.ofNat 64 (8 * i)) = w := fun i w hw =>
    (show Stacked c.mem _ ([] ++ (dwords [w₀, w₁, w₂, w₃, w₄] ++ [])) from by
      simpa using h).loadWord [] hw (by simp)
  have h0 := hread 0 w₀ rfl
  rw [Nat.mul_zero, BitVec.add_zero] at h0
  simp only [Cpu.exec, Cpu.set, h0, hread 1 w₁ rfl, hread 2 w₂ rfl, hread 3 w₃ rfl,
    hread 4 w₄ rfl]

/-- A routine returns with the stack and frame pointers it was called with and
has not written the `n` bytes above the stack pointer. -/
structure Cpu.Keeps (n : Nat) (c c' : Cpu) : Prop where
  rsp : c'.regs .rsp = c.regs .rsp
  rbp : c'.regs .rbp = c.regs .rbp
  mem : ∀ a, (a - c.regs .rsp).toNat < n → c'.mem a = c.mem a

theorem Framed.keeps {n : Nat} (h : Framed c xs ys) (hk : c.Keeps n c')
    (hn : 4 * (xs ++ ys).length ≤ n) : Framed c' xs ys := by
  refine ⟨?_, ?_⟩
  · rw [hk.rsp]
    exact h.stack.congr fun a ha => hk.mem a (by omega)
  · rw [hk.rsp, hk.rbp, h.base]

end Chestnut.Lib.X86
