import Chestnut.Lib.X86

/-!
# The interrupt wrapper

`irqs.cc`: the table of vectors that `Setup` fills, and `InterruptWrapper` from
the moment the processor has pushed its frame to the `iretq` that ends it. The
two blocks of inline assembly are instruction lists; between them stands the
C++ part on the same state.

## Implementation notes

`gIsInterruptException` is read and written at whatever index the source
computes; `touched` records the indices, since the array has 32 elements. The
compiler's part of the wrapper is its prologue and a `Layout` of the locals.
What the wrapper calls is a `Routine`, arbitrary but for the calling convention
and for leaving the frame and the context alone.
-/

namespace Chestnut

open Lib Lib.X86

/-- The booleans from `gIsInterruptException` on, and the indices used so far. -/
structure ExceptionTable where
  cell : Nat → Bool
  touched : List Nat

/-- The number of elements of `gIsInterruptException`. -/
def exceptionTableSize : Nat := 32

/-- `gExceptionIrq`. -/
def gExceptionIrq : List Nat := [0x08, 0x10, 0x11, 0x12, 0x13, 0x14, 0x17, 0x30]

namespace ExceptionTable

/-- The static array before `Setup`. -/
def zero : ExceptionTable := ⟨fun _ => false, []⟩

def write (t : ExceptionTable) (i : Nat) (b : Bool) : ExceptionTable :=
  ⟨Function.update t.cell i b, i :: t.touched⟩

def read (t : ExceptionTable) (i : Nat) : Bool × ExceptionTable :=
  (t.cell i, { t with touched := i :: t.touched })

/-- The loop of `Setup` over `gExceptionIrq`. -/
def setup (t : ExceptionTable) : ExceptionTable :=
  gExceptionIrq.foldl (fun t irq => t.write irq true) t

/-- Every access lay inside the array. -/
def InBounds (t : ExceptionTable) : Prop := ∀ i ∈ t.touched, i < exceptionTableSize

end ExceptionTable

/-- The fields of `Context` up to `r15`, in order; `rip` and `fp_state` follow. -/
def contextRegs : List Reg :=
  [.rax, .rbx, .rcx, .rdx, .rdi, .rsi, .rbp, .rsp, .r8, .r9, .r10, .r11, .r12, .r13, .r14, .r15]

/-- The offset of a register in `Context`. -/
def contextOffset (r : Reg) : Nat := 8 * contextRegs.idxOf r

/-- The offset of `Context::rip`. -/
def contextRip : Nat := 8 * contextRegs.length

/-- The locals of the wrapper in its stack frame, counted in words from the
lower end. -/
structure Layout where
  words : Nat
  framePtr : Fin words
  stackPtr : Fin words
  apart : framePtr ≠ stackPtr
  small : words ≤ 2 ^ 32

/-- How far below the frame pointer a local lies. -/
def Layout.disp (L : Layout) (i : Fin L.words) : Nat := 8 * (L.words - i)

/-- The compiler's prologue. -/
def prologue (L : Layout) : List Instr :=
  [.push .rbp, .mov .rsp .rbp, .sub (8 * L.words)]

/-- The first block of assembly. -/
def saveContext (L : Layout) : List Instr :=
  [.sub 0x200, .fnstenv, .stmxcsr 0x18,
    .sub 0x08,
    .push .r15, .push .r14, .push .r13, .push .r12, .push .r11, .push .r10, .push .r9, .push .r8,
    .sub 0x10,
    .push .rsi, .push .rdi, .push .rdx, .push .rcx, .push .rbx, .push .rax,
    .store .rbp (L.disp L.framePtr), .store .rsp (L.disp L.stackPtr)]

/-- The second block of assembly, and `leave; iretq`. -/
def restoreContext (L : Layout) : List Instr :=
  [.load (L.disp L.stackPtr) .rsp,
    .pop .rax, .pop .rbx, .pop .rcx, .pop .rdx, .pop .rdi, .pop .rsi,
    .add 0x10,
    .pop .r8, .pop .r9, .pop .r10, .pop .r11, .pop .r12, .pop .r13, .pop .r14, .pop .r15,
    .add 0x08,
    .fldenv, .ldmxcsr 0x18, .add 0x200,
    .leave, .iretq]

/-- A function the wrapper calls: it may use every register and all memory except
the stack from the caller's stack pointer to the end of the frame at `f`. -/
structure Routine where
  run : (f ctx : BitVec 64) → Cpu → Cpu
  keeps : ∀ f ctx (c : Cpu), c.Keeps ((f - c.regs .rsp).toNat + 40) (run f ctx c)

/-- `IrqVector::InvokeChainHandlers` on the handlers of the vector. -/
def invokeChainHandlers (chain : List Routine) (f ctx : BitVec 64) (c : Cpu) : Cpu :=
  chain.foldl (fun c handler => handler.run f ctx c) c

/-- The choice of `f`: both casts start at the word above the saved frame
pointer. -/
def interruptFrame (isException : Bool) (framePtr : BitVec 64) : BitVec 64 :=
  if isException then framePtr + 8#64
  else
    let ef := framePtr + 8#64
    ef

/-- The assignments to `ctx->rbp`, `ctx->rsp` and `ctx->rip`. -/
def fillContext (framePtr f ctx : BitVec 64) (c : Cpu) : Cpu :=
  let mem := store64 c.mem (ctx + BitVec.ofNat 64 (contextOffset .rbp)) (load64 c.mem framePtr)
  let mem := store64 mem (ctx + BitVec.ofNat 64 (contextOffset .rsp)) (load64 mem (f + 24#64))
  let mem := store64 mem (ctx + BitVec.ofNat 64 contextRip) (load64 mem f)
  { c with mem }

/-- What the wrapper passes to the handlers, the state in which it calls them,
the state after `iretq`, and the table after its access. -/
structure Interruption where
  frame : BitVec 64
  context : BitVec 64
  entered : Cpu
  resumed : Cpu
  table : ExceptionTable

/-- `InterruptWrapper<v>` from its first instruction on. -/
def interruptWrapper (alu : Cpu → BitVec 64) (L : Layout) (kprintf eoi : Routine)
    (chain : List Routine) (v : Nat) (t : ExceptionTable) (c : Cpu) : Interruption :=
  let saved := c.run alu (prologue L ++ saveContext L)
  let framePtr := load64 saved.mem (saved.regs .rbp - BitVec.ofNat 64 (L.disp L.framePtr))
  let stackPtr := load64 saved.mem (saved.regs .rbp - BitVec.ofNat 64 (L.disp L.stackPtr))
  let (isException, t) := t.read v
  let f := interruptFrame isException framePtr
  let ctx := stackPtr
  let entered := fillContext framePtr f ctx (kprintf.run f ctx saved)
  let handled := eoi.run f ctx (invokeChainHandlers chain f ctx entered)
  ⟨f, ctx, entered, handled.run alu (restoreContext L), t⟩

/-- The vectors for which the processor pushes an error code. -/
def errorCodeVectors : List Nat := [8, 10, 11, 12, 13, 14, 17, 21, 29, 30]

/-- What an interrupt brings besides its vector: the stack it is delivered on,
the error code if it has one, the gate's target and the segments it loads. -/
structure Delivery where
  stack : BitVec 64
  errorCode : BitVec 32
  entry : BitVec 64
  cs : BitVec 16
  ss : BitVec 16

/-- The words the processor pushes, in order. -/
def deliveredWords (v : Nat) (d : Delivery) (c : Cpu) : List (BitVec 64) :=
  [c.ss.setWidth 64, c.regs .rsp, c.rflags, c.cs.setWidth 64, c.rip] ++
    if v ∈ errorCodeVectors then [d.errorCode.setWidth 64] else []

/-- The processor delivers vector `v` through an interrupt gate, which clears
the flags TF, IF, NT and RF. -/
def deliver (v : Nat) (d : Delivery) (c : Cpu) : Cpu :=
  let pushed := (deliveredWords v d c).foldl Cpu.pushWord (c.set .rsp d.stack)
  { pushed with rip := d.entry, cs := d.cs, ss := d.ss, rflags := c.rflags &&& ~~~0x14300#64 }

end Chestnut
