import Mathlib.Data.BitVec

/-!
# The two interrupt controllers of the PC

The pair of 8259 controllers that `IrqVector::Setup` programs through ports 0x20,
0x21, 0xA0 and 0xA1. A byte with bit 4 on the command port starts the
initialisation; the next bytes on the data port are its remaining words, and only
behind them is the data port the mask again.

## Implementation notes

The commands without bit 4 (ends of interrupts, read requests) are not issued by
the source and are left out. A controller asks for an interrupt as long as one of
its requests is not masked; the order of the requests does not matter here. The
output of the second controller is a request line of the first.
-/

namespace Chestnut

/-- Which word the next byte on the data port is. -/
inductive PicStage
  | icw2
  | icw3
  | icw4
  | mask
  deriving DecidableEq, Repr

structure Pic where
  stage : PicStage
  needsIcw4 : Bool
  single : Bool
  irr : BitVec 8
  imr : BitVec 8
  icw2 : BitVec 8
  icw3 : BitVec 8
  icw4 : BitVec 8
  deriving DecidableEq, Repr

namespace Pic

def command (value : BitVec 8) (p : Pic) : Pic :=
  if value.getLsbD 4 then
    { p with stage := .icw2, needsIcw4 := value.getLsbD 0, single := value.getLsbD 1, imr := 0#8 }
  else p

/-- The stage behind the third word. -/
def stageAfterIcw3 (p : Pic) : PicStage := if p.needsIcw4 then .icw4 else .mask

def data (value : BitVec 8) (p : Pic) : Pic :=
  match p.stage with
  | .icw2 =>
      { p with icw2 := value &&& 0xF8#8, stage := if p.single then p.stageAfterIcw3 else .icw3 }
  | .icw3 => { p with icw3 := value, stage := p.stageAfterIcw3 }
  | .icw4 => { p with icw4 := value, stage := .mask }
  | .mask => { p with imr := value }

/-- Some request is not masked. -/
def int (p : Pic) : Bool := p.irr &&& ~~~p.imr ≠ 0#8

end Pic

structure PicPair where
  first : Pic
  second : Pic
  deriving DecidableEq, Repr

namespace PicPair

def outB (port : BitVec 16) (value : BitVec 8) (p : PicPair) : PicPair :=
  if port = 0x20#16 then { p with first := p.first.command value }
  else if port = 0x21#16 then { p with first := p.first.data value }
  else if port = 0xA0#16 then { p with second := p.second.command value }
  else if port = 0xA1#16 then { p with second := p.second.data value }
  else p

/-- The calls of `OutB` in `Setup`. -/
def setup (p : PicPair) : PicPair :=
  let p := p.outB 0x20#16 0x11#8
  let p := p.outB 0xA0#16 0x11#8
  let p := p.outB 0x21#16 0x20#8
  let p := p.outB 0xA1#16 0x28#8
  let p := p.outB 0x21#16 0x04#8
  let p := p.outB 0xA1#16 0x02#8
  let p := p.outB 0x21#16 0x01#8
  let p := p.outB 0xA1#16 0x01#8
  let p := p.outB 0x21#16 0xFF#8
  p.outB 0xA1#16 0xFF#8

/-- The lines of the pair change: the requests of the two controllers are now these. -/
structure Lines where
  first : BitVec 8
  second : BitVec 8

def request (p : PicPair) (r : Lines) : PicPair where
  first := { p.first with irr := r.first }
  second := { p.second with irr := r.second }

/-- The output to the processor; the second controller is on line 2. -/
def intr (p : PicPair) : Bool :=
  let cascade := if p.second.int then 0x04#8 else 0#8
  { p.first with irr := p.first.irr ||| cascade }.int

/-- Whatever stage the controllers were in, they end behind all four words, with
vectors 0x20 and 0x28 on, and masked. -/
theorem setup_eq (p : PicPair) : p.setup =
    ⟨⟨.mask, true, false, p.first.irr, 0xFF#8, 0x20#8, 0x04#8, 0x01#8⟩,
      ⟨.mask, true, false, p.second.irr, 0xFF#8, 0x28#8, 0x02#8, 0x01#8⟩⟩ := by
  simp [setup, outB, Pic.command, Pic.data, Pic.stageAfterIcw3]

/-- The mask and the words stay whatever the lines do. -/
theorem request_run (p : PicPair) (rs : List Lines) :
    ∃ r₁ r₂, rs.foldl request p =
      ⟨{ p.first with irr := r₁ }, { p.second with irr := r₂ }⟩ := by
  induction rs generalizing p with
  | nil => exact ⟨p.first.irr, p.second.irr, rfl⟩
  | cons r rs ih => exact ih (p.request r)

/-- No line of the pair reaches the processor any more. -/
theorem intr_setup (p : PicPair) (rs : List Lines) : (rs.foldl request p.setup).intr = false := by
  obtain ⟨r₁, r₂, heq⟩ := request_run p.setup rs
  rw [heq, setup_eq]
  simp [intr, Pic.int]

end PicPair

end Chestnut
