import Chestnut.Base
import Chestnut.Lib.Bytes

/-!
# Formatted output

`Console::vprintf` as a machine that takes one step for each character it
looks at. Its program points are the head of the outer loop, the label
`nextfmt` and the loop over a string argument; a number is printed in one step.

## Implementation notes

Each argument of the calling convention fills one slot of 64 bits, of which an
`int` uses the low half. `out` is the sequence of bytes passed to `WriteByte`.
`reads` is a history variable: the addresses read through `fmt`, which the
program does not keep. `l` is an `int` and wraps as a word of 32 bits. The array
`buf` has 32 bytes; a store behind them faults.
-/

namespace Chestnut

open Lib

def ascii (c : Char) : BitVec 8 := BitVec.ofNat 8 c.toNat

namespace Console

/-- Where `vprintf` is. -/
inductive Point
  | next
  | nextfmt
  | string (s : Int)
  | done
  deriving DecidableEq, Repr

/-- The variables of `vprintf`. -/
structure Printf where
  point : Point
  fmt : Int
  l : BitVec 32
  ap : Nat
  out : List (BitVec 8)
  reads : List Int
  deriving DecidableEq, Repr

/-- The length of `buf`. -/
def bufSize : Nat := 32

def hex : List (BitVec 8) := "0123456789abcdef".toList.map ascii

/-- The `do … while` loops that fill `buf` with digits from the lowest on; the
result is `s` behind the last digit, and `buf`. -/
def digitLoop (digit : BitVec 64 → BitVec 8) (rest : BitVec 64 → BitVec 64) (u : BitVec 64)
    (s : Nat) (buf : Nat → BitVec 8) : Except Fault (Nat × (Nat → BitVec 8)) :=
  if s < bufSize then
    let buf := Function.update buf s (digit u)
    let u := rest u
    if u ≠ 0#64 then digitLoop digit rest u (s + 1) buf else .ok (s + 1, buf)
  else .error .outOfBounds
termination_by bufSize - s

def decDigit (u : BitVec 64) : BitVec 8 := ascii '0' + (u % 10#64).setWidth 8

def hexDigit (u : BitVec 64) : BitVec 8 := hex.getD (u &&& 0xf#64).toNat 0#8

/-- `while (--s >= buf) WriteByte(*s)`. -/
def flush (buf : Nat → BitVec 8) : (s : Nat) → List (BitVec 8) → List (BitVec 8)
  | 0, out => out
  | s + 1, out => flush buf s (out ++ [buf s])

/-- The loop that fits the conversion. -/
def digits (c : BitVec 8) (u : BitVec 64) : Except Fault (Nat × (Nat → BitVec 8)) :=
  if c = ascii 'd' ∨ c = ascii 'u' then digitLoop decDigit (fun u => u / 10#64) u 0 fun _ => 0#8
  else digitLoop hexDigit (fun u => u >>> 4) u 0 fun _ => 0#8

/-- The numeral of `u`, behind the `switch` over `l`. -/
def printNumber (c : BitVec 8) (u : BitVec 64) (out : List (BitVec 8)) :
    Except Fault (List (BitVec 8)) := do
  let (s, buf) ← digits c u
  return flush buf s out

/-- The `switch` over `l`. -/
def number (l : BitVec 32) (arg : BitVec 64) : BitVec 64 :=
  if l = 2#32 then arg
  else if l = 1#32 then arg
  else (arg.setWidth 32).setWidth 64

/-- The `switch` over `c`. -/
def convert (args : Nat → BitVec 64) (c : BitVec 8) (st : Printf) : Except Fault Printf :=
  if c = ascii 'l' then .ok { st with l := st.l + 1#32 }
  else if c = ascii 'c' then
    .ok { st with out := st.out ++ [(args st.ap).setWidth 8], ap := st.ap + 1, point := .next }
  else if c = ascii 's' then
    .ok { st with ap := st.ap + 1, point := .string (args st.ap).toNat }
  else if c = ascii 'd' ∨ c = ascii 'u' ∨ c = ascii 'x' then do
    let out ← printNumber c (number st.l (args st.ap)) st.out
    return { st with out := out, ap := st.ap + 1, point := .next }
  else
    -- no case of the `switch`, the NUL among them
    .ok { st with point := .next }

/-- `c = *fmt++`. -/
def Printf.advance (st : Printf) : Printf :=
  { st with fmt := st.fmt + 1, reads := st.fmt :: st.reads }

/-- The head of the outer loop. -/
def literal (c : BitVec 8) (st : Printf) : Printf :=
  if c = 0#8 then { st with point := .done }
  else if c ≠ ascii '%' then { st with out := st.out ++ [c] }
  else { st with l := 0#32, point := .nextfmt }

/-- A turn of the loop over a string argument. -/
def string (m : Bytes) (s : Int) (st : Printf) : Printf :=
  if m s = 0#8 then { st with point := .next }
  else { st with out := st.out ++ [m s], point := .string (s + 1) }

/-- One step of `vprintf`. -/
def step (m : Bytes) (args : Nat → BitVec 64) (st : Printf) : Except Fault Printf :=
  match st.point with
  | .next => .ok (literal (m st.fmt) st.advance)
  | .nextfmt => convert args (m st.fmt) st.advance
  | .string s => .ok (string m s st)
  | .done => .ok st

/-- `n` steps. -/
def run (m : Bytes) (args : Nat → BitVec 64) : Nat → Printf → Except Fault Printf
  | 0, st => .ok st
  | n + 1, st => do
      let st ← step m args st
      run m args n st

/-- The start of `vprintf(fmt, ap)`; `l` is not initialised. -/
def enter (fmt : Int) (l : BitVec 32) : Printf := ⟨.next, fmt, l, 0, [], []⟩

end Console

end Chestnut
