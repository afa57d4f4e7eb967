import Mathlib.Data.BitVec

/-!
# The serial port

`SerialPort` of `console.h` and `console.cc` over a 16550 UART behind eight I/O
ports. The divisor latch shares its two ports with the transmitter and with the
interrupt enable register; bit 7 of the line control register says which of
them an access reaches.

## Implementation notes

`sent` is what has been handed to the transmitter: the source polls no status
and leaves the pace to the device. The receiver and the status registers, which
nothing here reads, are left out. A port number is an `int` that `OutB` and
`InB` cut to 16 bits.
-/

namespace Chestnut

/-- The registers of the UART that can be written, and the transmitted bytes. -/
structure Uart where
  dll : BitVec 8
  dlm : BitVec 8
  ier : BitVec 8
  fcr : BitVec 8
  lcr : BitVec 8
  mcr : BitVec 8
  sent : List (BitVec 8)
  deriving DecidableEq

namespace Uart

/-- Bit 7 of the line control register. -/
def dlab (u : Uart) : Bool := u.lcr.getLsbD 7

def divisor (u : Uart) : BitVec 16 := u.dlm ++ u.dll

def store (offset : Nat) (value : BitVec 8) (u : Uart) : Uart :=
  match offset with
  | 0 => if u.dlab then { u with dll := value } else { u with sent := u.sent ++ [value] }
  | 1 => if u.dlab then { u with dlm := value } else { u with ier := value &&& 0x0F#8 }
  | 2 => { u with fcr := value }
  | 3 => { u with lcr := value }
  | 4 => { u with mcr := value &&& 0x1F#8 }
  | _ => u

def load (offset : Nat) (u : Uart) : BitVec 8 :=
  match offset with
  | 0 => if u.dlab then u.dll else 0#8
  | 1 => if u.dlab then u.dlm else u.ier
  | 3 => u.lcr
  | 4 => u.mcr
  | _ => 0#8

end Uart

/-- A UART and the first of its ports. -/
structure SerialLine where
  base : BitVec 16
  uart : Uart
  deriving DecidableEq

namespace SerialLine

def outB (port : BitVec 16) (value : BitVec 8) (d : SerialLine) : SerialLine :=
  if (port - d.base).toNat < 8 then { d with uart := d.uart.store (port - d.base).toNat value }
  else d

def inB (port : BitVec 16) (d : SerialLine) : BitVec 8 :=
  if (port - d.base).toNat < 8 then d.uart.load (port - d.base).toNat else 0xFF#8

end SerialLine

/-- `SerialPort::InterruptMode`. -/
inductive InterruptMode
  | dataAvailable
  | transmitterEmpty
  | error
  | statusChange
  deriving DecidableEq, Repr

def InterruptMode.code : InterruptMode → Nat
  | .dataAvailable => 0
  | .transmitterEmpty => 1
  | .error => 2
  | .statusChange => 3

/-- The member `port`. -/
structure SerialPort where
  port : BitVec 32
  deriving DecidableEq

namespace SerialPort

/-- `OutB(port + k, value)`. -/
def out (p : SerialPort) (k : BitVec 32) (value : BitVec 8) (d : SerialLine) : SerialLine :=
  d.outB ((p.port + k).setWidth 16) value

/-- The constructor. -/
def construct (p : SerialPort) (d : SerialLine) : SerialLine :=
  let d := p.out 1#32 0x00#8 d
  let d := p.out 3#32 0x80#8 d
  let d := p.out 0#32 0x03#8 d
  let d := p.out 1#32 0x00#8 d
  let d := p.out 3#32 0x03#8 d
  let d := p.out 2#32 0xC7#8 d
  p.out 4#32 0x0B#8 d

/-- `SerialPort()`: COM1. -/
def com1 : SerialPort := ⟨0x03F8#32⟩

def writeByte (p : SerialPort) (a : BitVec 8) (d : SerialLine) : SerialLine := p.out 0#32 a d

def enableInterrupt (p : SerialPort) (mode : InterruptMode) (d : SerialLine) : SerialLine :=
  let mask := 1#8 <<< mode.code
  let old := d.inB ((p.port + 1#32).setWidth 16)
  p.out 1#32 (old ||| mask) d

def disableInterrupt (p : SerialPort) (mode : InterruptMode) (d : SerialLine) : SerialLine :=
  let mask := 1#8 <<< mode.code
  let old := d.inB ((p.port + 1#32).setWidth 16)
  p.out 1#32 (old &&& ~~~mask) d

end SerialPort

inductive SerialOp
  | write (a : BitVec 8)
  | enable (mode : InterruptMode)
  | disable (mode : InterruptMode)

namespace SerialOp

def exec (p : SerialPort) (d : SerialLine) : SerialOp → SerialLine
  | write a => p.writeByte a d
  | enable mode => p.enableInterrupt mode d
  | disable mode => p.disableInterrupt mode d

/-- The bytes of the run, in order. -/
def written (ops : List SerialOp) : List (BitVec 8) :=
  ops.flatMap fun
    | write a => [a]
    | _ => []

/-- Whether a mode is on behind a call. -/
def switch (mode : InterruptMode) (on : Bool) : SerialOp → Bool
  | write _ => on
  | enable mode' => if mode' = mode then true else on
  | disable mode' => if mode' = mode then false else on

end SerialOp

namespace SerialPort

variable {p : SerialPort} {d d₀ : SerialLine}

/-- The port object is about this UART. -/
def Drives (p : SerialPort) (d : SerialLine) : Prop := p.port.setWidth 16 = d.base

theorem port_sub (h : p.Drives d) {k : BitVec 32} (hk : k.toNat < 8) :
    ((p.port + k).setWidth 16 - d.base).toNat = k.toNat := by
  rw [← h]
  bv_omega

theorem out_eq (h : p.Drives d) {k : BitVec 32} (hk : k.toNat < 8) (value : BitVec 8) :
    p.out k value d = { d with uart := d.uart.store k.toNat value } := by
  rw [out, SerialLine.outB, port_sub h hk, if_pos hk]

theorem inB_eq (h : p.Drives d) {k : BitVec 32} (hk : k.toNat < 8) :
    d.inB ((p.port + k).setWidth 16) = d.uart.load k.toNat := by
  rw [SerialLine.inB, port_sub h hk, if_pos hk]

/-- The line as the constructor leaves it, but for what is sent and which
interrupts are on. -/
structure Ready (p : SerialPort) (sent : List (BitVec 8)) (on : InterruptMode → Bool)
    (d : SerialLine) : Prop where
  drives : p.Drives d
  divisor_eq : d.uart.divisor = 3#16
  lcr_eq : d.uart.lcr = 0x03#8
  fcr_eq : d.uart.fcr = 0xC7#8
  mcr_eq : d.uart.mcr = 0x0B#8
  sent_eq : d.uart.sent = sent
  ier_eq : ∀ mode, d.uart.ier.getLsbD mode.code = on mode

variable {sent : List (BitVec 8)} {on : InterruptMode → Bool}

theorem Ready.dlab_eq (R : Ready p sent on d) : d.uart.dlab = false := by
  rw [Uart.dlab, R.lcr_eq]
  rfl

/-- If the divisor latch was open, the first store misses the interrupt enable
register. -/
theorem construct_ready (h : p.Drives d) :
    Ready p d.uart.sent (fun mode => d.uart.dlab && d.uart.ier.getLsbD mode.code)
      (p.construct d) := by
  have hdrives : ∀ u, p.Drives { d with uart := u } := fun _ => h
  have heq : p.construct d = { d with uart :=
      { (d.uart.store 1 0x00#8) with
        dll := 0x03#8, dlm := 0x00#8, lcr := 0x03#8, fcr := 0xC7#8, mcr := 0x0B#8 } } := by
    rw [construct]
    simp only [out_eq h (k := 1#32) (by decide), out_eq (hdrives _) (k := 0#32) (by decide),
      out_eq (hdrives _) (k := 1#32) (by decide), out_eq (hdrives _) (k := 2#32) (by decide),
      out_eq (hdrives _) (k := 3#32) (by decide), out_eq (hdrives _) (k := 4#32) (by decide)]
    cases hl : d.uart.lcr.getLsbD 7 <;> simp [Uart.store, Uart.dlab, hl]
  rw [heq]
  refine ⟨h, by simp [Uart.divisor], rfl, rfl, rfl, ?_, fun mode => ?_⟩
  · cases hl : d.uart.dlab <;> simp [Uart.store, hl]
  · cases hl : d.uart.dlab <;> simp [Uart.store, hl]

/-- The bits of the interrupt enable register after one of them was stored. -/
theorem getLsbD_code (v : BitVec 8) (mode mode' : InterruptMode) :
    ((v ||| 1#8 <<< mode'.code) &&& 0x0F#8).getLsbD mode.code =
        (if mode' = mode then true else v.getLsbD mode.code) ∧
      ((v &&& ~~~(1#8 <<< mode'.code)) &&& 0x0F#8).getLsbD mode.code =
        (if mode' = mode then false else v.getLsbD mode.code) := by
  cases mode <;> cases mode' <;> simp [InterruptMode.code]

theorem Ready.exec (R : Ready p sent on d) (op : SerialOp) :
    Ready p (sent ++ SerialOp.written [op]) (fun mode => op.switch mode (on mode))
      (op.exec p d) := by
  have hlatch := R.dlab_eq
  cases op with
  | write a =>
      rw [SerialOp.exec, writeByte, out_eq R.drives (by decide)]
      simp only [Uart.store, hlatch, BitVec.toNat_ofNat]
      exact ⟨R.drives, R.divisor_eq, R.lcr_eq, R.fcr_eq, R.mcr_eq,
        congrArg (· ++ [a]) R.sent_eq, R.ier_eq⟩
  | enable mode' =>
      rw [SerialOp.exec, enableInterrupt, inB_eq R.drives (by decide),
        out_eq R.drives (by decide)]
      simp only [Uart.store, Uart.load, hlatch, BitVec.toNat_ofNat]
      refine ⟨R.drives, R.divisor_eq, R.lcr_eq, R.fcr_eq, R.mcr_eq,
        R.sent_eq.trans (List.append_nil _).symm, fun mode => ?_⟩
      rw [SerialOp.switch, ← R.ier_eq mode]
      exact (getLsbD_code d.uart.ier mode mode').1
  | disable mode' =>
      rw [SerialOp.exec, disableInterrupt, inB_eq R.drives (by decide),
        out_eq R.drives (by decide)]
      simp only [Uart.store, Uart.load, hlatch, BitVec.toNat_ofNat]
      refine ⟨R.drives, R.divisor_eq, R.lcr_eq, R.fcr_eq, R.mcr_eq,
        R.sent_eq.trans (List.append_nil _).symm, fun mode => ?_⟩
      rw [SerialOp.switch, ← R.ier_eq mode]
      exact (getLsbD_code d.uart.ier mode mode').2

theorem Ready.run (R : Ready p sent on d) (ops : List SerialOp) :
    Ready p (sent ++ SerialOp.written ops)
      (fun mode => ops.foldl (fun b op => op.switch mode b) (on mode))
      (ops.foldl (SerialOp.exec p) d) := by
  induction ops generalizing sent on d with
  | nil =>
      rw [SerialOp.written, List.flatMap_nil, List.append_nil]
      exact R
  | cons op ops ih =>
      have hrest := ih (R.exec op)
      rw [List.append_assoc, SerialOp.written, SerialOp.written, ← List.flatMap_append] at hrest
      exact hrest

/-- Over every run of calls on a port just constructed, whatever the UART was
like: it keeps 38400 baud, eight bits and no parity, it has sent exactly the
bytes written, in order, and an interrupt is on exactly if the last call about it
enabled it. Without such a call it is off, unless the divisor latch was open and
it was on before. -/
theorem serial_of_run (h : p.Drives d) (ops : List SerialOp) :
    Ready p (d.uart.sent ++ SerialOp.written ops)
      (fun mode => ops.foldl (fun b op => op.switch mode b)
        (d.uart.dlab && d.uart.ier.getLsbD mode.code))
      (ops.foldl (SerialOp.exec p) (p.construct d)) :=
  (construct_ready h).run ops

/-- COM1 of a machine whose firmware left the divisor latch open and all
interrupts on. -/
theorem serial_of_run_com1 :
    ∃ d, Ready com1 [0x41#8, 0x42#8]
      (fun mode => mode = .dataAvailable ∨ mode = .error ∨ mode = .statusChange) d := by
  have hrun := serial_of_run (p := com1) (d := ⟨0x3F8#16, ⟨1, 0, 0x0F#8, 0, 0x80#8, 0, []⟩⟩) rfl
    [.write 0x41#8, .disable .transmitterEmpty, .disable .error, .write 0x42#8, .enable .error]
  refine ⟨_, hrun.drives, hrun.divisor_eq, hrun.lcr_eq, hrun.fcr_eq, hrun.mcr_eq, hrun.sent_eq,
    fun mode => (hrun.ier_eq mode).trans ?_⟩
  cases mode <;> rfl

end SerialPort

end Chestnut
