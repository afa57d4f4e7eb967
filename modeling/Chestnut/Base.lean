import Mathlib.Algebra.Group.Int.Defs
import Mathlib.Algebra.Group.Nat.Defs

/-!
# Page arithmetic and kernel faults

The macros of `mm/allocator.h` and `libc/common.h` that every later module
reads. Addresses and counters are natural numbers; a `u64` that may wrap is
written with an explicit remainder.
-/

namespace Chestnut

/-- What stops the kernel in the middle of a call. `panic` disables interrupts
and halts, so nothing after it runs; a page fault finds no handler. -/
inductive Fault
  | nullDeref
  | outOfBounds
  | pageFault
  | panic (msg : String)
  deriving DecidableEq, Repr

/-- `kassert(expr)`: the panic text quotes the asserted expression. -/
def kassert (b : Bool) (expr : String) : Except Fault Unit :=
  if b then .ok () else .error (.panic ("Assertion Error on " ++ expr))

@[simp] theorem kassert_true (expr : String) : kassert true expr = .ok () := rfl

theorem kassert_ok_iff (b : Bool) (expr : String) : kassert b expr = .ok () ↔ b = true := by
  cases b <;> simp [kassert]

def pageShift : Nat := 12
def pageSize : Nat := 4096
def largePageSize : Nat := 2 ^ 21
def hugePageSize : Nat := 2 ^ 30

/-- Values of a `u64`. -/
def u64Size : Nat := 2 ^ 64

/-- `KERN_OFFSET`, the linker's `_virt_base`. -/
def kernOffset : Nat := 0xFFFFFF0000000000

/-- `KERN_MAX_MEMORY`. -/
def kernMaxMemory : Nat := 512 * 2 ^ 30

/-- `PGNUM(addr)`. -/
def pgnum (addr : Nat) : Nat := addr / pageSize

@[simp] theorem pgnum_page (p : Nat) : pgnum (pageSize * p) = p :=
  Nat.mul_div_cancel_left p (by decide)

/-- `PG(addr)`. -/
def pg (addr : Nat) : Nat := pgnum addr * pageSize

/-- The offset inside the page. -/
theorem sub_pg (addr : Nat) : addr - pg addr = addr % pageSize := by
  rw [pg, pgnum, Nat.mul_comm]
  exact (Nat.mod_eq_sub addr pageSize).symm

/-- `PGALIGN(addr)`: for a `u64` it also wraps at `addr = 0`. -/
def pgAlign (addr : Nat) : Nat :=
  let low := (addr + u64Size - 1) % u64Size
  (low / pageSize * pageSize + (pageSize - 1) + 1) % u64Size

/-- How often the body of `for (p = start; p < stop; p += PAGESIZE)` runs. -/
def pageSteps (start stop : Nat) : Nat := (stop - start + (pageSize - 1)) / pageSize

/-- Peel one step off a computation that may fault. -/
theorem bind_ok {ε α β : Type} {x : Except ε α} {f : α → Except ε β} {r : β}
    (h : (x >>= f) = .ok r) : ∃ a, x = .ok a ∧ f a = .ok r := by
  cases x with
  | error e => cases h
  | ok a => exact ⟨a, rfl, h⟩

@[simp] theorem ok_bind {ε α β : Type} (a : α) (f : α → Except ε β) :
    ((Except.ok a : Except ε α) >>= f) = f a := rfl

@[simp] theorem error_bind {ε α β : Type} (e : ε) (f : α → Except ε β) :
    ((Except.error e : Except ε α) >>= f) = Except.error e := rfl

/-- The computation returns and its result passes the test: how a run on a fixed
input is evaluated. -/
def okAnd {ε α : Type} (x : Except ε α) (p : α → Bool) : Bool :=
  match x with
  | .ok a => p a
  | .error _ => false

@[simp] theorem okAnd_ok {ε α : Type} (a : α) (p : α → Bool) :
    okAnd (.ok a : Except ε α) p = p a := rfl

theorem exists_of_okAnd {ε α : Type} {x : Except ε α} {p : α → Bool} (h : okAnd x p = true) :
    ∃ a, x = .ok a ∧ p a = true := by
  cases x with
  | error e => cases h
  | ok a => exact ⟨a, rfl, h⟩

/-- The computation ends in the given fault. -/
def faults {ε α : Type} [DecidableEq ε] (x : Except ε α) (e : ε) : Bool :=
  match x with
  | .ok _ => false
  | .error e' => decide (e' = e)

theorem eq_of_faults {ε α : Type} [DecidableEq ε] {x : Except ε α} {e : ε}
    (h : faults x e = true) : x = .error e := by
  cases x with
  | ok a => cases h
  | error e' => exact congrArg Except.error (of_decide_eq_true h)

end Chestnut
