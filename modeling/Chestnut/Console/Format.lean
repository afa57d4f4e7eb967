import Chestnut.Console.Vprintf
import Chestnut.Lib.CString
import Chestnut.Lib.Numeral
import Mathlib.Tactic.NormNum

/-!
# What a format stands for

A format is a sequence of literal bytes and directives. `parse` splits a byte
string into them, and says whether it ends inside a directive. `vprintf` prints
the texts of the pieces one after the other; where the format ends inside a
directive it takes the NUL for the letter of that directive and reads on.
-/

namespace Chestnut

open Lib

/-- A literal byte, or a directive: its number of `l`, and its letter. -/
inductive Piece
  | lit (b : BitVec 8)
  | directive (l : Nat) (c : BitVec 8)
  deriving DecidableEq, Repr

namespace Piece

/-- The bytes that spell a piece. -/
def bytes : Piece → List (BitVec 8)
  | .lit b => [b]
  | .directive l c => ascii '%' :: (List.replicate l (ascii 'l') ++ [c])

/-- What can stand in a format. -/
def Valid : Piece → Prop
  | .lit b => b ≠ 0#8 ∧ b ≠ ascii '%'
  | .directive _ c => c ≠ 0#8 ∧ c ≠ ascii 'l'

theorem ne_nul (q : Piece) (h : q.Valid) : ∀ b ∈ q.bytes, b ≠ 0#8 := by
  intro b hb
  cases q with
  | lit c =>
      rw [List.mem_singleton.mp hb]
      exact h.1
  | directive l c =>
      rcases List.mem_cons.mp hb with rfl | hb
      · decide
      rcases List.mem_append.mp hb with hb | hb
      · rw [List.eq_of_mem_replicate hb]
        decide
      · rw [List.mem_singleton.mp hb]
        exact h.1

/-- A letter that prints a number. -/
def Numeric (c : BitVec 8) : Prop := c = ascii 'd' ∨ c = ascii 'u' ∨ c = ascii 'x'

instance (c : BitVec 8) : Decidable (Numeric c) := inferInstanceAs (Decidable (_ ∨ _))

/-- The number of arguments that a piece takes. -/
def slots : Piece → Nat
  | .lit _ => 0
  | .directive _ c => if c = ascii 'c' ∨ c = ascii 's' ∨ Numeric c then 1 else 0

/-- The base of a numeral. -/
def base (c : BitVec 8) : Nat := if c = ascii 'x' then 16 else 10

/-- The text of a piece whose argument is `arg`, a pointer to `str` for the
letter `s`; `long` says which directives take 64 bits. -/
def text (long : Nat → Bool) (arg : BitVec 64) (str : List (BitVec 8)) :
    Piece → List (BitVec 8)
  | .lit b => [b]
  | .directive l c =>
      if c = ascii 'c' then [arg.setWidth 8]
      else if c = ascii 's' then str
      else if Numeric c then
        numeral (base c) (if long l then arg.toNat else arg.toNat % 2 ^ 32)
      else []

end Piece

namespace Format

/-- The pieces of a byte string; with `some l` it begins inside a directive,
behind `l` letters `l`. The second component says where the string ends. -/
def parse : Option Nat → List (BitVec 8) → List Piece × Option Nat
  | e, [] => ([], e)
  | none, b :: bs =>
      if b = ascii '%' then parse (some 0) bs
      else (.lit b :: (parse none bs).1, (parse none bs).2)
  | some l, b :: bs =>
      if b = ascii 'l' then parse (some (l + 1)) bs
      else (.directive l b :: (parse none bs).1, (parse none bs).2)

/-- The format ends inside a directive. -/
def EndsInside (fmt : List (BitVec 8)) : Prop := (parse none fmt).2 ≠ none

instance (fmt : List (BitVec 8)) : Decidable (EndsInside fmt) :=
  inferInstanceAs (Decidable (_ ≠ _))

theorem parse_ls (l k : Nat) {c : BitVec 8} (hc : c ≠ ascii 'l') (bs : List (BitVec 8)) :
    parse (some l) (List.replicate k (ascii 'l') ++ c :: bs) =
      (.directive (l + k) c :: (parse none bs).1, (parse none bs).2) := by
  induction k generalizing l with
  | zero => simp [parse, hc]
  | succ k ih =>
      rw [List.replicate_succ, List.cons_append, parse, if_pos rfl, ih]
      have hsum : l + 1 + k = l + (k + 1) := by omega
      rw [hsum]

/-- Pieces are recovered from the bytes that spell them. -/
theorem parse_append {ps : List Piece} (h : ∀ p ∈ ps, p.Valid) (bs : List (BitVec 8)) :
    parse none (ps.flatMap Piece.bytes ++ bs) = (ps ++ (parse none bs).1, (parse none bs).2) := by
  induction ps with
  | nil => rfl
  | cons p ps ih =>
      obtain ⟨hp, hps⟩ := List.forall_mem_cons.mp h
      cases p with
      | lit b =>
          rw [List.flatMap_cons, Piece.bytes, List.append_assoc, List.singleton_append, parse,
            if_neg hp.2, ih hps]
          rfl
      | directive l c =>
          rw [List.flatMap_cons, Piece.bytes, List.append_assoc, List.cons_append,
            List.append_assoc, List.singleton_append, parse, if_pos rfl, parse_ls 0 l hp.2, ih hps,
            Nat.zero_add]
          rfl

theorem parse_bytes {ps : List Piece} (h : ∀ p ∈ ps, p.Valid) :
    parse none (ps.flatMap Piece.bytes) = (ps, none) := by
  have happ := parse_append h []
  rw [List.append_nil] at happ
  rw [happ]
  exact congrArg (·, none) (List.append_nil ps)

/-- The pieces with the argument slots that they begin at. -/
def slotted : Nat → List Piece → List (Nat × Piece)
  | _, [] => []
  | i, p :: ps => (i, p) :: slotted (i + p.slots) ps

/-- The text of a format. -/
def render (long : Nat → Bool) (args : Nat → BitVec 64) (strs : Nat → List (BitVec 8)) (i : Nat)
    (ps : List Piece) : List (BitVec 8) :=
  (slotted i ps).flatMap fun q => q.2.text long (args q.1) (strs q.1)

/-- The arguments match the pieces: those for the letter `s` are strings. -/
def Matches (m : Bytes) (args : Nat → BitVec 64) (strs : Nat → List (BitVec 8)) (i : Nat)
    (ps : List Piece) : Prop :=
  ∀ j l, (j, Piece.directive l (ascii 's')) ∈ slotted i ps →
    CString m (args j).toNat (strs j)

theorem Matches.tail {m : Bytes} {args : Nat → BitVec 64} {strs : Nat → List (BitVec 8)} {i : Nat}
    {q : Piece} {ps : List Piece} (h : Matches m args strs i (q :: ps)) :
    Matches m args strs (i + q.slots) ps :=
  fun j l hj => h j l (List.mem_cons_of_mem _ hj)

end Format

end Chestnut
