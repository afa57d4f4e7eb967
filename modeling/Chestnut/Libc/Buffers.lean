import Chestnut.Libc.Strings

/-!
# Texts in separate buffers

A caller that keeps each text in a buffer of its own sees `strcpy` and
`strcat` as assignments to texts, and the reading functions as functions of
texts. The one assignment that does not end is a text appended to itself.
-/

namespace Chestnut.Libc

open Lib

variable {ι : Type}

/-- Buffers of `cap` bytes that do not overlap. -/
structure Buffers (ι : Type) where
  base : ι → Int
  cap : ι → Nat
  apart : ∀ i j, i ≠ j → base i + cap i ≤ base j ∨ base j + cap j ≤ base i

/-- The calls that write. -/
inductive StringOp (ι : Type)
  | copy (dst src : ι)
  | append (dst src : ι)
  deriving DecidableEq, Repr

/-- The text in each buffer. -/
abbrev Texts (ι : Type) := ι → List (BitVec 8)

namespace StringOp

def dst : StringOp ι → ι
  | copy dst _ => dst
  | append dst _ => dst

/-- The text a call leaves in its destination. -/
def result (t : Texts ι) : StringOp ι → List (BitVec 8)
  | copy _ src => t src
  | append dst src => t dst ++ t src

/-- A text other than the empty one, appended to itself. -/
def Endless (t : Texts ι) : StringOp ι → Prop
  | copy _ _ => False
  | append dst src => dst = src ∧ t dst ≠ []

instance [DecidableEq ι] (t : Texts ι) : (op : StringOp ι) → Decidable (op.Endless t)
  | copy _ _ => inferInstanceAs (Decidable False)
  | append _ _ => inferInstanceAs (Decidable (_ ∧ _))

/-- A call as an assignment to texts; `none` if it does not end. -/
def apply [DecidableEq ι] (t : Texts ι) (op : StringOp ι) : Option (Texts ι) :=
  if op.Endless t then none else some (Function.update t op.dst (op.result t))

end StringOp

namespace Buffers

variable (B : Buffers ι)

/-- A call on the buffers. -/
def exec (op : StringOp ι) (b : Bus) (fuel : Nat) : Option (Except Fault Bus) :=
  match op with
  | .copy dst src => strcpy (B.base dst) (B.base src) b fuel
  | .append dst src => strcat (B.base dst) (B.base src) b fuel

/-- Calls one after another. -/
def run : List (StringOp ι) → Bus → Nat → Option (Except Fault Bus)
  | [], b, _ => some (.ok b)
  | op :: ops, b, fuel => andThen (B.exec op b fuel) fun b' => run ops b' fuel

theorem fuelMono_exec (op : StringOp ι) (b : Bus) : FuelMono (B.exec op b) := by
  cases op with
  | copy dst src => exact fuelMono_strcpy _ _ b
  | append dst src => exact fuelMono_strcat _ _ b

theorem fuelMono_run (ops : List (StringOp ι)) (b : Bus) : FuelMono (B.run ops b) := by
  induction ops generalizing b with
  | nil => exact fuelMono_const _
  | cons op ops ih => exact fuelMono_andThen (B.fuelMono_exec op b) fun b' => ih b'

/-- Every call finds room for its result. -/
def Fit [DecidableEq ι] : List (StringOp ι) → Texts ι → Prop
  | [], _ => True
  | op :: ops, t => (op.result t).length < B.cap op.dst ∧ ∀ t', op.apply t = some t' → Fit ops t'

/-- The memory holds the texts, each in its buffer. -/
structure Represents (b : Bus) (t : Texts ι) : Prop where
  text : ∀ i, CString b.mem (B.base i) (t i)
  room : ∀ i, (t i).length < B.cap i

/-- No byte outside the buffers differs. -/
def Frame (b b' : Bus) : Prop :=
  ∀ x, (∀ i, x < B.base i ∨ B.base i + B.cap i ≤ x) → b'.mem x = b.mem x

variable {B} {b b' : Bus} {t : Texts ι}

/-- Between different buffers, and at the start of one, nothing is written over unread. -/
theorem Represents.keepsEnd (h : B.Represents b t) {i j : ι} {k : Nat} (hk : k < B.cap i)
    (hij : i = j → k = 0) : KeepsEnd (B.base i + k) (B.base j) (t j).length := by
  have hroom := h.room j
  rw [KeepsEnd]
  by_cases heq : i = j
  · have hzero := hij heq
    subst heq
    omega
  · have happart := B.apart i j heq
    omega

theorem Represents.exec_eq_none (h : B.Represents b t) {op : StringOp ι} (hend : op.Endless t)
    (fuel : Nat) : B.exec op b fuel = none := by
  cases op with
  | copy dst src => exact hend.elim
  | append dst src =>
      obtain ⟨rfl, hne⟩ := hend
      have hpos := List.length_pos_iff.mpr hne
      refine strcat_eq_none (h.text dst) (h.text dst) ?_ fuel
      rw [KeepsEnd]
      omega

variable [DecidableEq ι]

/-- A text written inside its buffer, from any place of it on. -/
theorem Represents.write (h : B.Represents b t) {i : ι} {bs : List (BitVec 8)} {first : Int}
    (hw : Written b b' (B.base i) bs first) (hfirst : B.base i ≤ first)
    (hroom : bs.length < B.cap i) :
    B.Represents b' (Function.update t i bs) ∧ B.Frame b b' := by
  refine ⟨⟨fun j => ?_, fun j => ?_⟩, fun x hx => ?_⟩
  · by_cases hj : j = i
    · subst hj
      rw [Function.update_self]
      exact hw.text
    · rw [Function.update_of_ne hj]
      have hroomj := h.room j
      have happart := B.apart j i hj
      exact (h.text j).frame fun x hlo hhi => hw.other x (by omega)
  · by_cases hj : j = i
    · subst hj
      rw [Function.update_self]
      exact hroom
    · rw [Function.update_of_ne hj]
      exact h.room j
  · have hout := hx i
    exact hw.other x (by omega)

theorem Represents.exec (h : B.Represents b t) {op : StringOp ι}
    (hroom : (op.result t).length < B.cap op.dst) (hend : ¬ op.Endless t) :
    Returns (B.exec op b)
      (fun b' => B.Represents b' (Function.update t op.dst (op.result t)) ∧ B.Frame b b')
      fun _ => False := by
  cases op with
  | copy dst src =>
      have hkeeps := h.keepsEnd (j := src) (Nat.zero_lt_of_lt (h.room dst)) fun _ => rfl
      rw [Nat.cast_zero, Int.add_zero] at hkeeps
      refine (returns_strcpy (h.text src) hkeeps).imp (fun b' hw => ?_) fun _ hf => hf
      exact h.write hw (Int.le_refl _) hroom
  | append dst src =>
      have hself : dst = src → (t dst).length = 0 := fun heq =>
        List.length_eq_zero_iff.mpr (not_not.mp fun hne => hend ⟨heq, hne⟩)
      refine (returns_strcat (h.text dst) (h.text src) (h.keepsEnd (h.room dst) hself)).imp
        (fun b' hw => ?_) fun _ hf => hf
      exact h.write hw (Int.le_add_of_nonneg_right (Int.natCast_nonneg _)) hroom

/-- What the reading functions say of the texts. -/
structure Reads (B : Buffers ι) (m : Bytes) (t : Texts ι) : Prop where
  strlen : ∀ i, ∃ n, ∀ fuel ≥ n, Libc.strlen m (B.base i) fuel = some (.ok (t i).length)
  strcmp : ∀ i j, ∃ n v, (∀ fuel ≥ n, Libc.strcmp m (B.base i) (B.base j) fuel = some (.ok v)) ∧
    (v < 0 ↔ t i < t j) ∧ (v = 0 ↔ t i = t j)
  strncmp : ∀ i j len, Libc.strncmp m (B.base i) (B.base j) len = 0 ↔
    (t i).take len = (t j).take len
  memcmp : ∀ i j len, len ≤ (t i).length → len ≤ (t j).length →
    (Libc.memcmp m (B.base i) (B.base j) len = 0 ↔ (t i).take len = (t j).take len)
  strchr : ∀ i ch, ∃ n, ∀ fuel ≥ n, Libc.strchr m ch fuel (B.base i) =
    some (((t i).findIdx? (· == ch)).map fun k : Nat => B.base i + k)

omit [DecidableEq ι] in
theorem Represents.reads (h : B.Represents b t) : B.Reads b.mem t where
  strlen i := by
    obtain ⟨n, hn⟩ := (returns_strlen (h.text i)).eventually (fuelMono_strlen _ _)
    refine ⟨n, fun fuel hfuel => ?_⟩
    obtain ⟨r, hr, hm⟩ := hn fuel hfuel
    rw [hr, hm.eq_ok]
  strcmp i j := by
    obtain ⟨n, hn⟩ := (returns_strcmp (h.text i) (h.text j)).eventually (fuelMono_strcmp _ _ _)
    refine ⟨n, firstDiff (t i) (t j), fun fuel hfuel => ?_, firstDiff_neg_iff (h.text j).text,
      firstDiff_eq_zero_iff (h.text i).text (h.text j).text⟩
    obtain ⟨r, hr, hm⟩ := hn fuel hfuel
    rw [hr, hm.eq_ok]
  strncmp i j len := by
    rw [strncmp_eq (h.text i) (h.text j)]
    exact firstDiff_eq_zero_iff (fun hm => (h.text i).text (List.mem_of_mem_take hm))
      fun hm => (h.text j).text (List.mem_of_mem_take hm)
  memcmp i j len hi hj := by
    have hlen : ((t i).take len).length = len := List.length_take_of_le hi
    have hcmp := memcmp_eq (hlen.trans (List.length_take_of_le hj).symm)
      ((h.text i).holds_take len) ((h.text j).holds_take len)
    rw [hlen] at hcmp
    rw [hcmp]
    exact firstDiff_eq_zero_iff (fun hm => (h.text i).text (List.mem_of_mem_take hm))
      fun hm => (h.text j).text (List.mem_of_mem_take hm)
  strchr i ch := ⟨(t i).length + 1, fun _ hfuel => strchr_eq (h.text i) ch hfuel⟩

/-! ### Runs -/

/-- Calls that end leave the memory with the texts of the assignments. -/
theorem Represents.run (h : B.Represents b t) {ops : List (StringOp ι)} (hfit : B.Fit ops t)
    {t' : Texts ι} (ht : ops.foldlM StringOp.apply t = some t') :
    Returns (B.run ops b) (fun b' => B.Represents b' t' ∧ B.Frame b b') fun _ => False := by
  induction ops generalizing b t with
  | nil =>
      cases ht
      exact returns_const (meets_ok.mpr ⟨h, fun _ _ => rfl⟩)
  | cons op ops ih =>
      rw [List.foldlM_cons, Option.bind_eq_bind, Option.bind_eq_some_iff] at ht
      obtain ⟨t₁, happly, hrest⟩ := ht
      have hend : ¬ op.Endless t := fun hend => by
        rw [StringOp.apply, if_pos hend] at happly
        cases happly
      have hfit₁ := hfit.2 t₁ happly
      rw [StringOp.apply, if_neg hend] at happly
      cases happly
      refine (h.exec hfit.1 hend).andThen (B.fuelMono_exec op b)
        (fun b' => B.fuelMono_run ops b') fun b₁ hb₁ => ?_
      obtain ⟨hrep, hframe⟩ := hb₁
      refine (ih hrep hfit₁ hrest).imp (fun b' hb' => ⟨hb'.1, fun x hx => ?_⟩) fun _ hf => hf
      exact (hb'.2 x hx).trans (hframe x hx)

/-- A call that does not end is reached, and the run does not end either. -/
theorem Represents.run_eq_none (h : B.Represents b t) {ops : List (StringOp ι)}
    (hfit : B.Fit ops t) (ht : ops.foldlM StringOp.apply t = none) (fuel : Nat) :
    B.run ops b fuel = none := by
  induction ops generalizing b t with
  | nil => cases ht
  | cons op ops ih =>
      rw [Buffers.run]
      by_cases hend : op.Endless t
      · rw [h.exec_eq_none hend]
        rfl
      · have happly : op.apply t = some (Function.update t op.dst (op.result t)) := if_neg hend
        rw [List.foldlM_cons, happly] at ht
        cases hrun : B.exec op b fuel with
        | none => rfl
        | some r =>
            have hmeets := (h.exec hfit.1 hend).meets (B.fuelMono_exec op b) hrun
            cases r with
            | error e => exact (meets_error.mp hmeets).elim
            | ok b₁ =>
                rw [andThen_ok]
                exact ih (meets_ok.mp hmeets).1 (hfit.2 _ happly) ht

/-- Calls of the string functions on separate buffers are assignments to texts: a run ends
exactly if the assignments do, and then memory holds their texts, reads as they do, and is
otherwise unchanged. -/
theorem strings_of_run (B : Buffers ι) (b : Bus) (t : Texts ι) (ops : List (StringOp ι))
    (h : B.Represents b t) (hfit : B.Fit ops t) :
    match ops.foldlM StringOp.apply t with
    | none => ∀ fuel, B.run ops b fuel = none
    | some t' => ∃ b', (∃ n, ∀ fuel ≥ n, B.run ops b fuel = some (.ok b')) ∧
        B.Represents b' t' ∧ B.Reads b'.mem t' ∧ B.Frame b b' := by
  cases ht : ops.foldlM StringOp.apply t with
  | none => exact h.run_eq_none hfit ht
  | some t' =>
      obtain ⟨n, r, hr, hmeets⟩ := h.run hfit ht
      cases r with
      | error e => exact (meets_error.mp hmeets).elim
      | ok b' =>
          obtain ⟨hrep, hframe⟩ := meets_ok.mp hmeets
          exact ⟨b', ⟨n, fun fuel hfuel => B.fuelMono_run ops b n fuel _ hfuel hr⟩, hrep,
            hrep.reads, hframe⟩

/-! ### Two buffers -/

/-- Eight bytes at 0 and eight at 16. -/
def pair : Buffers Bool where
  base i := if i then 16 else 0
  cap _ := 8
  apart i j hij := by cases i <;> cases j <;> simp at hij ⊢

def pairTexts : Texts Bool
  | false => [0x61#8]
  | true => [0x62#8, 0x63#8]

def pairMemory : Bus where
  mem x := if x = 0 then 0x61#8 else if x = 16 then 0x62#8 else if x = 17 then 0x63#8 else 0#8

theorem represents_pair : pair.Represents pairMemory pairTexts where
  text i := by
    cases i with
    | false => exact CString.cons_iff.mpr ⟨rfl, by decide, CString.nil_iff.mpr rfl⟩
    | true =>
        exact CString.cons_iff.mpr ⟨rfl, by decide,
          CString.cons_iff.mpr ⟨rfl, by decide, CString.nil_iff.mpr rfl⟩⟩
  room i := by cases i <;> decide

/-- "a" and "bc" are joined and copied back; "a" appended to itself does not end. -/
theorem strings_of_run_pair :
    (∃ b', (∃ n, ∀ fuel ≥ n, pair.run [.append false true, .copy true false] pairMemory fuel =
      some (.ok b')) ∧ pair.Represents b' fun _ => [0x61#8, 0x62#8, 0x63#8]) ∧
    ∀ fuel, pair.run [.append false false] pairMemory fuel = none := by
  constructor
  · have hfit : pair.Fit [.append false true, .copy true false] pairTexts := by
      refine ⟨by decide, fun t' ht' => ⟨?_, fun _ _ => trivial⟩⟩
      cases ht'
      decide
    have hrun := strings_of_run pair pairMemory pairTexts _ represents_pair hfit
    obtain ⟨b', hb', hrep, -⟩ := hrun
    refine ⟨b', hb', ?_⟩
    convert hrep using 1
    funext i
    cases i <;> rfl
  · exact strings_of_run pair pairMemory pairTexts [.append false false] represents_pair
      ⟨by decide, fun _ _ => trivial⟩

end Buffers

end Chestnut.Libc
