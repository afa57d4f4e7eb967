import Chestnut.Base
import Chestnut.Lib.CString
import Chestnut.Lib.Copy
import Chestnut.Lib.Loop
import Mathlib.Logic.Function.Basic

/-!
# The string functions of the library

`strlen`, `strcmp`, `strncmp`, `memcmp` and `strchr` read the text as a list
would be read. `strcpy` and `strcat` copy upwards and look for the end of the
source while they write, so they end exactly if they do not write over the
zero byte they are looking for. Over buffers that do not overlap, any sequence
of calls whose results fit is a sequence of assignments to texts.
-/

namespace Chestnut.Libc

open Lib

/-! ### The functions -/

/-- `memcmp(b1, b2, len)`; the bytes are unsigned. -/
def memcmp (m : Bytes) : Int → Int → Nat → Int
  | _, _, 0 => 0
  | p1, p2, len + 1 =>
      if m p1 ≠ m p2 then (m p1).toNat - (m p2).toNat else memcmp m (p1 + 1) (p2 + 1) len

/-- `*s1 == *s2 && *s1 != '\0'` -/
def sameChars (m : Bytes) (p : Int × Int) : Bool := m p.1 = m p.2 ∧ m p.1 ≠ 0#8

/-- `strcmp(s1, s2)`. -/
def strcmp (m : Bytes) (s1 s2 : Int) (fuel : Nat) : Option (Except Fault Int) :=
  andThen (whileLoop (sameChars m) (pureBody fun p => (p.1 + 1, p.2 + 1)) fuel (s1, s2))
    fun p => some (.ok ((m p.1).toNat - (m p.2).toNat))

/-- `strncmp(s1, s2, len)`; the loop counts `len` down. -/
def strncmp (m : Bytes) : Int → Int → Nat → Int
  | _, _, 0 => 0
  | s1, s2, len + 1 =>
      if sameChars m (s1, s2) then strncmp m (s1 + 1) (s2 + 1) len
      else (m s1).toNat - (m s2).toNat

/-- The pointers of a copy and the memory it writes. -/
structure CopyState where
  dst : Int
  src : Int
  bus : Bus

def CopyState.more (st : CopyState) : Bool := st.bus.mem st.src ≠ 0#8

/-- `*dst++ = *src++` -/
def CopyState.advance (st : CopyState) : CopyState :=
  ⟨st.dst + 1, st.src + 1, st.bus.copyByte st.dst st.src⟩

/-- `strcpy(dst, src)`. -/
def strcpy (dst src : Int) (b : Bus) (fuel : Nat) : Option (Except Fault Bus) :=
  andThen (whileLoop CopyState.more (pureBody CopyState.advance) fuel ⟨dst, src, b⟩)
    fun st => some (.ok (st.bus.store st.dst 0#8))

def notEnd (m : Bytes) (s : Int) : Bool := m s ≠ 0#8

/-- `strcat(dst, src)`: behind the first loop stands the text of `strcpy`. -/
def strcat (dst src : Int) (b : Bus) (fuel : Nat) : Option (Except Fault Bus) :=
  andThen (whileLoop (notEnd b.mem) (pureBody (· + 1)) fuel dst) fun e => strcpy e src b fuel

/-- `strchr(s, ch)`; the inner `none` is `NULL`. -/
def strchr (m : Bytes) (ch : BitVec 8) : Nat → Int → Option (Option Int)
  | 0, _ => none
  | fuel + 1, s =>
      if m s = 0#8 then some none
      else if m s = ch then some (some s)
      else strchr m ch fuel (s + 1)

/-- `strlen(s)`: the pointer and `len`. -/
def strlen (m : Bytes) (s : Int) (fuel : Nat) : Option (Except Fault Nat) :=
  andThen (whileLoop (fun p : Int × Nat => notEnd m p.1) (pureBody fun p => (p.1 + 1, p.2 + 1))
    fuel (s, 0)) fun p => some (.ok p.2)

theorem fuelMono_strlen (m : Bytes) (s : Int) : FuelMono (strlen m s) :=
  fuelMono_andThen (whileLoop_mono (fuelMono_pureBody _) _) fun _ => fuelMono_const _

theorem fuelMono_strcmp (m : Bytes) (s1 s2 : Int) : FuelMono (strcmp m s1 s2) :=
  fuelMono_andThen (whileLoop_mono (fuelMono_pureBody _) _) fun _ => fuelMono_const _

theorem fuelMono_strcpy (dst src : Int) (b : Bus) : FuelMono (strcpy dst src b) :=
  fuelMono_andThen (whileLoop_mono (fuelMono_pureBody _) _) fun _ => fuelMono_const _

theorem fuelMono_strcat (dst src : Int) (b : Bus) : FuelMono (strcat dst src b) :=
  fuelMono_andThen (whileLoop_mono (fuelMono_pureBody _) _) fun e => fuelMono_strcpy e src b

/-! ### Reading -/

section Read

variable {m : Bytes} {s s1 s2 : Int} {bs cs : List (BitVec 8)}

/-- The walk to the end of a text, whatever is counted on the way. -/
theorem settles_strlen (h : CString m s bs) (len : Nat) :
    Settles (fun p : Int × Nat => notEnd m p.1) (pureBody fun p => (p.1 + 1, p.2 + 1)) (s, len)
      (fun p => p.2 = len + bs.length) fun _ : Fault => False := by
  induction bs generalizing s len with
  | nil =>
      refine .done ?_ rfl
      simp [notEnd, CString.nil_iff.mp h]
  | cons b bs ih =>
      obtain ⟨hb, hne, hrest⟩ := CString.cons_iff.mp h
      refine .turn (by simp [notEnd, hb, hne]) (returns_const (meets_ok.mpr ?_))
      rw [List.length_cons, Nat.add_comm bs.length 1, ← Nat.add_assoc]
      exact ih hrest (len + 1)

theorem returns_strlen (h : CString m s bs) :
    Returns (strlen m s) (· = bs.length) fun _ => False := by
  refine ((settles_strlen h 0).returns (fuelMono_pureBody _)).andThen
    (whileLoop_mono (fuelMono_pureBody _) _) (fun _ => fuelMono_const _) fun p hp => ?_
  exact returns_const (meets_ok.mpr (hp.trans (Nat.zero_add _)))

theorem settles_strcmp (h1 : CString m s1 bs) (h2 : CString m s2 cs) :
    Settles (sameChars m) (pureBody fun p => (p.1 + 1, p.2 + 1)) (s1, s2)
      (fun p => ((m p.1).toNat : Int) - (m p.2).toNat = firstDiff bs cs)
      fun _ : Fault => False := by
  induction bs generalizing s1 s2 cs with
  | nil =>
      have hb := CString.nil_iff.mp h1
      refine .done (by simp [sameChars, hb]) ?_
      cases cs with
      | nil => simp [hb, CString.nil_iff.mp h2, firstDiff]
      | cons c cs => simp [hb, (CString.cons_iff.mp h2).1, firstDiff]
  | cons b bs ih =>
      obtain ⟨hb, hne, hrest⟩ := CString.cons_iff.mp h1
      cases cs with
      | nil =>
          have hc := CString.nil_iff.mp h2
          refine .done (by simp [sameChars, hb, hc, hne]) ?_
          simp [hb, hc, firstDiff]
      | cons c cs =>
          obtain ⟨hc, -, hrest2⟩ := CString.cons_iff.mp h2
          rw [firstDiff]
          by_cases hbc : b = c
          · rw [if_pos hbc]
            refine .turn (by simp [sameChars, hb, hc, hbc, hbc ▸ hne]) ?_
            exact returns_const (meets_ok.mpr (ih hrest hrest2))
          · rw [if_neg hbc]
            exact .done (by simp [sameChars, hb, hc, hbc]) (by simp [hb, hc])

theorem returns_strcmp (h1 : CString m s1 bs) (h2 : CString m s2 cs) :
    Returns (strcmp m s1 s2) (· = firstDiff bs cs) fun _ => False := by
  refine ((settles_strcmp h1 h2).returns (fuelMono_pureBody _)).andThen
    (whileLoop_mono (fuelMono_pureBody _) _) (fun _ => fuelMono_const _) fun p hp => ?_
  exact returns_const (meets_ok.mpr hp)

/-- `strncmp` compares the first `len` characters. -/
theorem strncmp_eq (h1 : CString m s1 bs) (h2 : CString m s2 cs) (len : Nat) :
    strncmp m s1 s2 len = firstDiff (bs.take len) (cs.take len) := by
  induction len generalizing s1 s2 bs cs with
  | zero => rfl
  | succ len ih =>
      cases bs with
      | nil =>
          have hb := CString.nil_iff.mp h1
          cases cs with
          | nil => simp [strncmp, sameChars, hb, CString.nil_iff.mp h2, firstDiff]
          | cons c cs => simp [strncmp, sameChars, hb, (CString.cons_iff.mp h2).1, firstDiff]
      | cons b bs =>
          obtain ⟨hb, hne, hrest⟩ := CString.cons_iff.mp h1
          cases cs with
          | nil => simp [strncmp, sameChars, hb, hne, CString.nil_iff.mp h2, firstDiff]
          | cons c cs =>
              obtain ⟨hc, -, hrest2⟩ := CString.cons_iff.mp h2
              rw [List.take_succ_cons, List.take_succ_cons, firstDiff, strncmp]
              by_cases hbc : b = c
              · rw [if_pos hbc, if_pos (by simp [sameChars, hb, hc, hbc, hbc ▸ hne])]
                exact ih hrest hrest2
              · rw [if_neg hbc, if_neg (by simp [sameChars, hb, hc, hbc]), hb, hc]

/-- `memcmp` on blocks of one length, which may hold zero bytes. -/
theorem memcmp_eq (hlen : bs.length = cs.length) (h1 : m.Holds s1 bs) (h2 : m.Holds s2 cs) :
    memcmp m s1 s2 bs.length = firstDiff bs cs := by
  induction bs generalizing s1 s2 cs with
  | nil =>
      cases cs with
      | nil => rfl
      | cons c cs => cases hlen
  | cons b bs ih =>
      cases cs with
      | nil => cases hlen
      | cons c cs =>
          rw [List.length_cons, memcmp, firstDiff, h1.1, h2.1, ite_not,
            ih (Nat.succ.inj hlen) h1.2 h2.2]

/-- `strchr` finds the first place of a character; it does not find the zero byte. -/
theorem strchr_eq (h : CString m s bs) (ch : BitVec 8) {fuel : Nat} (hfuel : bs.length < fuel) :
    strchr m ch fuel s = some ((bs.findIdx? (· == ch)).map fun i : Nat => s + i) := by
  induction bs generalizing s fuel with
  | nil =>
      obtain ⟨fuel, rfl⟩ := Nat.exists_eq_succ_of_ne_zero (Nat.ne_of_gt hfuel)
      simp [strchr, CString.nil_iff.mp h]
  | cons b bs ih =>
      obtain ⟨fuel, rfl⟩ := Nat.exists_eq_succ_of_ne_zero (Nat.ne_of_gt (Nat.zero_lt_of_lt hfuel))
      obtain ⟨hb, hne, hrest⟩ := CString.cons_iff.mp h
      rw [strchr, hb, if_neg hne, List.findIdx?_cons]
      by_cases hch : b = ch
      · simp [hch]
      · rw [if_neg hch, ih hrest (Nat.lt_of_succ_lt_succ hfuel), if_neg (by simpa using hch),
          Option.map_map]
        congr 2
        funext i
        simp only [Function.comp_apply]
        omega

end Read

/-! ### Writing -/

section Write

variable {b : Bus} {dst src : Int} {bs ds : List (BitVec 8)}

/-- The source is read to its end before its end is written over. -/
def KeepsEnd (dst src : Int) (len : Nat) : Prop := dst ≤ src ∨ src + len < dst

instance (dst src : Int) (len : Nat) : Decidable (KeepsEnd dst src len) :=
  inferInstanceAs (Decidable (_ ∨ _))

theorem settles_strcpy (h : CString b.mem src bs) (hk : KeepsEnd dst src bs.length) :
    Settles CopyState.more (pureBody CopyState.advance) ⟨dst, src, b⟩
      (fun st => st.dst = dst + bs.length ∧ st.bus = b.copyUp bs.length dst src)
      fun _ : Fault => False := by
  induction bs generalizing dst src b with
  | nil =>
      refine .done ?_ ⟨(Int.add_zero dst).symm, rfl⟩
      simp [CopyState.more, CString.nil_iff.mp h]
  | cons c bs ih =>
      obtain ⟨hc, hne, hrest⟩ := CString.cons_iff.mp h
      rw [KeepsEnd, List.length_cons] at hk
      have hrest' : CString (b.copyByte dst src).mem (src + 1) bs := by
        refine hrest.frame fun x hlo hhi => ?_
        rw [Bus.copyByte_mem, if_neg (by omega)]
      have hk' : KeepsEnd (dst + 1) (src + 1) bs.length := by
        rw [KeepsEnd]
        omega
      refine .turn (by simp [CopyState.more, hc, hne]) (returns_const (meets_ok.mpr ?_))
      have hpos : dst + ((c :: bs).length : Int) = dst + 1 + bs.length := by
        rw [List.length_cons]
        omega
      rw [hpos]
      exact ih hrest' hk'

/-- What a call leaves in memory: a text, and every other byte as it was. -/
structure Written (b b' : Bus) (dst : Int) (bs : List (BitVec 8)) (first : Int) : Prop where
  text : CString b'.mem dst bs
  other : ∀ x, x < first ∨ dst + bs.length < x → b'.mem x = b.mem x

theorem returns_strcpy (h : CString b.mem src bs) (hk : KeepsEnd dst src bs.length) :
    Returns (strcpy dst src b) (Written b · dst bs dst) fun _ => False := by
  refine ((settles_strcpy h hk).returns (fuelMono_pureBody _)).andThen
    (whileLoop_mono (fuelMono_pureBody _) _) (fun _ => fuelMono_const _) fun st hst => ?_
  obtain ⟨hdst, hbus⟩ := hst
  refine returns_const (meets_ok.mpr ?_)
  have hcopy := Bus.copyUp_mem (b := b) (d := dst) (s := src) (n := bs.length)
    (hk.imp_right Int.le_of_lt)
  have hmem : ∀ x, (st.bus.store st.dst 0#8).mem x = if x = dst + bs.length then 0#8
      else if dst ≤ x ∧ x < dst + bs.length then b.mem (x - dst + src) else b.mem x := by
    intro x
    rw [hdst, hbus, ← hcopy]
    rfl
  constructor
  · refine h.translate fun i hi => ?_
    rw [hmem]
    by_cases hend : i = bs.length
    · rw [if_pos (by omega), hend, h.end_eq]
    · rw [if_neg (by omega), if_pos (by omega)]
      congr 1
      omega
  · intro x hx
    rw [hmem, if_neg (by omega), if_neg (by omega)]

/-- Text, and nothing else, between the two pointers. -/
structure Window (st : CopyState) : Prop where
  behind : st.src < st.dst
  text : ∀ x, st.src ≤ x → x < st.dst → st.bus.mem x ≠ 0#8

theorem Window.ne_zero {st : CopyState} (h : Window st) : st.bus.mem st.src ≠ 0#8 :=
  h.text st.src (Int.le_refl _) h.behind

/-- The byte that enters the window is the one that leaves it. -/
theorem Window.advance {st : CopyState} (h : Window st) : Window st.advance := by
  refine ⟨Int.add_lt_add_right h.behind 1, fun x hlo hhi => ?_⟩
  simp only [CopyState.advance] at hlo hhi
  rw [CopyState.advance, Bus.copyByte_mem]
  by_cases hx : x = st.dst
  · rw [if_pos hx]
    exact h.ne_zero
  · rw [if_neg hx]
    exact h.text x (by omega) (by omega)

theorem window_of_not_keepsEnd (h : CString b.mem src bs)
    (hk : ¬ KeepsEnd dst src bs.length) : Window ⟨dst, src, b⟩ := by
  rw [KeepsEnd, not_or, Int.not_le, Int.not_lt] at hk
  refine ⟨hk.1, fun x hlo hhi => ?_⟩
  obtain ⟨i, rfl⟩ := Int.le.dest hlo
  apply h.ne_zero
  simp only at hhi
  omega

/-- With the destination inside the source the zero byte is gone before it is read. -/
theorem strcpy_eq_none (h : CString b.mem src bs) (hk : ¬ KeepsEnd dst src bs.length)
    (fuel : Nat) : strcpy dst src b fuel = none := by
  have hloop : whileLoop (ε := Fault) CopyState.more (pureBody CopyState.advance) fuel
      ⟨dst, src, b⟩ = none := by
    cases hrun : whileLoop (ε := Fault) CopyState.more (pureBody CopyState.advance) fuel
        ⟨dst, src, b⟩ with
    | none => rfl
    | some r =>
        obtain ⟨n, st, e, -, herr, -⟩ := (ends_of_whileLoop hrun).error_of_guard (P := Window)
          (fun st hst => by simpa [CopyState.more] using hst.ne_zero)
          (fun st n st' hst hstep => by cases hstep; exact hst.advance)
          (window_of_not_keepsEnd h hk)
        cases herr
  rw [strcpy, hloop]
  rfl

/-- The first loop of `strcat`. -/
theorem settles_notEnd {m : Bytes} (h : CString m dst ds) :
    Settles (notEnd m) (pureBody (· + 1)) dst (· = dst + ds.length) fun _ : Fault => False := by
  induction ds generalizing dst with
  | nil => exact .done (by simp [notEnd, CString.nil_iff.mp h]) (Int.add_zero dst).symm
  | cons d ds ih =>
      obtain ⟨hd, hne, hrest⟩ := CString.cons_iff.mp h
      have hpos : dst + ((d :: ds).length : Int) = dst + 1 + ds.length := by
        rw [List.length_cons]
        omega
      rw [hpos]
      exact .turn (by simp [notEnd, hd, hne]) (returns_const (meets_ok.mpr (ih hrest)))

theorem returns_strcat (hd : CString b.mem dst ds) (hs : CString b.mem src bs)
    (hk : KeepsEnd (dst + ds.length) src bs.length) :
    Returns (strcat dst src b) (Written b · dst (ds ++ bs) (dst + ds.length))
      fun _ => False := by
  refine ((settles_notEnd hd).returns (fuelMono_pureBody _)).andThen
    (whileLoop_mono (fuelMono_pureBody _) _) (fun e => fuelMono_strcpy e src b) ?_
  rintro e rfl
  refine (returns_strcpy hs hk).imp (fun b' hb' => ?_) fun _ h => h
  constructor
  · refine CString.append (fun i hi => ?_) hd.text hb'.text
    rw [hb'.other _ (.inl (by omega)), hd.getD_eq hi]
  · intro x hx
    refine hb'.other x (hx.imp_right fun h => ?_)
    rw [List.length_append] at h
    omega

theorem strcat_eq_none (hd : CString b.mem dst ds) (hs : CString b.mem src bs)
    (hk : ¬ KeepsEnd (dst + ds.length) src bs.length) (fuel : Nat) :
    strcat dst src b fuel = none := by
  rw [strcat]
  cases hrun : whileLoop (ε := Fault) (notEnd b.mem) (pureBody (· + 1)) fuel dst with
  | none => rfl
  | some r =>
      have hend := ((settles_notEnd hd).returns (fuelMono_pureBody _)).meets
        (whileLoop_mono (fuelMono_pureBody _) _) hrun
      cases r with
      | error e => exact (meets_error.mp hend).elim
      | ok e =>
          rw [andThen_ok, meets_ok.mp hend]
          exact strcpy_eq_none hs hk fuel

end Write

end Chestnut.Libc
