import Chestnut.Console.Format
import Mathlib.Tactic.Tauto

/-!
# `vprintf` renders its format

The machine walks over the pieces of the format: `Leads` says that some number
of steps comes from one state to another. A piece takes as many steps as it has
bytes, and one for each byte of a string argument. From the walk over a whole
format follow what is printed and which bytes of the format are read.
-/

namespace Chestnut

open Lib Format

namespace Console

/-! ### Numbers -/

section Digits

variable {digit : BitVec 64 → BitVec 8} {base : Nat}

theorem range_map_update (buf : Nat → BitVec 8) (s : Nat) (c : BitVec 8) :
    (List.range (s + 1)).map (Function.update buf s c) = (List.range s).map buf ++ [c] := by
  rw [List.range_succ, List.map_append, List.map_singleton, Function.update_self]
  congr 1
  apply List.map_congr_left
  intro k hk
  exact Function.update_of_ne (Nat.ne_of_lt (List.mem_range.mp hk)) _ _

/-- The loop appends the digits to what is in `buf`. -/
theorem digitLoop_spec (rest : BitVec 64 → BitVec 64) (hb : 1 < base)
    (hdigit : ∀ u, digit u = digitChar (u.toNat % base))
    (hrest : ∀ u, (rest u).toNat = u.toNat / base) (u : BitVec 64) {s : Nat}
    (hroom : s + (digitList base u.toNat).length ≤ bufSize) (buf : Nat → BitVec 8) :
    ∃ buf', digitLoop digit rest u s buf = .ok (s + (digitList base u.toNat).length, buf') ∧
      (List.range (s + (digitList base u.toNat).length)).map buf' =
        (List.range s).map buf ++ (digitList base u.toNat).map digitChar := by
  induction hn : u.toNat using Nat.strongRecOn generalizing u s buf with
  | ind n ih =>
      subst hn
      have hcons := digitList_cons hb u.toNat
      have hlen : 1 ≤ (digitList base u.toNat).length := by
        rw [hcons]
        simp
      rw [digitLoop, if_pos (by omega)]
      have hdone : rest u = 0#64 ↔ u.toNat / base = 0 := by
        rw [← hrest]
        exact BitVec.toNat_eq
      by_cases hzero : u.toNat / base = 0
      · have hlast : rest u = 0#64 := hdone.mpr hzero
        rw [if_pos hzero] at hcons
        rw [hcons]
        simp only [hlast, ne_eq, not_true_eq_false, if_false, List.length_singleton,
          List.map_singleton]
        exact ⟨_, rfl, (range_map_update _ _ _).trans (by rw [hdigit])⟩
      · have hmore : rest u ≠ 0#64 := mt hdone.mp hzero
        rw [if_neg hzero] at hcons
        have hlt : (rest u).toNat < u.toNat := by
          rw [hrest]
          exact Nat.div_lt_self (Nat.pos_of_ne_zero fun h => hzero (by rw [h, Nat.zero_div])) hb
        have hlen' : (digitList base u.toNat).length =
            (digitList base (rest u).toNat).length + 1 := by
          rw [hcons, hrest, List.length_cons]
        obtain ⟨buf', hrun, hbuf⟩ := ih _ hlt (rest u) (s := s + 1) (by omega)
          (Function.update buf s (digit u)) rfl
        have hsum : s + 1 + (digitList base (rest u).toNat).length =
            s + (digitList base u.toNat).length := by omega
        rw [hsum] at hrun hbuf
        refine ⟨buf', ?_, ?_⟩
        · simp only [hmore, ne_eq, not_false_eq_true, if_true]
          exact hrun
        · rw [hbuf, range_map_update, hdigit, hcons, hrest, List.append_assoc]
          rfl

theorem flush_eq (buf : Nat → BitVec 8) (s : Nat) (out : List (BitVec 8)) :
    flush buf s out = out ++ ((List.range s).map buf).reverse := by
  induction s generalizing out with
  | zero => simp [flush]
  | succ s ih => simp [flush, ih, List.range_succ]

theorem decDigit_eq (u : BitVec 64) : decDigit u = digitChar (u.toNat % 10) := by
  have hlt : u.toNat % 10 < 10 := Nat.mod_lt _ (by decide)
  have hmod : (u % 10#64).toNat = u.toNat % 10 := BitVec.toNat_umod
  have hzero : (ascii '0').toNat = 48 := rfl
  apply BitVec.eq_of_toNat_eq
  rw [decDigit, digitChar, if_pos hlt, BitVec.toNat_add, BitVec.toNat_setWidth, hmod, hzero,
    BitVec.toNat_ofNat]
  omega

theorem hexDigit_eq (u : BitVec 64) : hexDigit u = digitChar (u.toNat % 16) := by
  have hlt : u.toNat % 16 < 16 := Nat.mod_lt _ (by decide)
  have hmask : (u &&& 0xf#64).toNat = u.toNat % 16 := by
    rw [BitVec.toNat_and]
    exact Nat.and_two_pow_sub_one_eq_mod u.toNat 4
  have htable : ∀ d < 16, hex.getD d 0#8 = digitChar d := by decide
  rw [hexDigit, hmask, htable _ hlt]

/-- The digits of every number fit into `buf`, so no conversion faults. -/
theorem printNumber_eq {c : BitVec 8} (hc : Piece.Numeric c) (u : BitVec 64)
    (out : List (BitVec 8)) :
    printNumber c u out = .ok (out ++ numeral (Piece.base c) u.toNat) := by
  have hlt : u.toNat < 2 ^ 64 := u.isLt
  have h10 : (digitList 10 u.toNat).length ≤ 32 :=
    digitList_length_le (by decide) (by decide) (Nat.lt_of_lt_of_le hlt (by norm_num))
  have h16 : (digitList 16 u.toNat).length ≤ 32 :=
    digitList_length_le (by decide) (by decide) (Nat.lt_of_lt_of_le hlt (by norm_num))
  by_cases hdec : c = ascii 'd' ∨ c = ascii 'u'
  · have hx : c ≠ ascii 'x' := by
      rintro rfl
      exact absurd hdec (by decide)
    obtain ⟨buf, hrun, hbuf⟩ := digitLoop_spec (fun u => u / 10#64) (by decide)
      decDigit_eq (fun u => BitVec.toNat_udiv) u (s := 0) (by rw [Nat.zero_add]; exact h10)
      fun _ => 0#8
    rw [printNumber, digits, if_pos hdec, hrun, Piece.base, if_neg hx]
    simp only [ok_bind, flush_eq, hbuf]
    rfl
  · have hx : c = ascii 'x' := by
      rcases hc with h | h | h
      · exact absurd (Or.inl h) hdec
      · exact absurd (Or.inr h) hdec
      · exact h
    obtain ⟨buf, hrun, hbuf⟩ := digitLoop_spec (fun u => u >>> 4) (by decide)
      hexDigit_eq (fun u => by rw [BitVec.toNat_ushiftRight, Nat.shiftRight_eq_div_pow]) u
      (s := 0) (by rw [Nat.zero_add]; exact h16) fun _ => 0#8
    rw [printNumber, digits, if_neg hdec, hrun, Piece.base, if_pos hx]
    simp only [ok_bind, flush_eq, hbuf]
    rfl

end Digits

/-- What `l` counts: the program takes 64 bits when the word it has wrapped to
is 1 or 2. -/
def wrappedLong (l : Nat) : Bool := BitVec.ofNat 32 l = 2#32 ∨ BitVec.ofNat 32 l = 1#32

theorem number_toNat (l : Nat) (arg : BitVec 64) :
    (number (BitVec.ofNat 32 l) arg).toNat =
      if wrappedLong l then arg.toNat else arg.toNat % 2 ^ 32 := by
  rw [number, wrappedLong]
  by_cases h2 : BitVec.ofNat 32 l = 2#32
  · simp [h2]
  · by_cases h1 : BitVec.ofNat 32 l = 1#32
    · simp [h1]
    · have hlt := arg.isLt
      simp only [h1, h2, if_false, or_self, decide_false, Bool.false_eq_true]
      rw [BitVec.toNat_setWidth, BitVec.toNat_setWidth]
      omega

/-! ### Runs -/

section Runs

variable {m : Bytes} {args : Nat → BitVec 64}

theorem run_add (n k : Nat) (st : Printf) :
    run m args (n + k) st = run m args n st >>= run m args k := by
  induction n generalizing st with
  | zero => rw [Nat.zero_add]; rfl
  | succ n ih =>
      rw [Nat.succ_add, run, run]
      cases step m args st with
      | error e => rfl
      | ok st' => exact ih st'

/-- Some number of steps comes from one state to another. -/
def Leads (m : Bytes) (args : Nat → BitVec 64) (st st' : Printf) : Prop :=
  ∃ n, run m args n st = .ok st'

namespace Leads

theorem refl (st : Printf) : Leads m args st st := ⟨0, rfl⟩

theorem trans {s₁ s₂ s₃ : Printf} (h : Leads m args s₁ s₂) (h' : Leads m args s₂ s₃) :
    Leads m args s₁ s₃ := by
  obtain ⟨n, hn⟩ := h
  obtain ⟨k, hk⟩ := h'
  refine ⟨n + k, ?_⟩
  rw [run_add, hn]
  exact hk

theorem step {s₁ s₂ s₃ : Printf} (h : step m args s₁ = .ok s₂) (h' : Leads m args s₂ s₃) :
    Leads m args s₁ s₃ := by
  obtain ⟨n, hn⟩ := h'
  refine ⟨n + 1, ?_⟩
  rw [run, h]
  exact hn

end Leads

theorem run_done {st : Printf} (h : st.point = .done) (n : Nat) : run m args n st = .ok st := by
  induction n with
  | zero => rfl
  | succ n ih =>
      have hstep : step m args st = .ok st := by rw [step, h]
      rw [run, hstep]
      exact ih

theorem convert_reads {c : BitVec 8} {st st' : Printf} (h : convert args c st = .ok st') :
    st'.reads = st.reads := by
  rw [convert] at h
  split at h
  · cases h
    rfl
  split at h
  · cases h
    rfl
  split at h
  · cases h
    rfl
  split at h
  · obtain ⟨out, -, h⟩ := bind_ok h
    cases h
    rfl
  · cases h
    rfl

theorem literal_reads (c : BitVec 8) (st : Printf) : (literal c st).reads = st.reads := by
  rw [literal]
  split
  · rfl
  split
  · rfl
  · rfl

theorem string_reads (s : Int) (st : Printf) : (string m s st).reads = st.reads := by
  rw [string]
  split <;> rfl

/-- No read is forgotten. -/
theorem step_reads {st st' : Printf} (h : step m args st = .ok st') :
    ∀ a ∈ st.reads, a ∈ st'.reads := by
  intro a ha
  rw [step] at h
  split at h
  · cases h
    rw [literal_reads]
    exact List.mem_cons_of_mem _ ha
  · rw [convert_reads h]
    exact List.mem_cons_of_mem _ ha
  · cases h
    rw [string_reads]
    exact ha
  · cases h
    exact ha

theorem run_reads {n : Nat} {st st' : Printf} (h : run m args n st = .ok st') :
    ∀ a ∈ st.reads, a ∈ st'.reads := by
  induction n generalizing st with
  | zero =>
      cases h
      exact fun _ ha => ha
  | succ n ih =>
      obtain ⟨st₁, hstep, hrun⟩ := bind_ok h
      exact fun a ha => ih hrun a (step_reads hstep a ha)

/-- Along a run that ends, every state is reached and has read no more than the
last one. -/
theorem run_of_done {st st' : Printf} (h : Leads m args st st') (hdone : st'.point = .done)
    (n : Nat) : ∃ st₁, run m args n st = .ok st₁ ∧ ∀ a ∈ st₁.reads, a ∈ st'.reads := by
  obtain ⟨k, hk⟩ := h
  rcases Nat.le_total n k with hle | hle
  · obtain ⟨d, rfl⟩ := Nat.exists_eq_add_of_le hle
    rw [run_add] at hk
    obtain ⟨st₁, hn, hd⟩ := bind_ok hk
    exact ⟨st₁, hn, run_reads hd⟩
  · obtain ⟨d, rfl⟩ := Nat.exists_eq_add_of_le hle
    refine ⟨st', ?_, fun _ ha => ha⟩
    rw [run_add, hk]
    exact run_done hdone d

theorem eq_of_done {st st₁ st₂ : Printf} (h₁ : Leads m args st st₁) (hd₁ : st₁.point = .done)
    (h₂ : Leads m args st st₂) (hd₂ : st₂.point = .done) : st₁ = st₂ := by
  obtain ⟨n, hn⟩ := h₁
  obtain ⟨k, hk⟩ := h₂
  have hnk : run m args (n + k) st = .ok st₁ := by
    rw [run_add, hn]
    exact run_done hd₁ k
  rw [Nat.add_comm, run_add, hk, ok_bind, run_done hd₂] at hnk
  cases hnk
  rfl

/-! ### The walk over a format -/

variable {strs : Nat → List (BitVec 8)}

/-- A string argument is printed up to its NUL. -/
theorem leads_string {str : List (BitVec 8)} {s : Int} (h : CString m s str) (st : Printf) :
    Leads m args { st with point := .string s }
      { st with out := st.out ++ str, point := .next } := by
  induction str generalizing s st with
  | nil =>
      refine .step ?_ (.refl _)
      simp only [step, string, CString.nil_iff.mp h, if_true, List.append_nil]
  | cons b str ih =>
      obtain ⟨hbyte, hb, hrest⟩ := CString.cons_iff.mp h
      have hnext := ih hrest { st with out := st.out ++ [b] }
      simp only [List.append_assoc, List.singleton_append] at hnext
      refine .step ?_ hnext
      simp only [step, string, hbyte, if_neg hb]

/-- A directive prints its text. -/
theorem leads_convert {l : Nat} {c : BitVec 8} (hc : c ≠ ascii 'l') (st : Printf)
    (strs : Nat → List (BitVec 8)) (hl : st.l = BitVec.ofNat 32 l)
    (hs : c = ascii 's' → CString m (args st.ap).toNat (strs st.ap)) :
    ∃ st₁, convert args c st = .ok st₁ ∧ Leads m args st₁
      { st with
        out := st.out ++ (Piece.directive l c).text wrappedLong (args st.ap) (strs st.ap)
        ap := st.ap + (Piece.directive l c).slots
        point := .next } := by
  rw [convert, if_neg hc, Piece.text, Piece.slots]
  by_cases h₁ : c = ascii 'c'
  · rw [if_pos h₁, if_pos h₁, if_pos (Or.inl h₁)]
    exact ⟨_, rfl, .refl _⟩
  rw [if_neg h₁, if_neg h₁]
  by_cases h₂ : c = ascii 's'
  · rw [if_pos h₂, if_pos h₂, if_pos (Or.inr (Or.inl h₂))]
    exact ⟨_, rfl, leads_string (hs h₂) { st with ap := st.ap + 1 }⟩
  rw [if_neg h₂, if_neg h₂]
  by_cases h₃ : Piece.Numeric c
  · have h₃' : c = ascii 'd' ∨ c = ascii 'u' ∨ c = ascii 'x' := h₃
    rw [if_pos h₃', if_pos h₃, if_pos (Or.inr (Or.inr h₃)), hl, printNumber_eq h₃, number_toNat]
    exact ⟨_, rfl, .refl _⟩
  · have h₃' : ¬ (c = ascii 'd' ∨ c = ascii 'u' ∨ c = ascii 'x') := h₃
    rw [if_neg h₃', if_neg h₃, if_neg (by tauto), List.append_nil]
    exact ⟨_, rfl, .refl _⟩

/-- Where the machine stands before the rest of a format. -/
structure Before (e : Option Nat) (st : Printf) : Prop where
  point : st.point = if e = none then .next else .nextfmt
  l : ∀ l, e = some l → st.l = BitVec.ofNat 32 l

/-- What the rest of a format comes to: its text, and the reads of its bytes. -/
structure After (text : List (BitVec 8)) (p : Int) (len : Nat) (e : Option Nat)
    (st st' : Printf) : Prop where
  point : st'.point = if e = none then .done else .next
  fmt : st'.fmt = p + len + 1
  out : st'.out = st.out ++ text
  reads : ∀ a, a ∈ st'.reads ↔ a ∈ st.reads ∨ p ≤ a ∧ a ≤ p + len

theorem render_cons (i : Nat) (q : Piece) (ps : List Piece) (long : Nat → Bool) :
    render long args strs i (q :: ps) =
      q.text long (args i) (strs i) ++ render long args strs (i + q.slots) ps := rfl

/-- One byte and the rest behind it. -/
theorem After.cons {text text' : List (BitVec 8)} {p : Int} {len : Nat} {e : Option Nat}
    {st st₁ st' : Printf} (A : After text' (p + 1) len e st₁ st')
    (hout : st₁.out ++ text' = st.out ++ text) (hreads : st₁.reads = p :: st.reads) :
    After text p (len + 1) e st st' := by
  obtain ⟨hpoint, hfmt, hA, hR⟩ := A
  refine ⟨hpoint, ?_, hA.trans hout, fun a => ?_⟩
  · rw [hfmt]
    omega
  · rw [hR, hreads, List.mem_cons]
    constructor
    · rintro ((rfl | h) | h)
      · exact Or.inr ⟨Int.le_refl _, by omega⟩
      · exact Or.inl h
      · exact Or.inr ⟨by omega, by omega⟩
    · rintro (h | h)
      · exact Or.inl (Or.inr h)
      · by_cases hp : a = p
        · exact Or.inl (Or.inl hp)
        · exact Or.inr ⟨by omega, by omega⟩

/-- The end of the format. -/
theorem After.nil {p : Int} {e : Option Nat} {st st' : Printf}
    (hpoint : st'.point = if e = none then .done else .next) (hfmt : st'.fmt = p + 1)
    (hout : st'.out = st.out) (hreads : st'.reads = p :: st.reads) :
    After [] p 0 e st st' := by
  refine ⟨hpoint, by rw [hfmt]; omega, by rw [hout, List.append_nil], fun a => ?_⟩
  rw [hreads, List.mem_cons]
  constructor
  · rintro (rfl | h)
    · exact Or.inr ⟨Int.le_refl _, by omega⟩
    · exact Or.inl h
  · rintro (h | h)
    · exact Or.inr h
    · exact Or.inl (by omega)

theorem step_next (args : Nat → BitVec 64) {st : Printf} (h : st.point = .next) {b : BitVec 8}
    (hb : m st.fmt = b) : step m args st = .ok (literal b st.advance) := by
  rw [step, h, hb]

theorem step_nextfmt (args : Nat → BitVec 64) {st : Printf} (h : st.point = .nextfmt)
    {b : BitVec 8} (hb : m st.fmt = b) : step m args st = convert args b st.advance := by
  rw [step, h, hb]

/-- The walk, by induction over the bytes that are left. -/
theorem leads_format {e : Option Nat} {bs : List (BitVec 8)} (hnul : ∀ b ∈ bs, b ≠ 0#8)
    (st : Printf) (hm : m.Holds st.fmt (bs ++ [0#8])) (hst : Before e st)
    (hmatch : Matches m args strs st.ap (parse e bs).1) :
    ∃ st', Leads m args st st' ∧
      After (render wrappedLong args strs st.ap (parse e bs).1) st.fmt bs.length (parse e bs).2
        st st' := by
  induction bs generalizing e st with
  | nil =>
      cases e with
      | none =>
          refine ⟨_, .step (step_next args hst.point hm.1) (.refl _), ?_⟩
          exact .nil rfl rfl rfl rfl
      | some l =>
          refine ⟨_, .step (step_nextfmt args hst.point hm.1) (.refl _), ?_⟩
          exact .nil rfl rfl rfl rfl
  | cons b bs ih =>
      obtain ⟨hb, hbs⟩ := List.forall_mem_cons.mp hnul
      obtain ⟨hbyte, hrest⟩ := hm
      cases e with
      | none =>
          have hstep := step_next args hst.point hbyte
          rw [parse] at hmatch ⊢
          by_cases hpct : b = ascii '%'
          · rw [if_pos hpct] at hmatch ⊢
            rw [literal, if_neg hb, if_neg (not_not.mpr hpct)] at hstep
            obtain ⟨st', hlead, A⟩ := ih hbs { st.advance with l := 0#32, point := .nextfmt }
              hrest ⟨rfl, fun l hl => by cases hl; rfl⟩ hmatch
            exact ⟨st', .step hstep hlead, A.cons rfl rfl⟩
          · rw [if_neg hpct] at hmatch ⊢
            rw [literal, if_neg hb, if_pos hpct] at hstep
            obtain ⟨st', hlead, A⟩ := ih hbs { st.advance with out := st.out ++ [b] }
              hrest ⟨hst.point, fun l hl => by cases hl⟩ hmatch.tail
            refine ⟨st', .step hstep hlead, A.cons ?_ rfl⟩
            rw [render_cons, ← List.append_assoc]
            rfl
      | some l =>
          have hstep := step_nextfmt args hst.point hbyte
          rw [parse] at hmatch ⊢
          by_cases hel : b = ascii 'l'
          · rw [if_pos hel] at hmatch ⊢
            rw [convert, if_pos hel] at hstep
            have hcount : st.l + 1#32 = BitVec.ofNat 32 (l + 1) := by
              rw [hst.l l rfl, BitVec.ofNat_add]
            have hbefore : Before (some (l + 1)) { st.advance with l := st.l + 1#32 } :=
              ⟨hst.point, fun k hk => by cases hk; exact hcount⟩
            obtain ⟨st', hlead, A⟩ := ih hbs _ hrest hbefore hmatch
            exact ⟨st', .step hstep hlead, A.cons rfl rfl⟩
          · rw [if_neg hel] at hmatch ⊢
            obtain ⟨st₁, hconv, hlead₁⟩ := leads_convert hel st.advance strs
              (hst.l l rfl) fun hs => hmatch _ l (by rw [slotted, hs]; exact List.mem_cons_self)
            rw [hconv] at hstep
            have hbefore : Before none { st.advance with
                out := st.out ++ (Piece.directive l b).text wrappedLong (args st.ap) (strs st.ap)
                ap := st.ap + (Piece.directive l b).slots
                point := .next } := ⟨rfl, fun k hk => by cases hk⟩
            obtain ⟨st', hlead, A⟩ := ih hbs _ hrest hbefore hmatch.tail
            refine ⟨st', .step hstep (hlead₁.trans hlead), A.cons ?_ rfl⟩
            rw [render_cons, ← List.append_assoc]

/-- A whole format. -/
theorem leads_whole {fmt : List (BitVec 8)} (hnul : ∀ b ∈ fmt, b ≠ 0#8) {p : Int}
    (hm : m.Holds p (fmt ++ [0#8])) (hmatch : Matches m args strs 0 (parse none fmt).1)
    (l : BitVec 32) :
    ∃ st, Leads m args (enter p l) st ∧
      After (render wrappedLong args strs 0 (parse none fmt).1) p fmt.length (parse none fmt).2
        (enter p l) st :=
  leads_format hnul (enter p l) hm ⟨rfl, fun k hk => by cases hk⟩ hmatch

end Runs

/-! ### Reading the format -/

/-- `vprintf` stops behind the NUL of the format and reads nothing further. -/
structure StaysInside (m : Bytes) (args : Nat → BitVec 64) (p : Int) (len : Nat)
    (l : BitVec 32) : Prop where
  stops : ∃ n st, run m args n (enter p l) = .ok st ∧ st.point = .done ∧ st.fmt = p + len + 1
  inside : ∀ n st, run m args n (enter p l) = .ok st → ∀ a ∈ st.reads, a ≤ p + len

/-- `vprintf` stays inside its format exactly when the format does not end
inside a directive: there the NUL is taken for the letter of the directive, and
the byte behind it is read. -/
theorem staysInside_iff (m : Bytes) (args : Nat → BitVec 64) (strs : Nat → List (BitVec 8))
    (p : Int) (fmt : List (BitVec 8)) (l : BitVec 32) (hnul : ∀ b ∈ fmt, b ≠ 0#8)
    (hm : m.Holds p (fmt ++ [0#8])) (hmatch : Matches m args strs 0 (parse none fmt).1) :
    StaysInside m args p fmt.length l ↔ ¬ EndsInside fmt := by
  obtain ⟨st, hlead, A⟩ := leads_whole hnul hm hmatch l
  rw [EndsInside, not_not]
  constructor
  · intro S
    by_contra hends
    have hpoint : st.point = .next := by rw [A.point, if_neg hends]
    obtain ⟨n, hn⟩ := hlead
    have hstep : step m args st = _ := step_next args hpoint rfl
    have hread : run m args (n + 1) (enter p l) = .ok (literal (m st.fmt) st.advance) := by
      rw [run_add, hn, ok_bind, run, hstep]
      rfl
    have hle := S.inside _ _ hread st.fmt (by rw [literal_reads]; exact List.mem_cons_self)
    rw [A.fmt] at hle
    omega
  · intro hends
    have hdone : st.point = .done := by rw [A.point, if_pos hends]
    refine ⟨?_, ?_⟩
    · obtain ⟨n, hn⟩ := hlead
      exact ⟨n, st, hn, hdone, A.fmt⟩
    · intro n st₁ hrun a ha
      obtain ⟨st₂, hrun₂, hreads⟩ := run_of_done hlead hdone n
      rw [hrun] at hrun₂
      cases hrun₂
      rcases (A.reads a).mp (hreads a ha) with h | h
      · exact absurd h List.not_mem_nil
      · exact h.2

theorem staysInside_iff_number :
    StaysInside (Bytes.ofList 0 [ascii '%', ascii 'l', ascii 'x', 0#8]) (fun _ => 255#64) 0 3 0#32 ∧
      ¬ EndsInside [ascii '%', ascii 'l', ascii 'x'] := by
  have hends : ¬ EndsInside [ascii '%', ascii 'l', ascii 'x'] := by decide
  refine ⟨(staysInside_iff _ _ (fun _ => []) 0 [ascii '%', ascii 'l', ascii 'x'] 0#32 (by decide)
    (Bytes.holds_ofList 0 _) ?_).mpr hends, hends⟩
  intro j l hj
  have hslots : slotted 0 (parse none [ascii '%', ascii 'l', ascii 'x']).1 =
      [(0, .directive 1 (ascii 'x'))] := by decide
  rw [hslots, List.mem_singleton, Prod.mk.injEq, Piece.directive.injEq] at hj
  exact absurd hj.2.2 (by decide)

/-- The format `%`, and bytes behind its NUL that are printed. -/
theorem percent_reads_on :
    ∃ st, run (Bytes.ofList 0 [ascii '%', 0#8, ascii 'A', 0#8]) (fun _ => 0#64) 4 (enter 0 0#32) =
        .ok st ∧ st.point = .done ∧ st.out = [ascii 'A'] ∧ 3 ∈ st.reads :=
  ⟨_, rfl, by decide, by decide, by decide⟩

/-! ### What is printed -/

/-- The directives that are to take 64 bits: those with one or two `l`. -/
def declaredLong (l : Nat) : Bool := l = 1 ∨ l = 2

/-- A directive with more than two `l` whose counter has wrapped to one or two. -/
def Overflows (l : Nat) : Prop := 2 < l ∧ (l % 2 ^ 32 = 1 ∨ l % 2 ^ 32 = 2)

theorem wrappedLong_iff (l : Nat) :
    wrappedLong l = true ↔ declaredLong l = true ∨ Overflows l := by
  have hword : ∀ k < 2 ^ 32, BitVec.ofNat 32 l = BitVec.ofNat 32 k ↔ l % 2 ^ 32 = k := by
    intro k hk
    rw [← BitVec.toNat_inj, BitVec.toNat_ofNat, BitVec.toNat_ofNat, Nat.mod_eq_of_lt hk]
  rw [wrappedLong, declaredLong, decide_eq_true_iff, decide_eq_true_iff, hword 2 (by decide),
    hword 1 (by decide), Overflows]
  omega

theorem not_declaredLong {l : Nat} (h : Overflows l) : declaredLong l = false := by
  rw [declaredLong, decide_eq_false_iff_not]
  have := h.1
  omega

section Texts

variable {c : BitVec 8} (l : Nat) (w : BitVec 64) (str : List (BitVec 8))

theorem base_bounds (c : BitVec 8) : 1 < Piece.base c ∧ Piece.base c ≤ 36 := by
  rw [Piece.base]
  split <;> decide

theorem text_numeric (hc : Piece.Numeric c) (long : Nat → Bool) :
    (Piece.directive l c).text long w str =
      numeral (Piece.base c) (if long l then w.toNat else w.toNat % 2 ^ 32) := by
  have h₁ : c ≠ ascii 'c' := by
    rintro rfl
    exact absurd hc (by decide)
  have h₂ : c ≠ ascii 's' := by
    rintro rfl
    exact absurd hc (by decide)
  rw [Piece.text, if_neg h₁, if_neg h₂, if_pos hc]

theorem text_of_not_numeric (hc : ¬ Piece.Numeric c) (long long' : Nat → Bool) :
    (Piece.directive l c).text long w str = (Piece.directive l c).text long' w str := by
  simp only [Piece.text, if_neg hc]

/-- The code prints a longer numeral or the right one. -/
theorem length_text_le (q : Piece) :
    (q.text declaredLong w str).length ≤ (q.text wrappedLong w str).length := by
  cases q with
  | lit b => exact Nat.le_refl _
  | directive l c =>
      by_cases hc : Piece.Numeric c
      · rw [text_numeric l w str hc, text_numeric l w str hc]
        apply length_numeral_mono (base_bounds c).1
        by_cases hl : declaredLong l = true
        · rw [if_pos hl, if_pos ((wrappedLong_iff l).mpr (Or.inl hl))]
        · rw [if_neg hl]
          have hmod : w.toNat % 2 ^ 32 ≤ w.toNat := Nat.mod_le _ _
          split
          · exact hmod
          · exact Nat.le_refl _
      · rw [text_of_not_numeric l w str hc wrappedLong declaredLong]

/-- A directive is printed wrong when its counter overflows and its argument
needs more than 32 bits. -/
theorem text_eq_iff (c : BitVec 8) :
    (Piece.directive l c).text wrappedLong w str = (Piece.directive l c).text declaredLong w str ↔
      (Piece.Numeric c → Overflows l → w.toNat < 2 ^ 32) := by
  by_cases hc : Piece.Numeric c
  · rw [text_numeric l w str hc, text_numeric l w str hc,
      numeral_inj (base_bounds c).1 (base_bounds c).2]
    by_cases ho : Overflows l
    · rw [if_pos ((wrappedLong_iff l).mpr (Or.inr ho)), not_declaredLong ho]
      simp only [Bool.false_eq_true, if_false, hc, ho, forall_true_left]
      omega
    · have hsame : wrappedLong l = declaredLong l := by
        rw [Bool.eq_iff_iff, wrappedLong_iff, or_iff_left ho]
      rw [hsame]
      exact ⟨fun _ _ h => absurd h ho, fun _ => rfl⟩
  · exact ⟨fun _ h => absurd h hc, fun _ => text_of_not_numeric l w str hc _ _⟩

end Texts

/-- `vprintf` prints the text of its format and stays within `buf`; the numerals
in the text have no leading zeros and stand for the arguments. -/
structure Renders (m : Bytes) (args : Nat → BitVec 64) (strs : Nat → List (BitVec 8)) (p : Int)
    (ps : List Piece) (l : BitVec 32) : Prop where
  prints : ∃ n st, run m args n (enter p l) = .ok st ∧ st.point = .done ∧
    st.out = render declaredLong args strs 0 ps
  within : ∀ n, ∃ st, run m args n (enter p l) = .ok st
  value : ∀ j k c, (j, .directive k c) ∈ slotted 0 ps → Piece.Numeric c →
    numeralValue (Piece.base c) ((Piece.directive k c).text declaredLong (args j) (strs j)) =
      if k = 1 ∨ k = 2 then (args j).toNat else (args j).toNat % 2 ^ 32
  canonical : ∀ j k c, (j, .directive k c) ∈ slotted 0 ps → Piece.Numeric c →
    ((Piece.directive k c).text declaredLong (args j) (strs j)).head? = some (ascii '0') →
    (Piece.directive k c).text declaredLong (args j) (strs j) = [ascii '0']

theorem value_text {c : BitVec 8} (hc : Piece.Numeric c) (k : Nat) (w : BitVec 64)
    (str : List (BitVec 8)) :
    numeralValue (Piece.base c) ((Piece.directive k c).text declaredLong w str) =
      if k = 1 ∨ k = 2 then w.toNat else w.toNat % 2 ^ 32 := by
  rw [text_numeric k w str hc, numeralValue_numeral (base_bounds c).1 (base_bounds c).2]
  simp only [declaredLong, decide_eq_true_eq]

theorem canonical_text {c : BitVec 8} (hc : Piece.Numeric c) (k : Nat) (w : BitVec 64)
    (str : List (BitVec 8))
    (h : ((Piece.directive k c).text declaredLong w str).head? = some (ascii '0')) :
    (Piece.directive k c).text declaredLong w str = [ascii '0'] := by
  rw [text_numeric k w str hc] at h ⊢
  by_cases hzero : (if declaredLong k then w.toNat else w.toNat % 2 ^ 32) = 0
  · rw [hzero]
    rfl
  · exact absurd h (numeral_head (base_bounds c).1 (base_bounds c).2 hzero)

section Pieces

variable {m : Bytes} {args : Nat → BitVec 64} {strs : Nat → List (BitVec 8)} {ps : List Piece}

/-- What a format without an unfinished directive comes to. -/
theorem leads_pieces {p : Int} (hvalid : ∀ q ∈ ps, q.Valid)
    (hm : m.Holds p (ps.flatMap Piece.bytes ++ [0#8])) (hmatch : Matches m args strs 0 ps)
    (l : BitVec 32) :
    ∃ st, Leads m args (enter p l) st ∧ st.point = .done ∧
      st.out = render wrappedLong args strs 0 ps := by
  have hparse := parse_bytes hvalid
  have hnul : ∀ b ∈ ps.flatMap Piece.bytes, b ≠ 0#8 := by
    intro b hb
    obtain ⟨q, hq, hbq⟩ := List.mem_flatMap.mp hb
    exact q.ne_nul (hvalid q hq) b hbq
  obtain ⟨st, hlead, A⟩ := leads_whole hnul hm (by rw [hparse]; exact hmatch) l
  rw [hparse] at A
  exact ⟨st, hlead, A.point, A.out⟩

theorem render_eq_iff :
    render wrappedLong args strs 0 ps = render declaredLong args strs 0 ps ↔
      ∀ j k c, (j, .directive k c) ∈ slotted 0 ps →
        Piece.Numeric c → Overflows k → (args j).toNat < 2 ^ 32 := by
  rw [render, render, flatMap_eq_iff fun q _ => length_text_le _ _ _]
  constructor
  · intro h j k c hj
    exact (text_eq_iff k (args j) (strs j) c).mp (h _ hj)
  · rintro h ⟨j, q⟩ hj
    cases q with
    | lit b => rfl
    | directive k c => exact (text_eq_iff k (args j) (strs j) c).mpr (h j k c hj)

end Pieces

/-- `vprintf` renders its format exactly when no counter `l` overflows in front
of an argument of more than 32 bits. -/
theorem renders_iff (m : Bytes) (args : Nat → BitVec 64) (strs : Nat → List (BitVec 8)) (p : Int)
    (ps : List Piece) (l : BitVec 32) (hvalid : ∀ q ∈ ps, q.Valid)
    (hm : m.Holds p (ps.flatMap Piece.bytes ++ [0#8])) (hmatch : Matches m args strs 0 ps) :
    Renders m args strs p ps l ↔ ∀ j k c, (j, .directive k c) ∈ slotted 0 ps →
      Piece.Numeric c → Overflows k → (args j).toNat < 2 ^ 32 := by
  obtain ⟨st, hlead, hdone, hout⟩ := leads_pieces hvalid hm hmatch l
  rw [← render_eq_iff, ← hout]
  constructor
  · intro R
    obtain ⟨n, st', hrun, hdone', hout'⟩ := R.prints
    rw [← hout', eq_of_done hlead hdone ⟨n, hrun⟩ hdone']
  · intro h
    obtain ⟨n, hn⟩ := id hlead
    refine ⟨⟨n, st, hn, hdone, h⟩, fun k => ?_, fun j k c _ hc => value_text hc k _ _,
      fun j k c _ hc => canonical_text hc k _ _⟩
    obtain ⟨st₁, hrun, -⟩ := run_of_done hlead hdone k
    exact ⟨st₁, hrun⟩

theorem renders_iff_mixed :
    let ps : List Piece := [.lit (ascii 'n'), .directive 1 (ascii 'u'), .directive 0 (ascii 's')]
    Renders (Bytes.ofList 0 (ps.flatMap Piece.bytes ++ [0#8, ascii 'o', ascii 'k', 0#8]))
      (fun j => if j = 0 then 0x100000000#64 else 7#64) (fun _ => [ascii 'o', ascii 'k']) 0 ps
      0#32 := by
  intro ps
  refine (renders_iff _ _ _ 0 ps 0#32 ?_ ?_ ?_).mpr ?_
  · intro q hq
    simp only [ps, List.mem_cons, List.not_mem_nil, or_false] at hq
    rcases hq with rfl | rfl | rfl <;> exact ⟨by decide, by decide⟩
  · have hall := Bytes.holds_ofList 0 (ps.flatMap Piece.bytes ++ [0#8, ascii 'o', ascii 'k', 0#8])
    rw [List.append_cons, Bytes.holds_append] at hall
    exact hall.1
  · intro j k hj
    have hslots : slotted 0 ps = [(0, .lit (ascii 'n')), (0, .directive 1 (ascii 'u')),
        (1, .directive 0 (ascii 's'))] := by decide
    have hj1 : j = 1 := by
      rw [hslots] at hj
      simp only [List.mem_cons, Prod.mk.injEq, List.not_mem_nil, or_false] at hj
      rcases hj with ⟨-, h⟩ | ⟨-, h⟩ | ⟨h, -⟩
      · cases h
      · exact absurd (Piece.directive.inj h).2 (by decide)
      · exact h
    subst hj1
    exact ⟨⟨by decide, by decide, by decide, trivial⟩, by decide⟩
  · intro j k c hj _ ho
    have hslots : ∀ q ∈ slotted 0 ps, ∀ k c, q.2 = .directive k c → k ≤ 2 := by
      intro q hq k c hqk
      simp only [ps, slotted, List.mem_cons, List.not_mem_nil, or_false] at hq
      rcases hq with rfl | rfl | rfl
      · cases hqk
      · cases hqk
        decide
      · cases hqk
        decide
    have hle := hslots _ hj k c rfl
    have hlt := ho.1
    omega

/-- One directive whose counter overflows prints all 64 bits of its argument. -/
theorem leads_overflow {k : Nat} (hk : Overflows k) (w : BitVec 64) (l : BitVec 32) :
    ∃ st, Leads (Bytes.ofList 0 ([Piece.directive k (ascii 'u')].flatMap Piece.bytes ++ [0#8]))
        (fun _ => w) (enter 0 l) st ∧ st.point = .done ∧ st.out = numeral 10 w.toNat ∧
      render declaredLong (fun _ => w) (fun _ => []) 0 [.directive k (ascii 'u')] =
        numeral 10 (w.toNat % 2 ^ 32) := by
  have hnum : Piece.Numeric (ascii 'u') := Or.inr (Or.inl rfl)
  have hvalid : ∀ q ∈ [Piece.directive k (ascii 'u')], q.Valid := by
    intro q hq
    rw [List.mem_singleton.mp hq]
    exact ⟨by decide, by decide⟩
  have hmatch : ∀ m : Bytes, Matches m (fun _ => w) (fun _ => []) 0
      [Piece.directive k (ascii 'u')] := by
    intro m j i hj
    have hletter := (Piece.directive.inj (Prod.mk.inj (List.mem_singleton.mp hj)).2).2
    exact absurd hletter (by decide)
  obtain ⟨st, hlead, hdone, hout⟩ := leads_pieces hvalid (Bytes.holds_ofList 0 _) (hmatch _) l
  refine ⟨st, hlead, hdone, hout.trans ?_, ?_⟩
  · rw [render_cons, text_numeric k w [] hnum, if_pos ((wrappedLong_iff k).mpr (Or.inr hk))]
    exact List.append_nil _
  · rw [render_cons, text_numeric k w [] hnum, not_declaredLong hk]
    exact List.append_nil _

/-- `%`, 4294967297 times `l`, `u`: the argument 4294967296 is printed in full,
not modulo `2^32`. -/
theorem overflowing_counter_misprints :
    ∃ n st, run (Bytes.ofList 0
        ([Piece.directive 4294967297 (ascii 'u')].flatMap Piece.bytes ++ [0#8]))
        (fun _ => 0x100000000#64) n (enter 0 0#32) = .ok st ∧ st.point = .done ∧
      st.out = numeral 10 4294967296 ∧
      render declaredLong (fun _ => 0x100000000#64) (fun _ => []) 0
        [.directive 4294967297 (ascii 'u')] = numeral 10 0 ∧
      numeral 10 4294967296 ≠ numeral 10 0 := by
  obtain ⟨st, ⟨n, hn⟩, hdone, hout, htext⟩ :=
    leads_overflow (k := 4294967297) ⟨by decide, Or.inl (by decide)⟩ 0x100000000#64 0#32
  refine ⟨n, st, hn, hdone, hout, htext, ?_⟩
  rw [Ne, numeral_inj (by decide) (by decide)]
  decide

end Console

end Chestnut
