import Chestnut.Base
import Chestnut.Lib.CString
import Chestnut.Lib.Loop

/-!
# The text screen

`Terminal` draws characters into the screen memory of the display, a word for
each cell. `DrawString` keeps its column in eight bits and goes on counting
where `DrawChar` clips.

## Implementation notes

A word of screen memory is named by its index from `kVGABuffer`. `writes` is a
history variable: the indices stored to so far, which the program does not
keep. A `char` is a byte; it is signed, so widening it extends the sign.
-/

namespace Chestnut

open Lib

namespace Terminal

/-- `Terminal::Color`. -/
inductive Color
  | black
  | blue
  | green
  | cyan
  | red
  | magenta
  | brown
  | lightGrey
  | darkGrey
  | lightBlue
  | lightGreen
  | lightCyan
  | lightRed
  | lightMagenta
  | lightBrown
  | white
  deriving DecidableEq, Repr

def Color.code : Color → BitVec 8
  | .black => 0#8
  | .blue => 1#8
  | .green => 2#8
  | .cyan => 3#8
  | .red => 4#8
  | .magenta => 5#8
  | .brown => 6#8
  | .lightGrey => 7#8
  | .darkGrey => 8#8
  | .lightBlue => 9#8
  | .lightGreen => 10#8
  | .lightCyan => 11#8
  | .lightRed => 12#8
  | .lightMagenta => 13#8
  | .lightBrown => 14#8
  | .white => 15#8

def kVGAWidth : Nat := 80

def kVGAHeight : Nat := 25

/-- Screen memory. -/
structure Screen where
  words : Nat → BitVec 16
  writes : List Nat := []

/-- The local `color` of `DrawChar`. -/
def color (fg bg : Color) : BitVec 8 := fg.code ||| (bg.code <<< 4)

/-- The local `val` of `DrawChar`. -/
def cellWord (ch : BitVec 8) (fg bg : Color) : BitVec 16 :=
  ch.signExtend 16 ||| ((color fg bg).setWidth 16 <<< 8)

/-- `DrawChar`. -/
def drawChar (ch : BitVec 8) (fg bg : Color) (x y : BitVec 8) (s : Screen) : Screen :=
  if x.toNat ≥ kVGAWidth ∨ y.toNat ≥ kVGAHeight then s
  else
    let idx := x.toNat + y.toNat * kVGAWidth
    { words := Function.update s.words idx (cellWord ch fg bg), writes := idx :: s.writes }

/-- The locals of `DrawString`. -/
structure DrawState where
  p : Int
  x : BitVec 8
  screen : Screen

/-- The condition of the loop of `DrawString`. -/
def moreChars (m : Bytes) (st : DrawState) : Bool := m st.p != 0#8

/-- A turn of the loop of `DrawString`. -/
def drawNext (m : Bytes) (fg bg : Color) (y : BitVec 8) (st : DrawState) : DrawState where
  p := st.p + 1
  x := st.x + 1#8
  screen := drawChar (m st.p) fg bg st.x y st.screen

/-- `DrawString`. -/
def drawString (m : Bytes) (str : Int) (fg bg : Color) (x y : BitVec 8) (s : Screen)
    (fuel : Nat) : Option (Except Fault Screen) :=
  andThen (whileLoop (moreChars m) (pureBody (drawNext m fg bg y)) fuel ⟨str, x, s⟩)
    fun st => some (.ok st.screen)

/-- The string drawn character by character. -/
def drawChars (fg bg : Color) (y : BitVec 8) : List (BitVec 8) → BitVec 8 → Screen → Screen
  | [], _, s => s
  | ch :: str, x, s => drawChars fg bg y str (x + 1#8) (drawChar ch fg bg x y s)

/-- The last character of a string that lands in a column. -/
def landed : List (BitVec 8) → BitVec 8 → BitVec 8 → Option (BitVec 8)
  | [], _, _ => none
  | ch :: str, x, col =>
      match landed str (x + 1#8) col with
      | some ch' => some ch'
      | none => if x = col then some ch else none

section Draw

variable {m : Bytes} {fg bg : Color} {x y : BitVec 8} {str : List (BitVec 8)}

/-- The loop runs over the string and stops at the NUL behind it. -/
theorem ends_drawString {p : Int} (hstr : CString m p str) (fg bg : Color) (x y : BitVec 8)
    (s : Screen) :
    ∃ st : DrawState, Ends (moreChars m) (pureBody (drawNext m fg bg y)) ⟨p, x, s⟩
      (.ok st : Except Fault DrawState) ∧ st.screen = drawChars fg bg y str x s := by
  induction str generalizing p x s with
  | nil =>
      have hend : moreChars m ⟨p, x, s⟩ = false := by simp [moreChars, CString.nil_iff.mp hstr]
      exact ⟨⟨p, x, s⟩, .done hend, rfl⟩
  | cons ch str ih =>
      obtain ⟨hch, hne, hrest⟩ := CString.cons_iff.mp hstr
      have hmore : moreChars m ⟨p, x, s⟩ = true := by simp [moreChars, hch, hne]
      obtain ⟨st, hends, hst⟩ := ih hrest (x + 1#8) (drawChar (m p) fg bg x y s)
      refine ⟨st, .turn (n := 0) hmore rfl hends, ?_⟩
      rw [hst, hch]
      rfl

/-- With enough fuel `DrawString` draws the whole string. -/
theorem drawString_eq {p : Int} (hstr : CString m p str) (fg bg : Color) (x y : BitVec 8)
    (s : Screen) :
    ∃ n, ∀ fuel ≥ n, drawString m p fg bg x y s fuel = some (.ok (drawChars fg bg y str x s)) := by
  obtain ⟨st, hends, hst⟩ := ends_drawString hstr fg bg x y s
  obtain ⟨n, hn⟩ := hends.whileLoop (fuelMono_pureBody _)
  refine ⟨n, fun fuel hfuel => ?_⟩
  rw [drawString, hn fuel hfuel, andThen_ok, hst]

/-- A cell of the row after one character. -/
theorem drawChar_cell {col : Nat} (hcol : col < kVGAWidth) (hy : y.toNat < kVGAHeight)
    (ch : BitVec 8) (s : Screen) :
    (drawChar ch fg bg x y s).words (col + y.toNat * kVGAWidth) =
      if x = BitVec.ofNat 8 col then cellWord ch fg bg
      else s.words (col + y.toNat * kVGAWidth) := by
  have h80 : kVGAWidth = 80 := rfl
  have hx : x = BitVec.ofNat 8 col ↔ x.toNat = col := by
    rw [← BitVec.toNat_inj, BitVec.toNat_ofNat, Nat.mod_eq_of_lt (by omega)]
  rw [drawChar, if_congr hx rfl rfl]
  by_cases hclip : x.toNat ≥ kVGAWidth ∨ y.toNat ≥ kVGAHeight
  · rw [if_pos hclip, if_neg (by omega)]
  · rw [if_neg hclip]
    by_cases hc : x.toNat = col
    · rw [if_pos hc, hc]
      exact Function.update_self _ _ _
    · rw [if_neg hc]
      exact Function.update_of_ne (by omega) _ _

/-- Other rows are left alone. -/
theorem drawChar_row {col row : Nat} (hcol : col < kVGAWidth) (hrow : row ≠ y.toNat)
    (ch : BitVec 8) (s : Screen) :
    (drawChar ch fg bg x y s).words (col + row * kVGAWidth) =
      s.words (col + row * kVGAWidth) := by
  rw [drawChar]
  by_cases hclip : x.toNat ≥ kVGAWidth ∨ y.toNat ≥ kVGAHeight
  · rw [if_pos hclip]
  · rw [if_neg hclip]
    apply Function.update_of_ne
    simp only [kVGAWidth] at hcol hclip ⊢
    omega

/-- A cell of the row after a string holds what landed there last. -/
theorem drawChars_cell {col : Nat} (hcol : col < kVGAWidth) (hy : y.toNat < kVGAHeight)
    (s : Screen) :
    (drawChars fg bg y str x s).words (col + y.toNat * kVGAWidth) =
      match landed str x (BitVec.ofNat 8 col) with
      | some ch => cellWord ch fg bg
      | none => s.words (col + y.toNat * kVGAWidth) := by
  induction str generalizing x s with
  | nil => rfl
  | cons ch str ih =>
      rw [drawChars, ih, landed, drawChar_cell hcol hy]
      cases landed str (x + 1#8) (BitVec.ofNat 8 col) with
      | some ch' => rfl
      | none =>
          by_cases hx : x = BitVec.ofNat 8 col
          · simp only [if_pos hx]
          · simp only [if_neg hx]

theorem drawChars_row {col row : Nat} (hcol : col < kVGAWidth) (hrow : row ≠ y.toNat)
    (s : Screen) :
    (drawChars fg bg y str x s).words (col + row * kVGAWidth) =
      s.words (col + row * kVGAWidth) := by
  induction str generalizing x s with
  | nil => rfl
  | cons ch str ih => rw [drawChars, ih, drawChar_row hcol hrow]

/-- Characters land in a column every 256 places. -/
theorem landed_eq (str : List (BitVec 8)) (x col : BitVec 8) :
    landed str x col =
      str[(col - x).toNat + 256 * ((str.length - 1 - (col - x).toNat) / 256)]? := by
  induction str generalizing x with
  | nil => rfl
  | cons ch str ih =>
      rw [landed, ih, List.length_cons, Nat.add_sub_cancel]
      by_cases hx : x = col
      · subst hx
        have hlast : (x - (x + 1#8)).toNat = 255 := by bv_omega
        have hzero : (x - x).toNat = 0 := by bv_omega
        rw [hlast, hzero]
        rcases Nat.lt_or_ge str.length 256 with hlt | hge
        · rw [List.getElem?_eq_none (by omega), if_pos rfl, Nat.sub_zero, Nat.div_eq_of_lt hlt]
          rfl
        · have hidx : 0 + 256 * ((str.length - 0) / 256) =
              255 + 256 * ((str.length - 1 - 255) / 256) + 1 := by omega
          rw [hidx, List.getElem?_cons_succ, List.getElem?_eq_getElem (by omega)]
      · have hdist : (col - x).toNat = (col - (x + 1#8)).toNat + 1 := by bv_omega
        have hidx : (col - x).toNat + 256 * ((str.length - (col - x).toNat) / 256) =
            (col - (x + 1#8)).toNat +
              256 * ((str.length - 1 - (col - (x + 1#8)).toNat) / 256) + 1 := by omega
        rw [hidx, List.getElem?_cons_succ, if_neg hx]
        split <;> simp_all

/-- The low byte of a cell is its character. -/
theorem cellWord_low (ch : BitVec 8) (fg bg : Color) : (cellWord ch fg bg).setWidth 8 = ch := by
  apply BitVec.eq_of_getLsbD_eq
  intro i hi
  have h16 : i < 16 := by omega
  simp only [cellWord, BitVec.getLsbD_setWidth, BitVec.getLsbD_or, BitVec.getLsbD_signExtend,
    BitVec.getLsbD_shiftLeft]
  simp [hi, h16]

end Draw

/-- A string drawn from `(x, y)` on: the cells up to the right edge hold its
characters, all others are as before. -/
structure Clipped (str : List (BitVec 8)) (x y : BitVec 8) (s s' : Screen) : Prop where
  drawn : ∀ k ch, str[k]? = some ch → x.toNat + k < kVGAWidth →
    (s'.words (x.toNat + k + y.toNat * kVGAWidth)).setWidth 8 = ch
  kept : ∀ col < kVGAWidth, ∀ row < kVGAHeight,
    (∀ k < str.length, ¬ (col = x.toNat + k ∧ row = y.toNat)) →
    s'.words (col + row * kVGAWidth) = s.words (col + row * kVGAWidth)

/-- The strings that are clipped: those whose column does not wrap, and those
that wrap onto themselves. -/
def Fits (str : List (BitVec 8)) (x : BitVec 8) : Prop :=
  x.toNat + str.length ≤ 256 ∨
    x = 0#8 ∧ ∀ col < kVGAWidth, str[col + 256 * ((str.length - 1 - col) / 256)]? = str[col]?

section Clip

variable {fg bg : Color} {x y : BitVec 8} {str : List (BitVec 8)}

theorem sub_toNat_of_le {col : Nat} (hcol : col < kVGAWidth) (hx : x.toNat ≤ col) :
    (BitVec.ofNat 8 col - x).toNat = col - x.toNat := by
  have h80 : kVGAWidth = 80 := rfl
  bv_omega

theorem sub_toNat_of_lt {col : Nat} (hx : col < x.toNat) :
    (BitVec.ofNat 8 col - x).toNat = 256 + col - x.toNat := by
  bv_omega

/-- A string that fits leaves character `k` in the cell of character `k`. -/
theorem Fits.landed (h : Fits str x) {k : Nat} (hk : x.toNat + k < kVGAWidth) :
    Terminal.landed str x (BitVec.ofNat 8 (x.toNat + k)) = str[k]? := by
  have hdist : x.toNat + k - x.toNat = k := by omega
  rw [landed_eq, sub_toNat_of_le hk (Nat.le_add_right _ _), hdist]
  rcases h with hle | ⟨rfl, hcol⟩
  · have hq : (str.length - 1 - k) / 256 = 0 := Nat.div_eq_of_lt (by omega)
    rw [hq, Nat.mul_zero, Nat.add_zero]
  · rw [BitVec.toNat_zero, Nat.zero_add] at hk
    exact hcol k hk

/-- A string that fits lands nowhere else. -/
theorem Fits.landed_none (h : Fits str x) {col : Nat} (hcol : col < kVGAWidth)
    (hout : ∀ k < str.length, col ≠ x.toNat + k) :
    Terminal.landed str x (BitVec.ofNat 8 col) = none := by
  rw [landed_eq, List.getElem?_eq_none_iff]
  rcases Nat.lt_or_ge col x.toNat with hlt | hge
  · rw [sub_toNat_of_lt hlt]
    rcases h with hle | ⟨rfl, -⟩
    · omega
    · cases hlt
  · have hlen : str.length ≤ col - x.toNat := by
      by_contra hlen
      exact hout (col - x.toNat) (by omega) (by omega)
    rw [sub_toNat_of_le hcol hge]
    omega

theorem clipped_of_fits (h : Fits str x) (hy : y.toNat < kVGAHeight) (s : Screen) :
    Clipped str x y s (drawChars fg bg y str x s) := by
  constructor
  · intro k ch hch hk
    rw [drawChars_cell hk hy, h.landed hk, hch]
    exact cellWord_low ch fg bg
  · intro col hcol row _ hout
    by_cases hrow : row = y.toNat
    · subst hrow
      rw [drawChars_cell hcol hy, h.landed_none hcol fun k hk hc => hout k hk ⟨hc, rfl⟩]
    · exact drawChars_row hcol hrow s

/-- Conversely, a string that does not fit shows it on some screen. -/
theorem fits_of_clipped (fg bg : Color) (hx : x.toNat < kVGAWidth) (hy : y.toNat < kVGAHeight)
    (h : ∀ s, Clipped str x y s (drawChars fg bg y str x s)) : Fits str x := by
  have h80 : kVGAWidth = 80 := rfl
  by_contra hfit
  obtain ⟨hlen, hself⟩ := not_or.mp hfit
  by_cases hzero : x = 0#8
  · -- the row is overwritten from its start, by other characters
    apply hself
    refine ⟨hzero, fun col hcol => ?_⟩
    subst hzero
    rw [BitVec.toNat_zero] at hlen
    have hdrawn := (h ⟨fun _ => 0#16, []⟩).drawn col _ (List.getElem?_eq_getElem (by omega))
      (by rwa [BitVec.toNat_zero, Nat.zero_add])
    rw [BitVec.toNat_zero, Nat.zero_add, drawChars_cell hcol hy, landed_eq,
      sub_toNat_of_le hcol (Nat.zero_le _), BitVec.toNat_zero, Nat.sub_zero,
      List.getElem?_eq_getElem (by omega)] at hdrawn
    rw [List.getElem?_eq_getElem (by omega), List.getElem?_eq_getElem (by omega)]
    exact congrArg some ((cellWord_low _ fg bg).symm.trans hdrawn)
  · -- the string reaches the left of its start
    have hpos : 0 < x.toNat := by
      rw [Nat.pos_iff_ne_zero]
      exact fun h0 => hzero (BitVec.eq_of_toNat_eq h0)
    have hidx : 256 - x.toNat + 256 * ((str.length - 1 - (256 - x.toNat)) / 256) <
        str.length := by omega
    have hland : landed str x (BitVec.ofNat 8 0) = some str[256 - x.toNat +
        256 * ((str.length - 1 - (256 - x.toNat)) / 256)] := by
      rw [landed_eq, sub_toNat_of_lt hpos]
      exact List.getElem?_eq_getElem hidx
    have hkept := (h ⟨fun _ => ~~~ cellWord (str[256 - x.toNat +
        256 * ((str.length - 1 - (256 - x.toNat)) / 256)]) fg bg, []⟩).kept 0 (by decide)
        y.toNat hy (by intro k _; omega)
    rw [drawChars_cell (by decide) hy, hland] at hkept
    exact absurd hkept.symm (by simp)

end Clip

/-- `DrawString` clips at the right edge, on every screen, exactly for the
strings that fit: the column is kept in eight bits, so a character 256 columns
further right lands in the same cell again. -/
theorem drawString_clips_iff (m : Bytes) (p : Int) (str : List (BitVec 8)) (fg bg : Color)
    (x y : BitVec 8) (hstr : CString m p str) (hx : x.toNat < kVGAWidth)
    (hy : y.toNat < kVGAHeight) :
    (∀ s, ∃ n, ∀ fuel ≥ n, ∃ s', drawString m p fg bg x y s fuel = some (.ok s') ∧
      Clipped str x y s s') ↔ Fits str x := by
  constructor
  · intro h
    refine fits_of_clipped fg bg hx hy fun s => ?_
    obtain ⟨n, hn⟩ := h s
    obtain ⟨k, hk⟩ := drawString_eq hstr fg bg x y s
    obtain ⟨s', hs', hclip⟩ := hn (max n k) (Nat.le_max_left n k)
    rw [hk (max n k) (Nat.le_max_right n k)] at hs'
    cases hs'
    exact hclip
  · intro h s
    obtain ⟨n, hn⟩ := drawString_eq hstr fg bg x y s
    exact ⟨n, fun fuel hfuel => ⟨_, hn fuel hfuel, clipped_of_fits h hy s⟩⟩

theorem drawString_clips_iff_corner :
    (∀ s, ∃ n, ∀ fuel ≥ n, ∃ s', drawString (Bytes.ofList 0 [0x41#8, 0x42#8, 0#8]) 0 .white .black
      79#8 24#8 s fuel = some (.ok s') ∧ Clipped [0x41#8, 0x42#8] 79#8 24#8 s s') ∧
      Fits [0x41#8, 0x42#8] 79#8 := by
  have hfits : Fits [0x41#8, 0x42#8] 79#8 := Or.inl (by decide)
  exact ⟨(drawString_clips_iff _ 0 _ .white .black 79#8 24#8
    ⟨Bytes.holds_ofList 0 _, by decide⟩ (by decide) (by decide)).mpr hfits, hfits⟩

/-- A character 256 places after the first lies over it. -/
theorem not_clipped_of_wrap {n : Nat} (hn : n = 256) {a b : BitVec 8} (hab : b ≠ a)
    (fg bg : Color) (s : Screen) :
    ¬ Clipped (List.replicate n a ++ [b]) 0#8 0#8 s
      (drawChars fg bg 0#8 (List.replicate n a ++ [b]) 0#8 s) := by
  intro hclip
  have hfirst : (List.replicate n a ++ [b])[0]? = some a := by
    rw [List.getElem?_append_left (by rw [List.length_replicate]; omega),
      List.getElem?_replicate_of_lt (by omega)]
  have hland : landed (List.replicate n a ++ [b]) 0#8 (BitVec.ofNat 8 0) = some b := by
    have hidx : ((BitVec.ofNat 8 0) - 0#8).toNat +
        256 * ((n + 1 - 1 - ((BitVec.ofNat 8 0) - 0#8).toNat) / 256) = n := by
      rw [BitVec.sub_zero, BitVec.toNat_ofNat]
      omega
    rw [landed_eq, List.length_append, List.length_replicate, List.length_singleton, hidx,
      List.getElem?_append_right (Nat.le_of_eq List.length_replicate), List.length_replicate,
      Nat.sub_self]
    rfl
  have hcell := hclip.drawn 0 a hfirst (by decide)
  rw [Nat.add_zero, drawChars_cell (by decide) (by decide)] at hcell
  simp only [BitVec.toNat_zero, hland] at hcell
  exact hab ((cellWord_low b fg bg).symm.trans hcell)

/-- 256 times `A`, then `B`. -/
def overlong : List (BitVec 8) := List.replicate 256 0x41#8 ++ [0x42#8]

/-- A string of 257 characters from column 0 on: the last one lies over the first. -/
theorem drawString_wraps :
    ∃ n, ∀ fuel ≥ n, ∃ s', drawString (Bytes.ofList 0 (overlong ++ [0#8])) 0 .white .black
        0#8 0#8 ⟨fun _ => 0#16, []⟩ fuel = some (.ok s') ∧
      ¬ Clipped overlong 0#8 0#8 ⟨fun _ => 0#16, []⟩ s' := by
  have htext : 0#8 ∉ overlong := by
    intro hch
    rcases List.mem_append.mp hch with h | h
    · exact absurd (List.eq_of_mem_replicate h) (by decide)
    · exact absurd (List.mem_singleton.mp h) (by decide)
  obtain ⟨n, hn⟩ := drawString_eq ⟨Bytes.holds_ofList 0 _, htext⟩ .white .black 0#8 0#8
    ⟨fun _ => 0#16, []⟩
  exact ⟨n, fun fuel hfuel => ⟨_, hn fuel hfuel,
    not_clipped_of_wrap rfl (by decide) .white .black _⟩⟩

end Terminal

end Chestnut
