import Chestnut.Console.Screen

/-!
# What the display shows

Cells are drawn one at a time and all together by a scroll. `Shows` is what
holds of every stream: a cell that was drawn holds what `DrawChar` makes of the
character in the array. `Mirrors` is what it should hold. The two differ where
a character with its top bit set is widened with its sign.
-/

namespace Chestnut

open Lib Terminal

namespace VGABuffer

/-- The cells drawn so far hold what `DrawChar` makes of the array. -/
structure Shows (fg bg : Color) (w : VGABuffer) : Prop where
  shown : ∀ row col : Nat, row < kVGAHeight → col < kVGAWidth →
    col + row * kVGAWidth ∈ w.screen.writes →
    w.screen.words (col + row * kVGAWidth) = cellWord (w.vgaBuffer row col) fg bg
  inside : ∀ k ∈ w.screen.writes, k < kVGAHeight * kVGAWidth

/-- The cells drawn so far hold character and colours. -/
structure Mirrors (fg bg : Color) (w : VGABuffer) : Prop where
  shown : ∀ row col : Nat, row < kVGAHeight → col < kVGAWidth →
    col + row * kVGAWidth ∈ w.screen.writes →
    w.screen.words (col + row * kVGAWidth) = color fg bg ++ w.vgaBuffer row col
  inside : ∀ k ∈ w.screen.writes, k < kVGAHeight * kVGAWidth

namespace Shows

variable {fg bg : Color} {w w' : VGABuffer} {p : TextPage}

theorem wrap (S : Shows fg bg w) : Shows fg bg w.wrap := by
  rw [VGABuffer.wrap]
  split
  · exact ⟨S.shown, S.inside⟩
  · exact S

theorem scroll (S : Shows fg bg w) (hw : w.OnScreen) (hrun : w.scroll fg bg = .ok w') :
    Shows fg bg w' := by
  by_cases hy : w.y = kVGAHeight
  · obtain ⟨w₁, hrun₁, R⟩ := scroll_spec fg bg hy
    rw [hrun] at hrun₁
    cases hrun₁
    exact ⟨fun row col hrow hcol _ => R.shown row col hrow hcol,
      fun k hk => (R.inside k hk).elim id (S.inside k)⟩
  · have hle := hw.y_le
    rw [VGABuffer.scroll, if_neg (by omega)] at hrun
    cases hrun
    exact S

theorem put (S : Shows fg bg w) (hw : w.OnScreen) (hx : w.x < kVGAWidth) (hy : w.y < kVGAHeight)
    {ch : BitVec 8} (hrun : w.put fg bg ch = .ok w') : Shows fg bg w' := by
  have hx0 := hw.x_nonneg
  have hy0 := hw.y_nonneg
  by_cases hch : ch = 0x0A#8
  · rw [VGABuffer.put, if_pos hch] at hrun
    cases hrun
    exact ⟨S.shown, S.inside⟩
  · obtain ⟨w₁, hrun₁, P⟩ := put_spec fg bg hch ⟨hx0, hx⟩ ⟨hy0, hy⟩
    rw [hrun] at hrun₁
    cases hrun₁
    constructor
    · intro row col hrow hcol hmem
      rw [P.words row col hcol, P.cells row col]
      by_cases hat : (row : Int) = w.y ∧ (col : Int) = w.x
      · rw [if_pos hat, if_pos hat]
      · rw [if_neg hat, if_neg hat]
        apply S.shown row col hrow hcol
        rw [P.writes] at hmem
        refine (List.mem_cons.mp hmem).resolve_left fun heq => hat ?_
        simp only [kVGAWidth] at heq hcol hx
        omega
    · intro k hk
      rw [P.writes] at hk
      rcases List.mem_cons.mp hk with rfl | hk
      · simp only [kVGAHeight, kVGAWidth] at hx hy ⊢
        omega
      · exact S.inside k hk

/-- Step lemma; a character that is no newline is in the array and drawn. -/
theorem writeByte (S : Shows fg bg w) (W : Window p w) (ch : BitVec 8) :
    ∃ w', w.writeByte fg bg ch = .ok w' ∧ Window (p.write ch) w' ∧ Shows fg bg w' ∧
      (ch ≠ 0x0A#8 → ∃ row col : Nat, row < kVGAHeight ∧ col < kVGAWidth ∧
        col + row * kVGAWidth ∈ w'.screen.writes ∧ w'.vgaBuffer row col = ch) := by
  obtain ⟨W₁, hx₁⟩ := W.wrap
  obtain ⟨w₂, hscroll, W₂, hx₂, hy₂⟩ := W₁.scroll hx₁ fg bg
  have S₂ := S.wrap.scroll W₁.toOnScreen hscroll
  obtain ⟨w₃, hput, W₃⟩ := W₂.put hx₂ hy₂ fg bg ch
  refine ⟨w₃, ?_, W₃, S₂.put W₂.toOnScreen hx₂ hy₂ hput, fun hch => ?_⟩
  · rw [VGABuffer.writeByte, hscroll]
    exact hput
  · have hx0 := W₂.x_nonneg
    have hy0 := W₂.y_nonneg
    obtain ⟨w₄, hput', P⟩ := put_spec fg bg hch ⟨hx0, hx₂⟩ ⟨hy0, hy₂⟩
    rw [hput] at hput'
    cases hput'
    refine ⟨w₂.y.toNat, w₂.x.toNat, by omega, by omega, ?_, ?_⟩
    · rw [P.writes]
      exact List.mem_cons_self
    · rw [P.cells, if_pos (by omega)]

/-- Run lemma. -/
theorem writeAll (S : Shows fg bg w) (W : Window p w) (bs : List (BitVec 8)) :
    ∃ w', w.writeAll fg bg bs = .ok w' ∧ Window (p.writeAll bs) w' ∧ Shows fg bg w' := by
  induction bs generalizing p w with
  | nil => exact ⟨w, rfl, W, S⟩
  | cons ch bs ih =>
      obtain ⟨w₁, hstep, W₁, S₁, -⟩ := S.writeByte W ch
      obtain ⟨w₂, hrun, W₂, S₂⟩ := ih S₁ W₁
      refine ⟨w₂, ?_, W₂, S₂⟩
      rw [VGABuffer.writeAll, List.foldlM_cons, hstep]
      exact hrun

theorem construct (fg bg : Color) (words : Nat → BitVec 16) :
    Shows fg bg (VGABuffer.construct ⟨words, []⟩) :=
  ⟨fun _ _ _ _ h => absurd h List.not_mem_nil, fun _ h => absurd h List.not_mem_nil⟩

end Shows

end VGABuffer

/-- The page holds nothing but the stream and blanks. -/
theorem TextPage.writeAll_grid (bs : List (BitVec 8)) (p : TextPage) (r c : Nat) :
    (p.writeAll bs).grid r c = p.grid r c ∨ (p.writeAll bs).grid r c ∈ bs := by
  induction bs generalizing p with
  | nil => exact Or.inl rfl
  | cons ch bs ih =>
      have hone : (p.write ch).grid r c = p.grid r c ∨ (p.write ch).grid r c = ch := by
        have hwrap : p.wrap.grid = p.grid := by
          rw [TextPage.wrap]
          split <;> rfl
        rw [TextPage.write, TextPage.put, hwrap]
        split
        · exact Or.inl rfl
        · simp only
          split
          · exact Or.inr rfl
          · exact Or.inl rfl
      rcases ih (p.write ch) with h | h
      · have hrun : (p.writeAll (ch :: bs)).grid r c = (p.write ch).grid r c := h
        rcases hone with h' | h'
        · exact Or.inl (hrun.trans h')
        · exact Or.inr (by rw [hrun, h']; exact List.mem_cons_self)
      · exact Or.inr (List.mem_cons_of_mem ch h)

namespace Terminal

theorem color_eq_ones (fg bg : Color) : color fg bg = 0xFF#8 ↔ fg = .white ∧ bg = .white := by
  cases fg <;> cases bg <;> decide

/-- The sign of the character runs through the colour byte. -/
theorem cellWord_eq (ch : BitVec 8) (fg bg : Color) :
    cellWord ch fg bg = (if ch.msb then 0xFF#8 else color fg bg) ++ ch := by
  apply BitVec.eq_of_getLsbD_eq
  intro i hi
  rw [BitVec.getLsbD_append]
  simp only [cellWord, BitVec.getLsbD_or, BitVec.getLsbD_signExtend, BitVec.getLsbD_shiftLeft,
    BitVec.getLsbD_setWidth]
  by_cases h8 : i < 8
  · simp [h8, hi]
  · have hones : ∀ j < 8, (0xFF#8).getLsbD j = true := by decide
    have hsub : i - 8 < 16 := by omega
    cases ch.msb with
    | true => simp [h8, hi, hones (i - 8) (by omega)]
    | false => simp [h8, hi, hsub]

/-- A cell is drawn right unless its character is negative and the colours
leave some bit out. -/
theorem cellWord_eq_iff (ch : BitVec 8) (fg bg : Color) :
    cellWord ch fg bg = color fg bg ++ ch ↔
      (fg = .white ∧ bg = .white) ∨ ch.toNat < 128 := by
  have hmsb : ch.msb = decide (128 ≤ ch.toNat) := BitVec.msb_eq_decide ch
  rw [cellWord_eq, ← color_eq_ones]
  by_cases hneg : 128 ≤ ch.toNat
  · rw [hmsb, if_pos (decide_eq_true hneg), or_iff_left (by omega)]
    constructor
    · intro heq
      have hhigh := congrArg (BitVec.extractLsb' 8 8) heq
      rw [BitVec.extractLsb'_append_eq_of_le (by decide),
        BitVec.extractLsb'_append_eq_of_le (by decide)] at hhigh
      exact (BitVec.extractLsb'_eq_self.symm.trans hhigh.symm).trans BitVec.extractLsb'_eq_self
    · intro heq
      rw [heq]
  · rw [hmsb, if_neg (by simpa using hneg)]
    exact ⟨fun _ => Or.inr (by omega), fun _ => rfl⟩

end Terminal

namespace VGABuffer

variable {fg bg : Color} {w : VGABuffer}

theorem Shows.mirrors (S : Shows fg bg w)
    (h : (fg = .white ∧ bg = .white) ∨ ∀ row col : Nat, row < kVGAHeight → col < kVGAWidth →
      (w.vgaBuffer row col).toNat < 128) : Mirrors fg bg w := by
  refine ⟨fun row col hrow hcol hmem => ?_, S.inside⟩
  rw [S.shown row col hrow hcol hmem, cellWord_eq_iff]
  exact h.imp_right fun hlow => hlow row col hrow hcol

/-- The screen mirrors the array all through a stream exactly when the stream
has no byte from 128 on, whatever the screen held before; with white on white
any stream will do. -/
theorem mirrors_iff (fg bg : Color) (words : Nat → BitVec 16) (bs : List (BitVec 8)) :
    (∀ pre, pre <+: bs → ∃ w, (construct ⟨words, []⟩).writeAll fg bg pre = .ok w ∧
      Mirrors fg bg w) ↔ (fg = .white ∧ bg = .white) ∨ ∀ ch ∈ bs, ch.toNat < 128 := by
  constructor
  · intro h
    by_contra hnot
    push Not at hnot
    obtain ⟨hcolor, ch, hmem, hch⟩ := hnot
    obtain ⟨pre, post, rfl⟩ := List.mem_iff_append.mp hmem
    -- the first such byte is wrong as soon as it is written
    obtain ⟨w, hrun, W, S⟩ :=
      (Shows.construct fg bg words).writeAll (Window.construct ⟨words, []⟩) pre
    obtain ⟨w', hstep, -, S', hdrawn⟩ := S.writeByte W ch
    have hdraws : ch ≠ 10#8 := by
      rintro rfl
      exact absurd hch (by decide)
    obtain ⟨row, col, hrow, hcol, hat, hcell⟩ := hdrawn hdraws
    obtain ⟨w'', hrun', M⟩ := h (pre ++ [ch]) ⟨post, by simp⟩
    have hsame : (construct ⟨words, []⟩).writeAll fg bg (pre ++ [ch]) = .ok w' := by
      rw [VGABuffer.writeAll] at hrun ⊢
      rw [List.foldlM_append, hrun, ok_bind, List.foldlM_cons, hstep]
      rfl
    rw [hsame] at hrun'
    cases hrun'
    have hword := (S'.shown row col hrow hcol hat).symm.trans (M.shown row col hrow hcol hat)
    rw [hcell, cellWord_eq_iff] at hword
    rcases hword with hwhite | hlow
    · exact hcolor hwhite.1 hwhite.2
    · omega
  · intro h pre hpre
    obtain ⟨w, hrun, W, S⟩ :=
      (Shows.construct fg bg words).writeAll (Window.construct ⟨words, []⟩) pre
    refine ⟨w, hrun, S.mirrors (h.imp_right fun hlow row col hrow hcol => ?_)⟩
    rw [W.cells row col hrow hcol]
    rcases TextPage.writeAll_grid pre TextPage.blank (w.scrolls + row) col with hg | hg
    · rw [hg]
      exact (by decide : (0#8).toNat < 128)
    · exact hlow _ (hpre.subset hg)

/-- The byte 128 in white on black. -/
theorem not_mirrors_negative :
    ∃ w, (construct ⟨fun _ => 0#16, []⟩).writeAll .white .black [0x80#8] = .ok w ∧
      ¬ Mirrors .white .black w := by
  refine ⟨_, rfl, fun M => ?_⟩
  have hword := M.shown 0 0 (by decide) (by decide) (by decide)
  exact absurd hword (by decide)

end VGABuffer

end Chestnut
