import Chestnut.Console.Terminal

/-!
# The scrolling buffer

`VGABuffer::WriteByte` keeps the characters on the screen in an array of 25
rows. Wrapping and scrolling are done lazily, before the next byte is handled.
The array is a window on a page without end: `TextPage` is that page, `Window` the
relation between the two.

## Implementation notes

The array is a function of row and column, and an access outside of its bounds
faults. `scrolls` counts how often the screen was moved up, which the program
does not. The terminal is the global one; its colours do not change.
-/

namespace Chestnut

open Lib Terminal

/-- The array `vga_buffer`. -/
abbrev Cells : Type := Int → Int → BitVec 8

namespace Cells

/-- The indices of the array. -/
def InBounds (i j : Int) : Prop := 0 ≤ i ∧ i < kVGAHeight ∧ 0 ≤ j ∧ j < kVGAWidth

instance (i j : Int) : Decidable (InBounds i j) := inferInstanceAs (Decidable (_ ∧ _))

def load (b : Cells) (i j : Int) : Except Fault (BitVec 8) :=
  if InBounds i j then .ok (b i j) else .error .outOfBounds

def store (b : Cells) (i j : Int) (ch : BitVec 8) : Except Fault Cells :=
  if InBounds i j then .ok fun i' j' => if i' = i ∧ j' = j then ch else b i' j'
  else .error .outOfBounds

/-- The body of the first loop of a scroll. -/
def copyCell (i j : Nat) (b : Cells) : Except Fault Cells := do
  let ch ← b.load (i + 1) j
  b.store i j ch

/-- The first loop of a scroll: every row but the last takes the next one. -/
def copyRows (b : Cells) : Except Fault Cells :=
  forLoop (fun i => forLoop (copyCell i) kVGAWidth) (kVGAHeight - 1) b

/-- The body of the second loop of a scroll. -/
def clearCell (j : Nat) (b : Cells) : Except Fault Cells := b.store (kVGAHeight - 1) j 0#8

/-- The second loop of a scroll. -/
def clearLast (b : Cells) : Except Fault Cells := forLoop clearCell kVGAWidth b

/-- The body of the third loop of a scroll. -/
def redrawCell (b : Cells) (fg bg : Color) (i j : Nat) (s : Screen) : Except Fault Screen := do
  let ch ← b.load i j
  return drawChar ch fg bg (BitVec.ofNat 8 j) (BitVec.ofNat 8 i) s

/-- The third loop of a scroll. -/
def redraw (b : Cells) (fg bg : Color) (s : Screen) : Except Fault Screen :=
  forLoop (fun i => forLoop (b.redrawCell fg bg i) kVGAWidth) kVGAHeight s

end Cells

/-- A `VGABuffer` and the screen that it draws on. -/
structure VGABuffer where
  x : Int
  y : Int
  vgaBuffer : Cells
  screen : Screen
  scrolls : Nat := 0

namespace VGABuffer

/-- The constructor. -/
def construct (s : Screen) : VGABuffer where
  x := 0
  y := 0
  vgaBuffer := fun _ _ => 0#8
  screen := s

/-- The first `if` of `WriteByte`. -/
def wrap (w : VGABuffer) : VGABuffer :=
  if w.x ≥ kVGAWidth then { w with x := 0, y := w.y + 1 } else w

/-- The second `if` of `WriteByte`. -/
def scroll (fg bg : Color) (w : VGABuffer) : Except Fault VGABuffer :=
  if w.y ≥ kVGAHeight then do
    let b ← w.vgaBuffer.copyRows
    let b ← b.clearLast
    let s ← b.redraw fg bg w.screen
    return { w with vgaBuffer := b, screen := s, y := kVGAHeight - 1, scrolls := w.scrolls + 1 }
  else .ok w

/-- The rest of `WriteByte`. -/
def put (fg bg : Color) (ch : BitVec 8) (w : VGABuffer) : Except Fault VGABuffer :=
  if ch = 0x0A#8 then .ok { w with x := 0, y := w.y + 1 }
  else do
    let s := drawChar ch fg bg (BitVec.ofInt 8 w.x) (BitVec.ofInt 8 w.y) w.screen
    let b ← w.vgaBuffer.store w.y w.x ch
    return { w with vgaBuffer := b, screen := s, x := w.x + 1 }

/-- `WriteByte`. -/
def writeByte (fg bg : Color) (ch : BitVec 8) (w : VGABuffer) : Except Fault VGABuffer := do
  let w ← w.wrap.scroll fg bg
  w.put fg bg ch

/-- A stream of bytes. -/
def writeAll (fg bg : Color) (bs : List (BitVec 8)) (w : VGABuffer) : Except Fault VGABuffer :=
  bs.foldlM (fun w ch => w.writeByte fg bg ch) w

end VGABuffer

/-- A page without end and the cursor on it. -/
structure TextPage where
  grid : Nat → Nat → BitVec 8
  X : Nat
  Y : Nat

namespace TextPage

def blank : TextPage := ⟨fun _ _ => 0#8, 0, 0⟩

def wrap (p : TextPage) : TextPage := if p.X = 80 then { p with X := 0, Y := p.Y + 1 } else p

def put (ch : BitVec 8) (p : TextPage) : TextPage :=
  if ch = 0x0A#8 then { p with X := 0, Y := p.Y + 1 }
  else { p with
    grid := fun r c => if r = p.Y ∧ c = p.X then ch else p.grid r c
    X := p.X + 1 }

/-- A byte wraps first and is handled then. -/
def write (p : TextPage) (ch : BitVec 8) : TextPage := p.wrap.put ch

def writeAll (bs : List (BitVec 8)) (p : TextPage) : TextPage := bs.foldl write p

end TextPage

namespace Cells

variable {b : Cells} {i j : Nat}

theorem inBounds_cast (hi : i < kVGAHeight) (hj : j < kVGAWidth) : InBounds i j := by
  simp only [InBounds]
  omega

theorem load_eq (hi : i < kVGAHeight) (hj : j < kVGAWidth) : b.load i j = .ok (b i j) :=
  if_pos (inBounds_cast hi hj)

/-- A store within the bounds. -/
theorem store_spec (hi : i < kVGAHeight) (hj : j < kVGAWidth) (ch : BitVec 8) :
    ∃ b' : Cells, b.store i j ch = .ok b' ∧
      ∀ i' j' : Nat, b' i' j' = if i' = i ∧ j' = j then ch else b i' j' := by
  refine ⟨_, if_pos (inBounds_cast hi hj), fun i' j' => if_congr ?_ rfl rfl⟩
  rw [Int.natCast_inj, Int.natCast_inj]

theorem copyCell_spec (hi : i + 1 < kVGAHeight) (hj : j < kVGAWidth) :
    ∃ b', copyCell i j b = .ok b' ∧
      ∀ i' j' : Nat, b' i' j' = if i' = i ∧ j' = j then b (i + 1 : Nat) j else b i' j' := by
  obtain ⟨b', hstore, hb'⟩ := store_spec (b := b) (Nat.lt_of_succ_lt hi) hj (b (i + 1 : Nat) j)
  refine ⟨b', ?_, hb'⟩
  have hload : b.load (↑i + 1) ↑j = .ok (b (i + 1 : Nat) j) := load_eq hi hj
  rw [copyCell, hload]
  exact hstore

/-- A loop over the columns of one row, on the columns that exist. -/
theorem row_spec {x : Except Fault Cells} {f : Nat → BitVec 8}
    (h : ∃ b', x = .ok b' ∧ ∀ i' j' : Nat,
      b' i' j' = if i' = i ∧ j' < kVGAWidth then f j' else b i' j') :
    ∃ b', x = .ok b' ∧ ∀ i' j' : Nat, j' < kVGAWidth →
      b' i' j' = if i' = i then f j' else b i' j' := by
  obtain ⟨b', hb, hcells⟩ := h
  refine ⟨b', hb, fun i' j' hj' => ?_⟩
  rw [hcells]
  exact if_congr (and_iff_left hj') rfl rfl

/-- One row of `copyRows`; the row below it is still the old one. -/
theorem copyRow_spec (hi : i + 1 < kVGAHeight) :
    ∃ b', forLoop (copyCell i) kVGAWidth b = .ok b' ∧ ∀ i' j' : Nat, j' < kVGAWidth →
      b' i' j' = if i' = i then b (i + 1 : Nat) j' else b i' j' := by
  apply row_spec
  refine forLoop_inv (fun c (b' : Cells) => ∀ i' j' : Nat,
    b' i' j' = if i' = i ∧ j' < c then b (i + 1 : Nat) j' else b i' j') (by simp) ?_
  intro j hj b₁ hI
  obtain ⟨b₂, hcell, hb₂⟩ := copyCell_spec (b := b₁) hi hj
  refine ⟨b₂, hcell, fun i' j' => ?_⟩
  rw [hb₂, hI, hI]
  grind

/-- `copyRows` moves the screen up; the last row is still the old one. -/
theorem copyRows_spec (b : Cells) :
    ∃ b', b.copyRows = .ok b' ∧ ∀ i' j' : Nat, j' < kVGAWidth →
      b' i' j' = if i' < kVGAHeight - 1 then b (i' + 1 : Nat) j' else b i' j' := by
  refine forLoop_inv (fun r (b' : Cells) => ∀ i' j' : Nat, j' < kVGAWidth →
    b' i' j' = if i' < r then b (i' + 1 : Nat) j' else b i' j') (by simp) ?_
  intro i hi b₁ hI
  obtain ⟨b₂, hrow, hb₂⟩ := copyRow_spec (b := b₁) (i := i) (by omega)
  refine ⟨b₂, hrow, fun i' j' hj' => ?_⟩
  rw [hb₂ i' j' hj', hI _ _ hj', hI _ _ hj']
  grind

theorem clearLast_spec (b : Cells) :
    ∃ b', b.clearLast = .ok b' ∧ ∀ i' j' : Nat, j' < kVGAWidth →
      b' i' j' = if i' = kVGAHeight - 1 then 0#8 else b i' j' := by
  apply row_spec (f := fun _ => 0#8)
  refine forLoop_inv (fun c (b' : Cells) => ∀ i' j' : Nat,
    b' i' j' = if i' = kVGAHeight - 1 ∧ j' < c then 0#8 else b i' j') (by simp) ?_
  intro j hj b₁ hI
  obtain ⟨b₂, hstore, hb₂⟩ := store_spec (b := b₁) (i := kVGAHeight - 1) (by decide) hj 0#8
  refine ⟨b₂, hstore, fun i' j' => ?_⟩
  rw [hb₂, hI]
  grind

/-- A character drawn within the screen. -/
theorem drawChar_at (hi : i < kVGAHeight) (hj : j < kVGAWidth) (ch : BitVec 8) (fg bg : Color)
    (s : Screen) :
    (drawChar ch fg bg (BitVec.ofNat 8 j) (BitVec.ofNat 8 i) s).writes =
        (j + i * kVGAWidth) :: s.writes ∧
      ∀ row col, col < kVGAWidth →
        (drawChar ch fg bg (BitVec.ofNat 8 j) (BitVec.ofNat 8 i) s).words
          (col + row * kVGAWidth) =
          if row = i ∧ col = j then cellWord ch fg bg else s.words (col + row * kVGAWidth) := by
  have h25 : kVGAHeight = 25 := rfl
  have h80 : kVGAWidth = 80 := rfl
  have htoNat : ∀ k < 80, (BitVec.ofNat 8 k).toNat = k := by
    intro k hk
    rw [BitVec.toNat_ofNat]
    omega
  have hi8 := htoNat i (by omega)
  have hj8 := htoNat j (by omega)
  constructor
  · rw [drawChar, if_neg (by omega), hi8, hj8]
  · intro row col hcol
    by_cases hrow : row = i
    · subst hrow
      have hcell : (drawChar ch fg bg (BitVec.ofNat 8 j) (BitVec.ofNat 8 row) s).words
          (col + (BitVec.ofNat 8 row).toNat * kVGAWidth) = _ := drawChar_cell hcol (by omega) ch s
      rw [hi8] at hcell
      rw [hcell]
      refine if_congr ?_ rfl rfl
      rw [← BitVec.toNat_inj, hj8, htoNat col (by omega)]
      omega
    · rw [if_neg fun h => hrow h.1]
      exact drawChar_row hcol (by omega) ch s

/-- The rows above `i` and the first `c` cells of row `i` are redrawn. -/
structure Redrawn (b : Cells) (fg bg : Color) (s : Screen) (i c : Nat) (s' : Screen) : Prop where
  words : ∀ row col : Nat, row < i ∨ row = i ∧ col < c → col < kVGAWidth →
    s'.words (col + row * kVGAWidth) = cellWord (b row col) fg bg
  writes : ∀ k ∈ s'.writes, k < kVGAHeight * kVGAWidth ∨ k ∈ s.writes

theorem Redrawn.cell {b : Cells} {fg bg : Color} {s s' : Screen} {i j : Nat} (hi : i < kVGAHeight)
    (hj : j < kVGAWidth) (R : Redrawn b fg bg s i j s') :
    ∃ s'', b.redrawCell fg bg i j s' = .ok s'' ∧ Redrawn b fg bg s i (j + 1) s'' := by
  obtain ⟨hwrites, hwords⟩ := drawChar_at hi hj (b i j) fg bg s'
  refine ⟨drawChar (b i j) fg bg (BitVec.ofNat 8 j) (BitVec.ofNat 8 i) s', ?_, ?_, ?_⟩
  · rw [redrawCell, load_eq hi hj]
    rfl
  · intro row col hcell hcol
    rw [hwords row col hcol]
    by_cases hat : row = i ∧ col = j
    · rw [if_pos hat, hat.1, hat.2]
    · rw [if_neg hat]
      exact R.words row col (by omega) hcol
  · intro k hk
    rw [hwrites] at hk
    rcases List.mem_cons.mp hk with rfl | hk
    · left
      simp only [kVGAHeight, kVGAWidth] at hi hj ⊢
      omega
    · exact R.writes k hk

theorem Redrawn.row {b : Cells} {fg bg : Color} {s s' : Screen} {i : Nat} (hi : i < kVGAHeight)
    (R : Redrawn b fg bg s i 0 s') :
    ∃ s'', forLoop (b.redrawCell fg bg i) kVGAWidth s' = .ok s'' ∧
      Redrawn b fg bg s (i + 1) 0 s'' := by
  obtain ⟨s'', hrun, R'⟩ := forLoop_inv (fun c => Redrawn b fg bg s i c) R
    fun j hj _ R => R.cell hi hj
  exact ⟨s'', hrun, fun row col hlt hcol => R'.words row col (by omega) hcol, R'.writes⟩

/-- The redrawn screen shows the array, and nothing outside of it is written. -/
theorem redraw_spec (b : Cells) (fg bg : Color) (s : Screen) :
    ∃ s', b.redraw fg bg s = .ok s' ∧
      (∀ row col : Nat, row < kVGAHeight → col < kVGAWidth →
        s'.words (col + row * kVGAWidth) = cellWord (b row col) fg bg) ∧
      ∀ k ∈ s'.writes, k < kVGAHeight * kVGAWidth ∨ k ∈ s.writes := by
  have hstart : Redrawn b fg bg s 0 0 s :=
    ⟨fun row col h => by omega, fun k hk => Or.inr hk⟩
  obtain ⟨s', hrun, R⟩ := forLoop_inv (fun r => Redrawn b fg bg s r 0) hstart
    fun i hi _ R => R.row hi
  exact ⟨s', hrun, fun row col hlt hcol => R.words row col (.inl hlt) hcol, R.writes⟩

end Cells

namespace VGABuffer

/-- The cursor is on the screen or one step behind a line or the last row. -/
structure OnScreen (w : VGABuffer) : Prop where
  x_nonneg : 0 ≤ w.x
  x_le : w.x ≤ kVGAWidth
  y_nonneg : 0 ≤ w.y
  y_le : w.y ≤ kVGAHeight
  below : w.y = kVGAHeight → w.x = 0

/-- What a scroll does: the array moves up by a row and the screen shows it. -/
structure Scrolled (fg bg : Color) (w w' : VGABuffer) : Prop where
  x_eq : w'.x = w.x
  y_eq : w'.y = kVGAHeight - 1
  scrolls_eq : w'.scrolls = w.scrolls + 1
  cells : ∀ i j : Nat, i < kVGAHeight → j < kVGAWidth →
    w'.vgaBuffer i j = if i < kVGAHeight - 1 then w.vgaBuffer (i + 1 : Nat) j else 0#8
  shown : ∀ row col : Nat, row < kVGAHeight → col < kVGAWidth →
    w'.screen.words (col + row * kVGAWidth) = cellWord (w'.vgaBuffer row col) fg bg
  inside : ∀ k ∈ w'.screen.writes, k < kVGAHeight * kVGAWidth ∨ k ∈ w.screen.writes

theorem scroll_spec (fg bg : Color) {w : VGABuffer} (h : w.y = kVGAHeight) :
    ∃ w', w.scroll fg bg = .ok w' ∧ Scrolled fg bg w w' := by
  obtain ⟨b₁, hcopy, hb₁⟩ := w.vgaBuffer.copyRows_spec
  obtain ⟨b₂, hclear, hb₂⟩ := b₁.clearLast_spec
  obtain ⟨s, hdraw, hshown, hinside⟩ := b₂.redraw_spec fg bg w.screen
  refine ⟨{ w with vgaBuffer := b₂, screen := s, y := kVGAHeight - 1,
                   scrolls := w.scrolls + 1 }, ?_, rfl, rfl, rfl, ?_, hshown, hinside⟩
  · rw [scroll, if_pos (by omega), hcopy, ok_bind, hclear, ok_bind, hdraw]
    rfl
  · intro i j hi hj
    simp only [hb₂ i j hj, hb₁ i j hj]
    grind

/-- What handling a byte does, once the cursor is on the screen. -/
structure Written (fg bg : Color) (ch : BitVec 8) (w w' : VGABuffer) : Prop where
  x_eq : w'.x = w.x + 1
  y_eq : w'.y = w.y
  scrolls_eq : w'.scrolls = w.scrolls
  cells : ∀ i j : Nat, w'.vgaBuffer i j =
    if (i : Int) = w.y ∧ (j : Int) = w.x then ch else w.vgaBuffer i j
  words : ∀ row col : Nat, col < kVGAWidth → w'.screen.words (col + row * kVGAWidth) =
    if (row : Int) = w.y ∧ (col : Int) = w.x then cellWord ch fg bg
    else w.screen.words (col + row * kVGAWidth)
  writes : w'.screen.writes = (w.x.toNat + w.y.toNat * kVGAWidth) :: w.screen.writes

theorem put_spec (fg bg : Color) {ch : BitVec 8} (hch : ch ≠ 0x0A#8) {w : VGABuffer}
    (hx : 0 ≤ w.x ∧ w.x < kVGAWidth) (hy : 0 ≤ w.y ∧ w.y < kVGAHeight) :
    ∃ w', w.put fg bg ch = .ok w' ∧ Written fg bg ch w w' := by
  obtain ⟨j, hj⟩ := Int.eq_ofNat_of_zero_le hx.1
  obtain ⟨i, hi⟩ := Int.eq_ofNat_of_zero_le hy.1
  have hj80 : j < kVGAWidth := by omega
  have hi25 : i < kVGAHeight := by omega
  obtain ⟨b, hstore, hb⟩ := Cells.store_spec (b := w.vgaBuffer) hi25 hj80 ch
  obtain ⟨hwrites, hwords⟩ := Cells.drawChar_at hi25 hj80 ch fg bg w.screen
  refine ⟨{ w with
    vgaBuffer := b
    screen := drawChar ch fg bg (BitVec.ofNat 8 j) (BitVec.ofNat 8 i) w.screen
    x := w.x + 1 }, ?_, rfl, rfl, rfl, ?_, ?_, ?_⟩
  · rw [put, if_neg hch, hi, hj, BitVec.ofInt_natCast, BitVec.ofInt_natCast, hstore]
    rfl
  · intro i' j'
    simp only [hb, hi, hj, Int.natCast_inj]
  · intro row col hcol
    simp only [hwords row col hcol, hi, hj, Int.natCast_inj]
  · simp only [hwrites, hi, hj, Int.toNat_natCast]

end VGABuffer

open VGABuffer

/-- The array is a window on the page, `scrolls` rows below its top. -/
structure Window (p : TextPage) (w : VGABuffer) : Prop extends OnScreen w where
  cells : ∀ i j : Nat, i < kVGAHeight → j < kVGAWidth →
    w.vgaBuffer i j = p.grid (w.scrolls + i) j
  x_eq : w.x = p.X
  y_eq : w.y + w.scrolls = p.Y
  blank : ∀ r c, p.Y < r ∨ r = p.Y ∧ p.X ≤ c → p.grid r c = 0#8

namespace Window

variable {p : TextPage} {w : VGABuffer}

theorem construct (s : Screen) : Window TextPage.blank (VGABuffer.construct s) where
  x_nonneg := Int.le_refl 0
  x_le := Int.natCast_nonneg kVGAWidth
  y_nonneg := Int.le_refl 0
  y_le := Int.natCast_nonneg kVGAHeight
  below := fun _ => rfl
  cells := fun _ _ _ _ => rfl
  x_eq := rfl
  y_eq := rfl
  blank := fun _ _ _ => rfl

theorem wrap (W : Window p w) : Window p.wrap w.wrap ∧ w.wrap.x < kVGAWidth := by
  have h80 : kVGAWidth = 80 := rfl
  have h25 : kVGAHeight = 25 := rfl
  obtain ⟨⟨hx0, hx, hy0, hy, hbelow⟩, hcells, hX, hY, hblank⟩ := W
  by_cases hfull : w.x = 80
  · have hp : p.wrap = { p with X := 0, Y := p.Y + 1 } := if_pos (by omega)
    have hw : w.wrap = { w with x := 0, y := w.y + 1 } := if_pos (by omega)
    rw [hp, hw]
    refine ⟨⟨⟨Int.le_refl 0, by simp, ?_, ?_, fun _ => rfl⟩, hcells, rfl, ?_, ?_⟩, by simp [h80]⟩
    · simp only
      omega
    · simp only
      omega
    · simp only
      omega
    · intro r c h
      exact hblank r c (by simp only at h; omega)
  · have hp : p.wrap = p := if_neg (by omega)
    have hw : w.wrap = w := if_neg (by omega)
    rw [hp, hw]
    exact ⟨⟨⟨hx0, hx, hy0, hy, hbelow⟩, hcells, hX, hY, hblank⟩, by omega⟩

/-- One scroll is enough, and it moves the window down by one row. -/
theorem scroll (W : Window p w) (hx : w.x < kVGAWidth) (fg bg : Color) :
    ∃ w', w.scroll fg bg = .ok w' ∧ Window p w' ∧ w'.x < kVGAWidth ∧ w'.y < kVGAHeight := by
  have h25 : kVGAHeight = 25 := rfl
  by_cases hy : w.y = kVGAHeight
  · obtain ⟨w', hrun, S⟩ := scroll_spec fg bg hy
    have hX := W.x_eq
    have hY := W.y_eq
    have hzero := W.below hy
    have hs := S.scrolls_eq
    have hy' := S.y_eq
    have hx' := S.x_eq
    refine ⟨w', hrun, ⟨⟨?_, ?_, ?_, ?_, ?_⟩, ?_, ?_, ?_, W.blank⟩, ?_, ?_⟩
    · omega
    · omega
    · omega
    · omega
    · omega
    · intro i j hi hj
      rw [S.cells i j hi hj, hs]
      by_cases hlast : i < kVGAHeight - 1
      · rw [if_pos hlast, W.cells (i + 1) j (by omega) hj, Nat.add_assoc, Nat.add_comm 1]
      · rw [if_neg hlast]
        -- the new last row is the one the cursor has come to, still empty
        exact (W.blank _ _ (Or.inr ⟨by omega, by omega⟩)).symm
    · omega
    · omega
    · omega
    · omega
  · have hle := W.y_le
    exact ⟨w, if_neg (by omega), W, hx, by omega⟩

theorem put (W : Window p w) (hx : w.x < kVGAWidth) (hy : w.y < kVGAHeight) (fg bg : Color)
    (ch : BitVec 8) : ∃ w', w.put fg bg ch = .ok w' ∧ Window (p.put ch) w' := by
  have h80 : kVGAWidth = 80 := rfl
  have h25 : kVGAHeight = 25 := rfl
  have hx0 := W.x_nonneg
  have hy0 := W.y_nonneg
  have hX := W.x_eq
  have hY := W.y_eq
  by_cases hch : ch = 0x0A#8
  · refine ⟨{ w with x := 0, y := w.y + 1 }, if_pos hch, ?_⟩
    rw [TextPage.put, if_pos hch]
    refine ⟨⟨Int.le_refl 0, by simp, ?_, ?_, fun _ => rfl⟩, W.cells, rfl, ?_, ?_⟩
    · simp only
      omega
    · simp only
      omega
    · simp only
      omega
    · intro r c h
      exact W.blank r c (by simp only at h; omega)
  · obtain ⟨w', hrun, P⟩ := put_spec fg bg hch ⟨hx0, hx⟩ ⟨hy0, hy⟩
    have hx' := P.x_eq
    have hy' := P.y_eq
    have hs := P.scrolls_eq
    refine ⟨w', hrun, ?_⟩
    rw [TextPage.put, if_neg hch]
    refine ⟨⟨?_, ?_, ?_, ?_, ?_⟩, ?_, ?_, ?_, ?_⟩
    · omega
    · omega
    · omega
    · omega
    · omega
    · intro i j hi hj
      rw [P.cells, hs, W.cells i j hi hj]
      exact if_congr (by omega) rfl rfl
    · simp only
      omega
    · simp only
      omega
    · intro r c h
      simp only at h ⊢
      rw [if_neg (by omega)]
      exact W.blank r c (by omega)

/-- Step lemma. -/
theorem writeByte (W : Window p w) (fg bg : Color) (ch : BitVec 8) :
    ∃ w', w.writeByte fg bg ch = .ok w' ∧ Window (p.write ch) w' := by
  obtain ⟨W₁, hx₁⟩ := W.wrap
  obtain ⟨w₂, hscroll, W₂, hx₂, hy₂⟩ := W₁.scroll hx₁ fg bg
  obtain ⟨w₃, hput, W₃⟩ := W₂.put hx₂ hy₂ fg bg ch
  refine ⟨w₃, ?_, W₃⟩
  rw [VGABuffer.writeByte, hscroll]
  exact hput

/-- Run lemma. -/
theorem writeAll (W : Window p w) (fg bg : Color) (bs : List (BitVec 8)) :
    ∃ w', w.writeAll fg bg bs = .ok w' ∧ Window (p.writeAll bs) w' := by
  induction bs generalizing p w with
  | nil => exact ⟨w, rfl, W⟩
  | cons ch bs ih =>
      obtain ⟨w₁, hstep, W₁⟩ := W.writeByte fg bg ch
      obtain ⟨w₂, hrun, W₂⟩ := ih W₁
      refine ⟨w₂, ?_, W₂⟩
      rw [VGABuffer.writeAll, List.foldlM_cons, hstep]
      exact hrun

end Window

/-- After any stream the array shows 25 rows of the page, from the row on that
the number of scrolls gives, and no access was out of bounds. -/
theorem VGABuffer.window_on_page (fg bg : Color) (s : Screen) (bs : List (BitVec 8)) :
    ∃ w, (construct s).writeAll fg bg bs = .ok w ∧
      (∀ i j : Nat, i < 25 → j < 80 →
        w.vgaBuffer i j = (TextPage.blank.writeAll bs).grid (w.scrolls + i) j) ∧
      w.x = (TextPage.blank.writeAll bs).X ∧
      w.y = (TextPage.blank.writeAll bs).Y - w.scrolls ∧
      0 ≤ w.x ∧ w.x ≤ 80 ∧ 0 ≤ w.y ∧ w.y ≤ 25 := by
  obtain ⟨w, hrun, W⟩ := (Window.construct s).writeAll fg bg bs
  have hy := W.y_eq
  exact ⟨w, hrun, W.cells, W.x_eq, by omega, W.x_nonneg, W.x_le, W.y_nonneg, W.y_le⟩

end Chestnut
