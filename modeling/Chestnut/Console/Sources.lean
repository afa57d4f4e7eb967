import Chestnut.Console.Render
import Chestnut.Console.Screen
import Chestnut.Console.Serial
import Chestnut.Lib.Chain

/-!
# The console and its sources

`Console::AddSource`, `Console::WriteByte` and `kprintf` over the chain of
console sources: what `vprintf` writes reaches every source, whole and in order.

## Implementation notes

A source is named by its address and carries the device it draws on or sends
to, so that different sources have different devices. The bytes for which
`vprintf` calls `WriteByte` do not depend on the sources; they are its `out`.
-/

namespace Chestnut

open Lib Terminal Format

/-- A console source with its device. -/
inductive ConsoleSource
  | vga (w : VGABuffer)
  | serial (p : SerialPort) (d : SerialLine)

namespace ConsoleSource

/-- The virtual `WriteByte`. -/
def writeByte (fg bg : Color) (ch : BitVec 8) : ConsoleSource → Except Fault ConsoleSource
  | vga w => (w.writeByte fg bg ch).map vga
  | serial p d => .ok (serial p (p.writeByte ch d))

/-- A page shown in a window, or a line with the divisor latch closed. -/
def Working : ConsoleSource → Prop
  | vga w => ∃ page, Window page w
  | serial p d => p.Drives d ∧ d.uart.dlab = false

/-- What a text does to a source: it goes onto the page, or out on the line. -/
def Received (text : List (BitVec 8)) : ConsoleSource → ConsoleSource → Prop
  | vga w, vga w' => ∀ page, Window page w → Window (page.writeAll text) w'
  | serial p d, serial p' d' =>
      p' = p ∧ d' = { d with uart := { d.uart with sent := d.uart.sent ++ text } }
  | _, _ => False

variable {x y z : ConsoleSource} {text text' : List (BitVec 8)}

theorem Received.refl (x : ConsoleSource) : Received [] x x := by
  cases x with
  | vga w => exact fun _ W => W
  | serial p d => exact ⟨rfl, by rw [List.append_nil]⟩

theorem Received.trans (h : Received text x y) (h' : Received text' y z) :
    Received (text ++ text') x z := by
  cases x with
  | vga w =>
      cases y with
      | vga w₁ =>
          cases z with
          | vga w₂ =>
              intro page W
              have hboth := h' _ (h page W)
              rwa [TextPage.writeAll, TextPage.writeAll, ← List.foldl_append] at hboth
          | serial p d => exact h'.elim
      | serial p d => exact h.elim
  | serial p d =>
      cases y with
      | vga w => exact h.elim
      | serial p₁ d₁ =>
          cases z with
          | vga w => exact h'.elim
          | serial p₂ d₂ =>
              obtain ⟨rfl, rfl⟩ := h
              obtain ⟨rfl, rfl⟩ := h'
              exact ⟨rfl, by rw [List.append_assoc]⟩

/-- A working source takes every byte and goes on working. -/
theorem Working.writeByte (h : x.Working) (fg bg : Color) (ch : BitVec 8) :
    ∃ y, x.writeByte fg bg ch = .ok y ∧ y.Working ∧ Received [ch] x y := by
  cases x with
  | vga w =>
      obtain ⟨page, W⟩ := h
      obtain ⟨w', hrun, W'⟩ := W.writeByte fg bg ch
      refine ⟨.vga w', by rw [ConsoleSource.writeByte, hrun]; rfl, ⟨_, W'⟩, fun page₁ W₁ => ?_⟩
      obtain ⟨w₁, hrun₁, W₁'⟩ := W₁.writeByte fg bg ch
      cases hrun.symm.trans hrun₁
      exact W₁'
  | serial p d =>
      obtain ⟨hdrives, hlatch⟩ := h
      have hout : p.writeByte ch d =
          { d with uart := { d.uart with sent := d.uart.sent ++ [ch] } } := by
        rw [SerialPort.writeByte, SerialPort.out_eq hdrives (by decide)]
        simp [Uart.store, hlatch]
      exact ⟨_, rfl, ⟨hout ▸ hdrives, hout ▸ hlatch⟩, rfl, hout⟩

end ConsoleSource

variable {S : Type}

/-- The member `sources`, and `next` of every source. -/
structure Console (S : Type) where
  sources : Option S
  next : S → Option S

namespace Console

/-- The constructors of `Console` and of the sources. -/
def construct : Console S := ⟨none, fun _ => none⟩

section Calls

variable [DecidableEq S]

/-- `AddSource`. -/
def addSource (con : Console S) (src : S) : Console S :=
  let con := { con with next := Function.update con.next src con.sources }
  { con with sources := some src }

/-- `WriteByte`. -/
def writeByte (con : Console S) (fg bg : Color) (a : BitVec 8) (fuel : Nat)
    (w : S → ConsoleSource) : Option (Except Fault (S → ConsoleSource)) :=
  walkChain con.next
    (fun s w => ((w s).writeByte fg bg a).map (Function.update w s)) fuel con.sources w

/-- The calls of `WriteByte` for a text. -/
def writeText (con : Console S) (fg bg : Color) (fuel : Nat) :
    List (BitVec 8) → (S → ConsoleSource) → Option (Except Fault (S → ConsoleSource))
  | [], w => some (.ok w)
  | a :: text, w => andThen (con.writeByte fg bg a fuel w) (con.writeText fg bg fuel text)

end Calls

/-- A call of `kprintf`: where its format is, and its arguments. -/
structure PrintCall where
  fmt : Int
  args : Nat → BitVec 64
  /-- `l` in `vprintf` before it is set. -/
  stale : BitVec 32

/-- `kprintf`. -/
def kprintf [DecidableEq S] (con : Console S) (fg bg : Color) (m : Bytes) (fuel : Nat)
    (c : PrintCall) (w : S → ConsoleSource) : Option (Except Fault (S → ConsoleSource)) :=
  match run m c.args fuel (enter c.fmt c.stale) with
  | .error e => some (.error e)
  | .ok st => if st.point = .done then con.writeText fg bg fuel st.out w else none

/-- One call after the other. -/
def kprintfs [DecidableEq S] (con : Console S) (fg bg : Color) (m : Bytes) (fuel : Nat) :
    List PrintCall → (S → ConsoleSource) → Option (Except Fault (S → ConsoleSource))
  | [], w => some (.ok w)
  | c :: calls, w => andThen (con.kprintf fg bg m fuel c w) (con.kprintfs fg bg m fuel calls)

/-- The call prints a text: its format is made of whole pieces, and its
arguments match them. -/
def PrintCall.Prints (m : Bytes) (c : PrintCall) (text : List (BitVec 8)) : Prop :=
  ∃ ps strs, (∀ q ∈ ps, q.Valid) ∧ m.Holds c.fmt (ps.flatMap Piece.bytes ++ [0#8]) ∧
    Matches m c.args strs 0 ps ∧ text = render wrappedLong c.args strs 0 ps

section Delivery

variable {con : Console S} {l : List S} {w : S → ConsoleSource}

/-- The text has reached the sources of the list and no others. -/
structure Delivered (l : List S) (text : List (BitVec 8)) (w w' : S → ConsoleSource) :
    Prop where
  working : ∀ s ∈ l, (w' s).Working
  received : ∀ s ∈ l, ConsoleSource.Received text (w s) (w' s)
  frame : ∀ s, s ∉ l → w' s = w s

theorem Delivered.refl (h : ∀ s ∈ l, (w s).Working) : Delivered l [] w w :=
  ⟨h, fun s _ => .refl (w s), fun _ _ => rfl⟩

theorem Delivered.trans {text text' : List (BitVec 8)} {w₁ w₂ : S → ConsoleSource}
    (h : Delivered l text w w₁) (h' : Delivered l text' w₁ w₂) :
    Delivered l (text ++ text') w w₂ :=
  ⟨h'.working, fun s hs => (h.received s hs).trans (h'.received s hs),
    fun s hs => (h'.frame s hs).trans (h.frame s hs)⟩

variable [DecidableEq S]

/-- One source after the other takes the byte. -/
theorem foldlM_writeByte (hl : l.Nodup) (hw : ∀ s ∈ l, (w s).Working) (fg bg : Color)
    (a : BitVec 8) :
    ∃ w', l.foldlM (fun w s => ((w s).writeByte fg bg a).map (Function.update w s)) w =
      .ok w' ∧ Delivered l [a] w w' := by
  induction l generalizing w with
  | nil =>
      exact ⟨w, rfl, fun _ hs => absurd hs List.not_mem_nil,
        fun _ hs => absurd hs List.not_mem_nil, fun _ _ => rfl⟩
  | cons s l ih =>
      obtain ⟨hs, hnodup⟩ := List.nodup_cons.mp hl
      obtain ⟨y, hy, hwork, hrec⟩ := (hw s List.mem_cons_self).writeByte fg bg a
      have hne : ∀ t ∈ l, t ≠ s := fun t ht heq => hs (heq ▸ ht)
      have hrest : ∀ t ∈ l, (Function.update w s y t).Working := by
        intro t ht
        rw [Function.update_of_ne (hne t ht)]
        exact hw t (List.mem_cons_of_mem _ ht)
      obtain ⟨w', hrun, D⟩ := ih hnodup hrest
      have hself : w' s = y := (D.frame s hs).trans (Function.update_self ..)
      refine ⟨w', ?_, ?_, ?_, ?_⟩
      · rw [List.foldlM_cons, hy]
        exact hrun
      · intro t ht
        rcases List.mem_cons.mp ht with rfl | ht
        · exact hself ▸ hwork
        · exact D.working t ht
      · intro t ht
        rcases List.mem_cons.mp ht with rfl | ht
        · exact hself ▸ hrec
        · have hgot := D.received t ht
          rwa [Function.update_of_ne (hne t ht)] at hgot
      · intro t ht
        obtain ⟨hts, htl⟩ := not_or.mp fun h => ht (List.mem_cons.mpr h)
        rw [D.frame t htl, Function.update_of_ne hts]

theorem writeText_delivers (C : Chain con.next con.sources l) (fg bg : Color)
    (text : List (BitVec 8)) (hw : ∀ s ∈ l, (w s).Working) :
    ∃ w', (∀ k, l.length ≤ k → con.writeText fg bg k text w = some (.ok w')) ∧
      Delivered l text w w' := by
  induction text generalizing w with
  | nil => exact ⟨w, fun _ _ => rfl, .refl hw⟩
  | cons a text ih =>
      obtain ⟨w₁, hbyte, D₁⟩ := foldlM_writeByte C.nodup hw fg bg a
      obtain ⟨w₂, htext, D₂⟩ := ih D₁.working
      refine ⟨w₂, fun k hk => ?_, D₁.trans D₂⟩
      rw [writeText, Console.writeByte, walkChain_eq_some C hk, hbyte, andThen_ok]
      exact htext k hk

/-- With enough fuel a call delivers its text. -/
theorem kprintf_delivers (C : Chain con.next con.sources l) (fg bg : Color) {m : Bytes}
    {c : PrintCall} {text : List (BitVec 8)} (hc : c.Prints m text)
    (hw : ∀ s ∈ l, (w s).Working) :
    ∃ n w', (∀ k, n ≤ k → con.kprintf fg bg m k c w = some (.ok w')) ∧
      Delivered l text w w' := by
  obtain ⟨ps, strs, hvalid, hm, hmatch, rfl⟩ := hc
  obtain ⟨st, ⟨n, hn⟩, hdone, hout⟩ := leads_pieces hvalid hm hmatch c.stale
  obtain ⟨w', hwrite, D⟩ := writeText_delivers C fg bg (render wrappedLong c.args strs 0 ps) hw
  refine ⟨max n l.length, w', fun k hk => ?_, D⟩
  have hlen : l.length ≤ k := (Nat.le_max_right n _).trans hk
  obtain ⟨j, rfl⟩ := Nat.exists_eq_add_of_le ((Nat.le_max_left n _).trans hk)
  have hrun : run m c.args (n + j) (enter c.fmt c.stale) = .ok st := by
    rw [run_add, hn]
    exact run_done hdone j
  rw [kprintf, hrun]
  simp only [hdone, if_true, hout]
  exact hwrite _ hlen

theorem kprintfs_deliver (C : Chain con.next con.sources l) (fg bg : Color) {m : Bytes}
    {calls : List PrintCall} {texts : List (List (BitVec 8))}
    (hcalls : List.Forall₂ (PrintCall.Prints m) calls texts) (hw : ∀ s ∈ l, (w s).Working) :
    ∃ n w', (∀ k, n ≤ k → con.kprintfs fg bg m k calls w = some (.ok w')) ∧
      Delivered l texts.flatten w w' := by
  induction hcalls generalizing w with
  | nil => exact ⟨0, w, fun _ _ => rfl, .refl hw⟩
  | cons hc _ ih =>
      obtain ⟨n₁, w₁, hfirst, D₁⟩ := kprintf_delivers C fg bg hc hw
      obtain ⟨n₂, w₂, hrest, D₂⟩ := ih D₁.working
      refine ⟨max n₁ n₂, w₂, fun k hk => ?_, D₁.trans D₂⟩
      rw [kprintfs, hfirst k ((Nat.le_max_left _ _).trans hk), andThen_ok]
      exact hrest k ((Nat.le_max_right _ _).trans hk)

theorem chain_addSource (C : Chain con.next con.sources l) {s : S} (hs : s ∉ l) :
    Chain (con.addSource s).next (con.addSource s).sources (s :: l) :=
  C.push hs

theorem chain_addSources {srcs : List S} (C : Chain con.next con.sources l)
    (hnodup : (srcs.reverse ++ l).Nodup) :
    Chain (srcs.foldl addSource con).next (srcs.foldl addSource con).sources
      (srcs.reverse ++ l) := by
  induction srcs generalizing con l with
  | nil => exact C
  | cons s srcs ih =>
      rw [List.reverse_cons, List.append_assoc, List.singleton_append] at hnodup ⊢
      have hs : s ∉ l := (List.nodup_cons.mp (List.nodup_append.mp hnodup).2.1).1
      exact ih (chain_addSource C hs) hnodup

/-- The sources that were added, each once, get the text of every later call of
`kprintf`, whole and in order; every other source is left alone. -/
theorem kprintf_reaches_sources {srcs : List S} (hsrcs : srcs.Nodup)
    (hw : ∀ s ∈ srcs, (w s).Working) (fg bg : Color) {m : Bytes} {calls : List PrintCall}
    {texts : List (List (BitVec 8))} (hcalls : List.Forall₂ (PrintCall.Prints m) calls texts) :
    ∃ n w', (∀ k, n ≤ k →
        (srcs.foldl addSource construct).kprintfs fg bg m k calls w = some (.ok w')) ∧
      (∀ s ∈ srcs, ConsoleSource.Received texts.flatten (w s) (w' s)) ∧
      ∀ s, s ∉ srcs → w' s = w s := by
  have hnodup : (srcs.reverse ++ []).Nodup := by
    rw [List.append_nil]
    exact List.nodup_reverse.mpr hsrcs
  have C₀ : Chain (construct : Console S).next construct.sources [] := rfl
  have C := chain_addSources C₀ hnodup
  have hmem : ∀ s, s ∈ srcs.reverse ++ [] ↔ s ∈ srcs := by simp
  obtain ⟨n, w', hrun, D⟩ :=
    kprintfs_deliver C fg bg hcalls fun s hs => hw s ((hmem s).mp hs)
  exact ⟨n, w', hrun, fun s hs => D.received s ((hmem s).mpr hs),
    fun s hs => D.frame s fun h => hs ((hmem s).mp h)⟩

end Delivery

/-- COM1 and a screen, each behind its constructor. -/
def comAndScreen : Bool → ConsoleSource
  | false => .serial .com1 (SerialPort.com1.construct ⟨0x3F8#16, ⟨0, 0, 0, 0, 0, 0, []⟩⟩)
  | true => .vga (.construct ⟨fun _ => 0#16, []⟩)

theorem working_comAndScreen (b : Bool) : (comAndScreen b).Working := by
  cases b with
  | false => exact ⟨rfl, rfl⟩
  | true => exact ⟨_, Window.construct _⟩

/-- Two calls with the format `ok`. -/
theorem kprintf_reaches_sources_pair :
    ∃ n w', (∀ k, n ≤ k → ([false, true].foldl addSource construct).kprintfs .white .black
        (Bytes.ofList 0 [ascii 'o', ascii 'k', 0#8]) k
        [⟨0, fun _ => 0#64, 0#32⟩, ⟨0, fun _ => 0#64, 7#32⟩] comAndScreen = some (.ok w')) ∧
      ∀ s, ConsoleSource.Received [ascii 'o', ascii 'k', ascii 'o', ascii 'k']
        (comAndScreen s) (w' s) := by
  have hprints : ∀ stale, PrintCall.Prints (Bytes.ofList 0 [ascii 'o', ascii 'k', 0#8])
      ⟨0, fun _ => 0#64, stale⟩ [ascii 'o', ascii 'k'] := by
    intro stale
    refine ⟨[.lit (ascii 'o'), .lit (ascii 'k')], fun _ => [], ?_, Bytes.holds_ofList 0 _, ?_, rfl⟩
    · intro q hq
      simp only [List.mem_cons, List.not_mem_nil, or_false] at hq
      rcases hq with rfl | rfl <;> exact ⟨by decide, by decide⟩
    · intro j l hj
      simp only [slotted, List.mem_cons, Prod.mk.injEq, List.not_mem_nil, or_false] at hj
      rcases hj with ⟨-, h⟩ | ⟨-, h⟩ <;> cases h
  have hnodup : [false, true].Nodup := by decide
  obtain ⟨n, w', hrun, hreceived, -⟩ := kprintf_reaches_sources hnodup
    (fun s _ => working_comAndScreen s) .white .black
    (.cons (hprints 0#32) (.cons (hprints 7#32) .nil))
  exact ⟨n, w', hrun, fun s => hreceived s (by cases s <;> decide)⟩

end Console

end Chestnut
