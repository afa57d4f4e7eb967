import Chestnut.Interrupt.Chains
import Chestnut.Interrupt.LocalApic
import Chestnut.Lib.Reach
import Mathlib.Order.Lattice.Nat

/-!
# Serving interrupts

The processor, its local APIC and the wrappers as one system: requests are
accepted, the highest is taken when interrupts are enabled, its wrapper invokes the
handlers, writes `EOI` and returns. Every wrapper writes `EOI`, also one that was
entered for an exception or for a spurious interrupt and has nothing to end. The
system starts as `InitCpu` and `EnableInterrupts` leave it.

## Implementation notes

An interrupted wrapper is a frame, the innermost first; its phase is the next thing
the wrapper does. All gates are interrupt gates, so that an entry clears the
interrupt flag; the handlers do not set it. Exceptions with an error code are left
out: the wrapper does not come back from them. `external`, `accepted` and `served`
are history variables.
-/

namespace Chestnut

open Lib

/-- What a wrapper does next. -/
inductive WrapperPhase
  | handlers
  | eoi
  | iret
  deriving DecidableEq, Repr

/-- A wrapper that has not returned: its vector, the interrupt flag to be restored, whether
the APIC counts it as in service on entry, and what it does next. -/
structure WrapperFrame where
  vector : Fin kMaxInterrupt
  saved : Bool
  external : Bool
  phase : WrapperPhase
  deriving DecidableEq, Repr

/-- A processor with its APIC. `accepted` counts the requests of a vector that were
accepted, `served` how often its handlers ran for one of them. -/
structure Core where
  apic : LocalApicDevice
  flag : Bool
  frames : List WrapperFrame
  accepted : Fin kMaxInterrupt → Nat
  served : Fin kMaxInterrupt → Nat

/-- What may happen: the first four from outside, the others in the processor. -/
inductive CoreEvent
  | request (v : Fin kMaxInterrupt)
  | exception (v : Fin kMaxInterrupt)
  | spurious
  | take
  | handlers
  | eoi
  | iret
  deriving DecidableEq, Repr

namespace LocalApicDevice

def priorityClass (v : Fin kMaxInterrupt) : Nat := v / 16

/-- The class that a vector must exceed to be taken. -/
def processorClass (d : LocalApicDevice) : Nat :=
  max ((d.read .taskPriority).toNat % 256 / 16) (d.isr.sup priorityClass)

/-- Bit 8 of the spurious-interrupt register switches the APIC on; the vectors below 16 are
not valid. -/
def Accepts (d : LocalApicDevice) (v : Fin kMaxInterrupt) : Prop :=
  (d.read .spuriousInterruptVector).getLsbD 8 = true ∧ 16 ≤ v.val

instance (d : LocalApicDevice) (v : Fin kMaxInterrupt) : Decidable (d.Accepts v) :=
  inferInstanceAs (Decidable (_ ∧ _))

def spuriousVector (d : LocalApicDevice) : Fin kMaxInterrupt :=
  ⟨(d.read .spuriousInterruptVector).toNat % kMaxInterrupt, Nat.mod_lt _ (Nat.succ_pos _)⟩

/-- The request that would be taken next. -/
def highest? (d : LocalApicDevice) : Option (Fin kMaxInterrupt) :=
  if h : d.irr.Nonempty then
    if d.processorClass < priorityClass (d.irr.max' h) then some (d.irr.max' h) else none
  else none

end LocalApicDevice

theorem LocalApic.Open.of_reg {d d' : LocalApicDevice} (h : LocalApic.Open d)
    (hreg : d'.reg = d.reg) : LocalApic.Open d' := by
  have hread : ∀ r, d'.read r = d.read r := fun r => congrFun hreg r.code
  exact ⟨(hread _).trans h.priority, (hread _).trans h.lint0, (hread _).trans h.lint1,
    (hread _).trans h.spurious⟩

namespace Core

open LocalApicDevice

/-- Entry through an interrupt gate. -/
def enter (v : Fin kMaxInterrupt) (external : Bool) (c : Core) : Core :=
  { c with flag := false, frames := ⟨v, c.flag, external, .handlers⟩ :: c.frames }

def next (c : Core) : CoreEvent → Option Core
  | .request v =>
      if c.apic.Accepts v ∧ v ∉ c.apic.irr then
        some { c with
          apic := { c.apic with irr := insert v c.apic.irr }
          accepted := Function.update c.accepted v (c.accepted v + 1) }
      else some c
  | .exception v => if v.val ∈ errorCodeVectors then none else some (c.enter v false)
  | .spurious => if c.flag then some (c.enter c.apic.spuriousVector false) else none
  | .take =>
      match c.flag, c.apic.highest? with
      | true, some v =>
          some (enter v true { c with
            apic := { c.apic with irr := c.apic.irr.erase v, isr := insert v c.apic.isr } })
      | _, _ => none
  | .handlers =>
      match c.frames with
      | ⟨v, saved, external, .handlers⟩ :: fs =>
          some { c with
            frames := ⟨v, saved, external, .eoi⟩ :: fs
            served := if external then Function.update c.served v (c.served v + 1) else c.served }
      | _ => none
  | .eoi =>
      match c.frames with
      | ⟨v, saved, external, .eoi⟩ :: fs =>
          some { c with apic := c.apic.eoi, frames := ⟨v, saved, external, .iret⟩ :: fs }
      | _ => none
  | .iret =>
      match c.frames with
      | ⟨_, saved, _, .iret⟩ :: fs => some { c with flag := saved, frames := fs }
      | _ => none

/-- The processor's own steps. -/
def Internal : CoreEvent → Prop
  | .request _ | .exception _ | .spurious => False
  | .take | .handlers | .eoi | .iret => True

/-- Behind `InitCpu` and `EnableInterrupts`. -/
def start (d : LocalApicDevice) : Core :=
  ⟨d, true, [], fun v => if v ∈ d.irr then 1 else 0, fun _ => 0⟩

/-- The request waits in the APIC. -/
def pending (c : Core) (v : Fin kMaxInterrupt) : Nat := if v ∈ c.apic.irr then 1 else 0

/-- The wrappers entered for a request of the vector that have not run the handlers. -/
def active (c : Core) (v : Fin kMaxInterrupt) : Nat :=
  c.frames.countP fun f => f.external && f.vector = v && f.phase = .handlers

/-! ### The invariant -/

/-- Only the outermost wrapper was entered with interrupts enabled, and so only it can be
about a request. -/
def Nested : List WrapperFrame → Prop
  | [] => True
  | [f] => f.saved = true
  | f :: g :: fs => f.saved = false ∧ f.external = false ∧ Nested (g :: fs)

/-- What is in service belongs to a wrapper that has not written `EOI`. -/
def Serving (frames : List WrapperFrame) (isr : Finset (Fin kMaxInterrupt)) : Prop :=
  ∀ v ∈ isr, ∃ f ∈ frames, f.external = true ∧ f.vector = v ∧ f.phase ≠ .iret

structure Inv (c : Core) : Prop where
  opened : LocalApic.Open c.apic
  flag_iff : c.flag = true ↔ c.frames = []
  nested : Nested c.frames
  serving : Serving c.frames c.apic.isr
  valid : ∀ v ∈ c.apic.irr, 16 ≤ v.val
  balance : ∀ v, c.accepted v = c.served v + c.pending v + c.active v

variable {c c' : Core} {fs : List WrapperFrame} {f g : WrapperFrame}

theorem Nested.tail (h : Nested (f :: fs)) : Nested fs := by
  cases fs with
  | nil => trivial
  | cons g fs => exact h.2.2

/-- At most one wrapper is about a request. -/
theorem Nested.unique (h : Nested fs) (hf : f ∈ fs) (hg : g ∈ fs) (hfe : f.external = true)
    (hge : g.external = true) : f = g := by
  induction fs with
  | nil => cases hf
  | cons k fs ih =>
      cases fs with
      | nil => rw [List.mem_singleton.mp hf, List.mem_singleton.mp hg]
      | cons k' fs =>
          have hk : k.external = false := h.2.1
          have hin : ∀ x ∈ k :: k' :: fs, x.external = true → x ∈ k' :: fs := by
            intro x hx hxe
            rcases List.mem_cons.mp hx with rfl | hx
            · rw [hk] at hxe
              cases hxe
            · exact hx
          exact ih h.2.2 (hin f hf hfe) (hin g hg hge)

theorem Serving.card_le (hn : Nested fs) {isr : Finset (Fin kMaxInterrupt)}
    (h : Serving fs isr) : isr.card ≤ 1 := by
  apply Finset.card_le_one.mpr
  intro v hv w hw
  obtain ⟨f, hf, hfe, rfl, -⟩ := h v hv
  obtain ⟨g, hg, hge, rfl, -⟩ := h w hw
  rw [hn.unique hf hg hfe hge]

theorem Serving.empty (fs : List WrapperFrame) : Serving fs ∅ :=
  fun v hv => absurd hv (Finset.notMem_empty v)

/-- The phase of the innermost wrapper changes. -/
theorem Nested.phase {p : WrapperPhase} (h : Nested (f :: fs)) :
    Nested ({ f with phase := p } :: fs) := by
  cases fs with
  | nil => exact h
  | cons g fs => exact h

/-! ### Inversion of the processor's own steps -/

theorem highest?_mem {d : LocalApicDevice} {v : Fin kMaxInterrupt} (h : d.highest? = some v) :
    v ∈ d.irr := by
  rw [highest?] at h
  split at h
  next hne =>
    split at h
    · cases h
      exact d.irr.max'_mem hne
    · cases h
  next => cases h

theorem next_take (h : c.next .take = some c') :
    ∃ v, c.flag = true ∧ c.apic.highest? = some v ∧ c' = enter v true { c with
      apic := { c.apic with irr := c.apic.irr.erase v, isr := insert v c.apic.isr } } := by
  rw [next] at h
  split at h
  next v hflag hv =>
    cases h
    exact ⟨v, hflag, hv, rfl⟩
  next => cases h

theorem next_handlers (h : c.next .handlers = some c') :
    ∃ v saved external fs, c.frames = ⟨v, saved, external, .handlers⟩ :: fs ∧ c' = { c with
      frames := ⟨v, saved, external, .eoi⟩ :: fs
      served := if external then Function.update c.served v (c.served v + 1) else c.served } := by
  rw [next] at h
  split at h
  next v saved external fs hfs =>
    cases h
    exact ⟨v, saved, external, fs, hfs, rfl⟩
  next => cases h

theorem next_eoi (h : c.next .eoi = some c') :
    ∃ v saved external fs, c.frames = ⟨v, saved, external, .eoi⟩ :: fs ∧
      c' = { c with apic := c.apic.eoi, frames := ⟨v, saved, external, .iret⟩ :: fs } := by
  rw [next] at h
  split at h
  next v saved external fs hfs =>
    cases h
    exact ⟨v, saved, external, fs, hfs, rfl⟩
  next => cases h

theorem next_iret (h : c.next .iret = some c') :
    ∃ v saved external fs, c.frames = ⟨v, saved, external, .iret⟩ :: fs ∧
      c' = { c with flag := saved, frames := fs } := by
  rw [next] at h
  split at h
  next v saved external fs hfs =>
    cases h
    exact ⟨v, saved, external, fs, hfs, rfl⟩
  next => cases h

namespace Inv

theorem isr_eq_empty (I : Inv c) (h : c.flag = true) : c.apic.isr = ∅ := by
  apply Finset.eq_empty_of_forall_notMem
  intro v hv
  obtain ⟨f, hf, -⟩ := I.serving v hv
  rw [I.flag_iff.mp h] at hf
  cases hf

theorem start {d : LocalApicDevice} (ho : LocalApic.Open d) (hisr : d.isr = ∅)
    (hirr : ∀ v ∈ d.irr, 16 ≤ v.val) : Inv (Core.start d) where
  opened := ho
  flag_iff := iff_of_true rfl rfl
  nested := trivial
  serving := by
    rw [Core.start, hisr]
    exact Serving.empty _
  valid := hirr
  balance := fun v => (Nat.zero_add _).symm

/-- A request joins those that wait. -/
theorem request (I : Inv c) {v : Fin kMaxInterrupt} (hv : 16 ≤ v.val) (hnew : v ∉ c.apic.irr) :
    Inv { c with
      apic := { c.apic with irr := insert v c.apic.irr }
      accepted := Function.update c.accepted v (c.accepted v + 1) } where
  opened := I.opened.of_reg rfl
  flag_iff := I.flag_iff
  nested := I.nested
  serving := I.serving
  valid := by
    intro w hw
    rcases Finset.mem_insert.mp hw with rfl | hw
    · exact hv
    · exact I.valid w hw
  balance := by
    intro w
    have hbal := I.balance w
    simp only [pending, active, Finset.mem_insert] at hbal ⊢
    by_cases hw : w = v
    · subst hw
      rw [if_neg hnew] at hbal
      rw [Function.update_self, hbal, if_pos (.inl rfl)]
      omega
    · rw [Function.update_of_ne hw, hbal]
      simp only [hw, false_or]

/-- An entry for which the APIC has nothing in service. -/
theorem enter (I : Inv c) (v : Fin kMaxInterrupt) : Inv (c.enter v false) where
  opened := I.opened
  flag_iff := iff_of_false Bool.false_ne_true (List.cons_ne_nil _ _)
  nested := by
    cases hfs : c.frames with
    | nil =>
        rw [Core.enter, hfs]
        exact I.flag_iff.mpr hfs
    | cons g fs =>
        have hflag : c.flag = false := by
          rw [Bool.eq_false_iff, ne_eq, I.flag_iff, hfs]
          exact List.cons_ne_nil _ _
        rw [Core.enter, hfs]
        exact ⟨hflag, rfl, hfs ▸ I.nested⟩
  serving := by
    intro w hw
    obtain ⟨f, hf, hrest⟩ := I.serving w hw
    exact ⟨f, List.mem_cons_of_mem _ hf, hrest⟩
  valid := I.valid
  balance := by
    intro w
    have hsame : (c.enter v false).active w = c.active w :=
      List.countP_cons_of_neg (by simp)
    rw [hsame]
    exact I.balance w

/-- The entry for a request: nothing is in service, and no wrapper is active. -/
theorem take (I : Inv c) (hflag : c.flag = true) {v : Fin kMaxInterrupt} (hv : v ∈ c.apic.irr) :
    Inv (Core.enter v true { c with
      apic := { c.apic with irr := c.apic.irr.erase v, isr := insert v c.apic.isr } }) := by
  have hfs := I.flag_iff.mp hflag
  have hisr := I.isr_eq_empty hflag
  refine ⟨I.opened.of_reg rfl, iff_of_false Bool.false_ne_true (List.cons_ne_nil _ _), ?_, ?_, ?_,
    ?_⟩
  · rw [Core.enter, hfs]
    exact hflag
  · intro w hw
    rw [Core.enter, hisr] at hw
    rw [Finset.mem_singleton.mp (hw : w ∈ ({v} : Finset _))]
    exact ⟨_, List.mem_cons_self, rfl, rfl, by simp⟩
  · intro w hw
    exact I.valid w (Finset.mem_of_mem_erase hw)
  · intro w
    have hbal := I.balance w
    simp only [Core.enter, pending, active, hfs, Finset.mem_erase, List.countP_nil] at hbal ⊢
    by_cases hw : w = v
    · subst hw
      rw [if_pos hv] at hbal
      simp [hbal]
    · have hne : ¬ v = w := fun h => hw h.symm
      simp [hbal, hw, hne]

/-- The handlers of the innermost wrapper. -/
theorem handlers (I : Inv c) {v : Fin kMaxInterrupt} {saved external : Bool}
    (hfs : c.frames = ⟨v, saved, external, .handlers⟩ :: fs) :
    Inv { c with
      frames := ⟨v, saved, external, .eoi⟩ :: fs
      served := if external then Function.update c.served v (c.served v + 1) else c.served } where
  opened := I.opened
  flag_iff := by
    rw [I.flag_iff, hfs]
    exact iff_of_false (List.cons_ne_nil _ _) (List.cons_ne_nil _ _)
  nested := Nested.phase (f := ⟨v, saved, external, .handlers⟩) (hfs ▸ I.nested)
  serving := by
    intro w hw
    obtain ⟨f, hf, he, hv, hp⟩ := I.serving w hw
    rw [hfs] at hf
    rcases List.mem_cons.mp hf with rfl | hf
    · exact ⟨_, List.mem_cons_self, he, hv, by simp⟩
    · exact ⟨f, List.mem_cons_of_mem _ hf, he, hv, hp⟩
  valid := I.valid
  balance := by
    intro w
    have hbal := I.balance w
    simp only [pending, active, hfs, List.countP_cons] at hbal ⊢
    cases external with
    | false => simpa using hbal
    | true =>
        by_cases hw : w = v
        · subst hw
          simp at hbal ⊢
          omega
        · have hne : ¬ v = w := fun h => hw h.symm
          simpa [hw, hne] using hbal

/-- The end that the innermost wrapper signals leaves nothing in service, whatever it was
entered for. -/
theorem eoi (I : Inv c) {v : Fin kMaxInterrupt} {saved external : Bool}
    (hfs : c.frames = ⟨v, saved, external, .eoi⟩ :: fs) :
    Inv { c with apic := c.apic.eoi, frames := ⟨v, saved, external, .iret⟩ :: fs } where
  opened := I.opened.of_reg rfl
  flag_iff := by
    rw [I.flag_iff, hfs]
    exact iff_of_false (List.cons_ne_nil _ _) (List.cons_ne_nil _ _)
  nested := Nested.phase (f := ⟨v, saved, external, .eoi⟩) (hfs ▸ I.nested)
  serving := by
    have hnone : c.apic.eoi.isr = ∅ := endHighest_eq_empty (I.serving.card_le I.nested)
    rw [hnone]
    exact Serving.empty _
  valid := I.valid
  balance := by
    intro w
    have hbal := I.balance w
    have hirr : c.apic.eoi.irr = c.apic.irr := irr_write
    simp only [pending, active, hfs, hirr, List.countP_cons] at hbal ⊢
    simpa using hbal

theorem iret (I : Inv c) {v : Fin kMaxInterrupt} {saved external : Bool}
    (hfs : c.frames = ⟨v, saved, external, .iret⟩ :: fs) :
    Inv { c with flag := saved, frames := fs } where
  opened := I.opened
  flag_iff := by
    have hnested := I.nested
    rw [hfs] at hnested
    cases fs with
    | nil => exact iff_of_true hnested rfl
    | cons g fs =>
        have hsaved : saved = false := hnested.1
        simp [hsaved]
  nested := Nested.tail (hfs ▸ I.nested)
  serving := by
    intro w hw
    obtain ⟨f, hf, he, hv, hp⟩ := I.serving w hw
    rw [hfs] at hf
    rcases List.mem_cons.mp hf with rfl | hf
    · exact absurd rfl hp
    · exact ⟨f, hf, he, hv, hp⟩
  valid := I.valid
  balance := by
    intro w
    have hbal := I.balance w
    simp only [pending, active, hfs, List.countP_cons] at hbal ⊢
    simpa using hbal

/-- Step lemma. -/
theorem next (I : Inv c) {e : CoreEvent} (h : c.next e = some c') : Inv c' := by
  cases e with
  | request v =>
      rw [Core.next] at h
      split at h
      next hnew =>
        cases h
        exact I.request hnew.1.2 hnew.2
      next =>
        cases h
        exact I
  | exception v =>
      rw [Core.next] at h
      split at h
      · cases h
      · cases h
        exact I.enter v
  | spurious =>
      rw [Core.next] at h
      split at h
      · cases h
        exact I.enter _
      · cases h
  | take =>
      obtain ⟨v, hflag, hv, rfl⟩ := next_take h
      exact I.take hflag (highest?_mem hv)
  | handlers =>
      obtain ⟨v, saved, external, fs, hfs, rfl⟩ := next_handlers h
      exact I.handlers hfs
  | eoi =>
      obtain ⟨v, saved, external, fs, hfs, rfl⟩ := next_eoi h
      exact I.eoi hfs
  | iret =>
      obtain ⟨v, saved, external, fs, hfs, rfl⟩ := next_iret h
      exact I.iret hfs

end Inv

/-! ### What is left to do -/

/-- The steps a wrapper still takes. -/
def left (f : WrapperFrame) : Nat :=
  match f.phase with
  | .handlers => 3
  | .eoi => 2
  | .iret => 1

/-- The steps until no request waits and every wrapper has returned. -/
def load (c : Core) : Nat := 4 * c.apic.irr.card + (c.frames.map left).sum

/-- Each of the processor's own steps brings the end nearer. -/
theorem load_next {e : CoreEvent} (he : Internal e) (h : c.next e = some c') :
    c'.load + 1 = c.load ∧ c'.accepted = c.accepted := by
  cases e with
  | request v | exception v | spurious => exact he.elim
  | take =>
      obtain ⟨v, hflag, hv, rfl⟩ := next_take h
      have hcard := Finset.card_erase_add_one (highest?_mem hv)
      refine ⟨?_, rfl⟩
      simp only [load, enter, List.map_cons, List.sum_cons, left]
      omega
  | handlers =>
      obtain ⟨v, saved, external, fs, hfs, rfl⟩ := next_handlers h
      refine ⟨?_, rfl⟩
      simp only [load, hfs, List.map_cons, List.sum_cons, left]
      omega
  | eoi =>
      obtain ⟨v, saved, external, fs, hfs, rfl⟩ := next_eoi h
      have hirr : c.apic.eoi.irr = c.apic.irr := irr_write
      refine ⟨?_, rfl⟩
      simp only [load, hfs, hirr, List.map_cons, List.sum_cons, left]
      omega
  | iret =>
      obtain ⟨v, saved, external, fs, hfs, rfl⟩ := next_iret h
      refine ⟨?_, rfl⟩
      simp only [load, hfs, List.map_cons, List.sum_cons, left]
      omega

/-- With interrupts enabled the highest request is taken. -/
theorem Inv.highest?_eq (I : Inv c) (hflag : c.flag = true) (h : c.apic.irr.Nonempty) :
    c.apic.highest? = some (c.apic.irr.max' h) := by
  have hvalid := I.valid _ (c.apic.irr.max'_mem h)
  have hclass : c.apic.processorClass = 0 := by
    rw [processorClass, I.opened.priority, I.isr_eq_empty hflag]
    rfl
  rw [highest?, dif_pos h, hclass, if_pos]
  rw [priorityClass]
  omega

/-- As long as something is left, the processor has a step. -/
theorem Inv.progress (I : Inv c) (h : c.load ≠ 0) : ∃ e, Internal e ∧ (c.next e).isSome := by
  cases hfs : c.frames with
  | nil =>
      have hflag := I.flag_iff.mpr hfs
      have hne : c.apic.irr.Nonempty := by
        rw [load, hfs] at h
        apply Finset.card_pos.mp
        simp only [List.map_nil, List.sum_nil] at h
        omega
      refine ⟨.take, trivial, ?_⟩
      rw [Core.next, hflag, I.highest?_eq hflag hne]
      rfl
  | cons f fs =>
      obtain ⟨v, saved, external, phase⟩ := f
      cases phase with
      | handlers =>
          refine ⟨.handlers, trivial, ?_⟩
          rw [Core.next, hfs]
          rfl
      | eoi =>
          refine ⟨.eoi, trivial, ?_⟩
          rw [Core.next, hfs]
          rfl
      | iret =>
          refine ⟨.iret, trivial, ?_⟩
          rw [Core.next, hfs]
          rfl

/-- Left alone, the processor comes to the end. -/
theorem Inv.drains (I : Inv c) :
    ∃ c', Run Core.next Internal c c' ∧ Inv c' ∧ c'.load = 0 ∧ c'.accepted = c.accepted := by
  induction hn : c.load generalizing c with
  | zero => exact ⟨c, .start, I, hn, rfl⟩
  | succ n ih =>
      obtain ⟨e, he, hsome⟩ := I.progress (by omega)
      obtain ⟨c₁, hnext⟩ := Option.isSome_iff_exists.mp hsome
      obtain ⟨hload, hacc⟩ := load_next he hnext
      obtain ⟨c₂, hrun, I₂, hzero, hacc₂⟩ := ih (I.next hnext) (by omega)
      exact ⟨c₂, (Run.next .start he hnext).trans hrun, I₂, hzero, hacc₂.trans hacc⟩

theorem eq_nil_of_load (h : c.load = 0) : c.frames = [] ∧ c.apic.irr = ∅ := by
  obtain ⟨hirr, hfs⟩ := Nat.add_eq_zero_iff.mp h
  constructor
  · cases hc : c.frames with
    | nil => rfl
    | cons f fs =>
        obtain ⟨v, saved, external, phase⟩ := f
        rw [hc, List.map_cons, List.sum_cons] at hfs
        cases phase <;> simp [left] at hfs
  · apply Finset.card_eq_zero.mp
    omega

/-- Requests are served without loss: with interrupts enabled no wrapper is active and
nothing is in service; at most one wrapper is about a request; every accepted request has
had its handlers run once, or waits in the APIC, or its wrapper is about to run them; and
left alone the processor serves all of them and comes back to where it was interrupted. -/
structure Serves (c : Core) : Prop where
  quiet : c.flag = true → c.frames = [] ∧ c.apic.isr = ∅
  one : ∀ f ∈ c.frames, ∀ g ∈ c.frames, f.external = true → g.external = true → f = g
  balance : ∀ v, c.accepted v = c.served v + c.pending v + c.active v
  drains : ∃ c', Run Core.next Internal c c' ∧ c'.flag = true ∧ c'.frames = [] ∧
    c'.apic.irr = ∅ ∧ ∀ v, c'.served v = c.accepted v

theorem Inv.serves (I : Inv c) : Serves c where
  quiet := fun h => ⟨I.flag_iff.mp h, I.isr_eq_empty h⟩
  one := fun _ hf _ hg hfe hge => I.nested.unique hf hg hfe hge
  balance := I.balance
  drains := by
    obtain ⟨c', hrun, I', hzero, hacc⟩ := I.drains
    obtain ⟨hfs, hirr⟩ := eq_nil_of_load hzero
    refine ⟨c', hrun, I'.flag_iff.mpr hfs, hfs, hirr, fun v => ?_⟩
    have hbal := I'.balance v
    rw [hacc] at hbal
    simp [hbal, pending, active, hfs, hirr]

/-- From the call of `InitCpu` in `KernelMain` on, over every run of requests, exceptions,
spurious interrupts and wrappers, if the firmware left at most one interrupt in service:
although every wrapper writes `EOI`, no request is lost and none is served twice. -/
theorem serves_of_run {o : LocalApic.Outside} {addr : Nat} {base base' : CpuMSRValue}
    {d₀ d : LocalApicDevice} {l : LocalApic} {s s' : Paging}
    (hinit : LocalApic.initCpu o ⟨addr, 0#32⟩ base d₀ s = some (.ok (l, base', d, s')))
    (hisr : d₀.isr.card ≤ 1) (hirr : ∀ v ∈ d₀.irr, 16 ≤ v.val)
    (hrun : Run Core.next (fun _ => True) (Core.start d) c) : Serves c := by
  obtain ⟨T, hd, hreq⟩ := LocalApic.initCpu_ticking hinit
  have I₀ : Inv (Core.start d) := by
    refine Inv.start T.toOpen ?_ ?_
    · rw [hd, endHighest_eq_empty hisr]
    · rw [hreq]
      exact hirr
  exact (hrun.inv I₀ fun _ _ _ I _ h => I.next h).serves

/-- The APIC of a machine whose firmware left vector 200 in service, behind `InitCpu`. -/
def gigahertzApic : LocalApicDevice :=
  LocalApic.startTimer ⟨0xFEE00000, LocalApic.busFrequency LocalApic.gigahertz.count⟩
    ((LocalApic.startCalibration (LocalApic.setMasks ⟨fun _ => 0#32, ∅, {200}⟩)).write .timer
      (1#32 <<< 16))

/-- A breakpoint in the handlers of the timer: the wrapper of the breakpoint ends the timer's
interrupt. -/
theorem serves_of_run_nested :
    ∃ c, [CoreEvent.request 32, .take, .exception 3, .request 40, .handlers, .eoi, .iret].foldlM
      Core.next (Core.start gigahertzApic) = some c ∧ Serves c := by
  obtain ⟨s, s', -, hmap⟩ := LocalApic.smallTables_mapRegisters
  have hinit : LocalApic.initCpu LocalApic.gigahertz ⟨0xFEE00000, 0#32⟩ ⟨0#32, 0#32⟩
      ⟨fun _ => 0#32, ∅, {200}⟩ s = some (.ok (_, _, gigahertzApic, s')) :=
    LocalApic.initCpu_eq_ok_iff.mpr
      ⟨hmap, rfl, ⟨10000101#64, by decide, by decide⟩, by decide, rfl, rfl, rfl⟩
  obtain ⟨c, hc⟩ := Option.isSome_iff_exists.mp (by decide +kernel :
    ([CoreEvent.request 32, .take, .exception 3, .request 40, .handlers, .eoi, .iret].foldlM
      Core.next (Core.start gigahertzApic)).isSome)
  exact ⟨c, hc, serves_of_run hinit (by decide) (fun v hv => absurd hv (Finset.notMem_empty v))
    (Run.of_events hc fun _ _ => trivial)⟩

end Core

end Chestnut
