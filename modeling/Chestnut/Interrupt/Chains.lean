import Chestnut.Interrupt.Model
import Chestnut.IoApic.Model
import Chestnut.Lib.Chain
import Mathlib.Algebra.GroupWithZero.Nat

/-!
# The handlers of a vector

`IrqVector::InstallChainHandler` and `InvokeChainHandlers` of `irqs.h` and
`irqs.cc` on the array of chains and the `next` members of the handlers, and
the part of `Setup` that clears the array. Over a run of these calls the chain
of a vector is the list of what was installed for it, the latest first.

## Implementation notes

A handler is named by its address. It has one `next` member for all vectors,
which its constructor leaves alone, so that the links before the first call are
arbitrary. `Setup` clears `sizeof(IrqHandler *)` bytes of the array, that is,
its first element. Handlers do not change the links while they run.
-/

namespace Chestnut

open Lib Lib.X86

instance : NeZero kMaxInterrupt := ⟨Nat.succ_ne_zero _⟩

variable {H : Type}

/-- The member `handlers` of `IrqVector`, and `next` of every handler. -/
structure IrqVector (H : Type) where
  handlers : Fin kMaxInterrupt → Option H
  next : H → Option H

namespace IrqVector

/-- The static `vec` before the first call. -/
def zero (next : H → Option H) : IrqVector H := ⟨fun _ => none, next⟩

/-- `InvokeChainHandlers`, the handlers given by what they do to the state. -/
def invokeChainHandlers {σ : Type} (vec : IrqVector H) (irq : Fin kMaxInterrupt)
    (run : H → σ → σ) (fuel : Nat) (s : σ) : Option (Except Fault σ) :=
  walkChain vec.next (fun h s => .ok (run h s)) fuel (vec.handlers irq) s

/-- `memset(handlers, 0, sizeof(IrqHandler *))` in `Setup`. -/
def clearHandlers (vec : IrqVector H) : IrqVector H :=
  { vec with handlers := Function.update vec.handlers 0 none }

variable [DecidableEq H]

/-- `InstallChainHandler`. -/
def installChainHandler (irq : Fin kMaxInterrupt) (p : H) (vec : IrqVector H) : IrqVector H :=
  let vec := { vec with next := Function.update vec.next p (vec.handlers irq) }
  { vec with handlers := Function.update vec.handlers irq (some p) }

end IrqVector

/-- A call that changes the chains. -/
inductive ChainOp (H : Type)
  | setup
  | install (irq : Fin kMaxInterrupt) (p : H)

/-- The handlers of each vector, the next one to run first. -/
abbrev HandlerLists (H : Type) : Type := Fin kMaxInterrupt → List H

namespace ChainOp

/-- What a call is for. -/
def record (a : HandlerLists H) : ChainOp H → HandlerLists H
  | setup => Function.update a 0 []
  | install irq p => Function.update a irq (p :: a irq)

/-- The handler is on no chain yet. -/
def Fresh (a : HandlerLists H) : ChainOp H → Prop
  | setup => True
  | install _ p => ∀ u, p ∉ a u

/-- Every call of the run installs a handler that is on no chain at that time. -/
def FreshRun : HandlerLists H → List (ChainOp H) → Prop
  | _, [] => True
  | a, op :: ops => Fresh a op ∧ FreshRun (record a op) ops

/-- The chains after a run of calls from empty ones. -/
def installed (ops : List (ChainOp H)) : HandlerLists H := ops.foldl record fun _ => []

variable [DecidableEq H]

def exec (vec : IrqVector H) : ChainOp H → IrqVector H
  | setup => vec.clearHandlers
  | install irq p => vec.installChainHandler irq p

end ChainOp

namespace IrqVector

open ChainOp

/-- The chain of every vector is its list. -/
def Represents (vec : IrqVector H) (a : HandlerLists H) : Prop :=
  ∀ u, Chain vec.next (vec.handlers u) (a u)

variable {vec : IrqVector H} {a : HandlerLists H} {irq u : Fin kMaxInterrupt} {p : H}

theorem represents_zero (next : H → Option H) : Represents (zero next) fun _ => [] := fun _ => rfl

theorem Represents.clearHandlers (R : vec.Represents a) :
    vec.clearHandlers.Represents (record a .setup) := by
  intro u
  by_cases hu : u = 0
  · subst hu
    have hnull : vec.clearHandlers.handlers 0 = none := by simp [IrqVector.clearHandlers]
    rw [hnull, record, Function.update_self]
    rfl
  · have hsame : vec.clearHandlers.handlers u = vec.handlers u := Function.update_of_ne hu ..
    rw [hsame, record, Function.update_of_ne hu]
    exact R u

/-- Along a chain the handlers run one after the other, as the wrapper's model
has it. -/
theorem invokeChainHandlers_eq_some {l : List H} (h : Chain vec.next (vec.handlers irq) l)
    (routine : H → Routine) (f ctx : BitVec 64) (c : Cpu) {k : Nat} (hk : l.length ≤ k) :
    vec.invokeChainHandlers irq (fun h => (routine h).run f ctx) k c =
      some (.ok (Chestnut.invokeChainHandlers (l.map routine) f ctx c)) := by
  rw [IrqVector.invokeChainHandlers, walkChain_eq_some h hk, Chestnut.invokeChainHandlers,
    List.foldl_map]
  exact congrArg some (List.foldlM_pure (m := Except Fault))

variable [DecidableEq H]

theorem installChainHandler_self :
    (vec.installChainHandler irq p).handlers irq = some p := Function.update_self ..

theorem installChainHandler_of_ne (hu : u ≠ irq) :
    (vec.installChainHandler irq p).handlers u = vec.handlers u := Function.update_of_ne hu ..

/-- The vector's own chain grows by one handler, which must not be on it. -/
theorem Represents.install_self (R : vec.Represents a) (hp : p ∉ a irq) :
    Chain (vec.installChainHandler irq p).next ((vec.installChainHandler irq p).handlers irq)
      (p :: a irq) := by
  rw [installChainHandler_self]
  exact (R irq).push hp

/-- The chains that the handler is not on stay. -/
theorem Represents.install_of_ne (R : vec.Represents a) (hu : u ≠ irq) (hp : p ∉ a u) :
    Chain (vec.installChainHandler irq p).next ((vec.installChainHandler irq p).handlers u)
      (a u) := by
  rw [installChainHandler_of_ne hu]
  exact Path.frame (R u) hp _

theorem Represents.exec (R : vec.Represents a) {op : ChainOp H} (h : Fresh a op) :
    (ChainOp.exec vec op).Represents (record a op) := by
  cases op with
  | setup => exact R.clearHandlers
  | install irq p =>
      intro u
      by_cases hu : u = irq
      · subst hu
        rw [record, Function.update_self]
        exact R.install_self (h u)
      · rw [record, Function.update_of_ne hu]
        exact R.install_of_ne hu (h u)

theorem Represents.run (R : vec.Represents a) {ops : List (ChainOp H)} (h : FreshRun a ops) :
    (ops.foldl ChainOp.exec vec).Represents (ops.foldl record a) := by
  induction ops generalizing vec a with
  | nil => exact R
  | cons op ops ih => exact ih (R.exec h.1) h.2

/-- Over every run of `Setup` and `InstallChainHandler` that installs no handler
twice at a time, `InvokeChainHandlers` runs exactly what was installed for the
vector, the latest first. One more handler `p` for a vector: if it is on the
vector's own chain the invocation never ends; if not, it runs first, and a chain
of another vector that held `p` goes on behind it with this vector's handlers. -/
theorem invocation_of_run (next : H → Option H) {ops : List (ChainOp H)}
    (h : FreshRun (fun _ => []) ops) (irq : Fin kMaxInterrupt) (routine : H → Routine)
    (f ctx : BitVec 64) (c : Cpu) :
    let vec := ops.foldl exec (zero next)
    let invoke (vec : IrqVector H) (u : Fin kMaxInterrupt) (fuel : Nat) :=
      vec.invokeChainHandlers u (fun h => (routine h).run f ctx) fuel c
    let ran (l : List H) := some (.ok (Chestnut.invokeChainHandlers (l.map routine) f ctx c))
    (∀ k, (installed ops irq).length ≤ k → invoke vec irq k = ran (installed ops irq)) ∧
      ∀ p,
        (p ∈ installed ops irq → ∀ k, invoke (vec.installChainHandler irq p) irq k = none) ∧
        (p ∉ installed ops irq →
          (∃ n, ∀ k, n ≤ k →
            invoke (vec.installChainHandler irq p) irq k = ran (p :: installed ops irq)) ∧
          ∀ u above below, u ≠ irq → installed ops u = above ++ p :: below → p ∉ above →
            ∃ n, ∀ k, n ≤ k → invoke (vec.installChainHandler irq p) u k =
              ran (above ++ p :: installed ops irq)) := by
  intro vec invoke ran
  have R : vec.Represents (installed ops) := (represents_zero next).run h
  refine ⟨fun k hk => invokeChainHandlers_eq_some (R irq) routine f ctx c hk,
    fun p => ⟨fun hp k => ?_, fun hp => ⟨?_, ?_⟩⟩⟩
  · have hcycle : ∀ l, ¬ Chain (vec.installChainHandler irq p).next
        ((vec.installChainHandler irq p).handlers irq) l := by
      intro l
      rw [installChainHandler_self]
      exact (R irq).not_chain_push hp
    exact walkChain_eq_none (fun h c => ⟨_, rfl⟩) hcycle k
  · exact ⟨_, fun k hk => invokeChainHandlers_eq_some (R.install_self hp) routine f ctx c hk⟩
  · intro u above below hu hsplit hfirst
    have hdiverted : Chain (vec.installChainHandler irq p).next
        ((vec.installChainHandler irq p).handlers u) (above ++ p :: installed ops irq) := by
      rw [installChainHandler_of_ne hu]
      exact (R irq).divert hp (hsplit ▸ R u) hfirst
    exact ⟨_, fun k hk => invokeChainHandlers_eq_some hdiverted routine f ctx c hk⟩

/-- Two handlers for the timer's vector. -/
theorem invocation_of_run_timer :
    FreshRun (fun _ => []) [.install 32 1, .install 32 2] ∧
      ∀ (routine : Nat → Routine) f ctx c k, 2 ≤ k →
        ([ChainOp.install 32 1, .install 32 2].foldl exec (zero fun _ => none)).invokeChainHandlers
            32 (fun h => (routine h).run f ctx) k c =
          some (.ok (Chestnut.invokeChainHandlers [routine 2, routine 1] f ctx c)) := by
  have hfresh : FreshRun (fun _ => []) [ChainOp.install 32 1, .install 32 2] := by
    refine ⟨fun u => List.not_mem_nil, fun u => ?_, trivial⟩
    by_cases hu : u = 32 <;> simp [record, hu]
  refine ⟨hfresh, fun routine f ctx c k hk => ?_⟩
  have hinstalled : installed [ChainOp.install 32 1, .install 32 2] 32 = [2, 1] := by
    simp [installed, record]
  have hran := (invocation_of_run (fun _ => none) hfresh 32 routine f ctx c).1 k
  rw [hinstalled] at hran
  exact hran hk

end IrqVector

end Chestnut
