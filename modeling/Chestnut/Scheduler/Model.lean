import Chestnut.Slab.Holdings

/-!
# The thread scheduler

`Scheduler` keeps the nodes of the threads in intrusive queues. The current
thread is in none of them; `RoundRobin` puts it at the end of the ready queue
and takes the first node out, and `ExitCurrentThread` puts it into the exit
queue.

## Implementation notes

`list_node` is the first member of `ThreadNode`, so a `ListNode *` and the
`ThreadNode *` it is cast to share one name. The switch to the next thread at
the end of `ExitCurrentThread` is left out.
-/

namespace Chestnut

open Lib

/-- A `ListNode *`: a member of `Scheduler`, or the node at a physical address. -/
inductive QueueRef
  | ready
  | waiting
  | exit
  | node (paddr : Nat)
  deriving DecidableEq, Repr

/-- The members of `Scheduler`, and the member `thr` of the nodes. -/
structure Scheduler where
  links : Links QueueRef
  thr : QueueRef → Option Nat
  curThread : Option QueueRef

def sizeofThreadNode : Nat := 24

namespace Scheduler

/-- `InitThreadQUeue`. -/
def initThreadQueue (s : Scheduler) : Scheduler :=
  let s := { s with links := s.links.initHead .ready }
  let s := { s with links := s.links.initHead .waiting }
  { s with links := s.links.initHead .exit }

/-- `AddThread`; the address of the new node goes into the history. -/
def addThread (thr : Nat) (s : Scheduler) (h : Heap) : Except Fault (Nat × Scheduler × Heap) := do
  let (thrNode, h) ← Kernel.alloc sizeofThreadNode h
  let s := { s with thr := Function.update s.thr (.node thrNode) (some thr) }
  return (thrNode, { s with links := s.links.insertBefore (.node thrNode) .ready }, h)

/-- The first statement of `RoundRobin`. -/
def requeue (s : Scheduler) : Scheduler :=
  match s.curThread with
  | none => s
  | some node => { s with links := s.links.insertBefore node .ready }

/-- The rest of `RoundRobin`. -/
def takeFirst (s : Scheduler) : Option QueueRef × Scheduler :=
  if s.links.isEmpty .ready then (none, s)
  else
    let node := s.links.next .ready
    (some node, { s with curThread := some node, links := s.links.delete node })

/-- `RoundRobin`. -/
def roundRobin (s : Scheduler) : Option QueueRef × Scheduler := s.requeue.takeFirst

/-- `ExitCurrentThread` up to the switch. -/
def exitCurrentThread (s : Scheduler) : Except Fault Scheduler :=
  match s.curThread with
  | none => .error .nullDeref
  | some node =>
      let s := { s with links := s.links.insertAfter node .exit }
      let r := roundRobin { s with curThread := none }
      .ok { r.2 with curThread := r.1 }

end Scheduler

/-- The scheduler and the heap that it takes its nodes from. `created` has the nodes of
`AddThread` with their threads, `picks` what `RoundRobin` has returned; both are history
variables. -/
structure SchedWorld where
  sched : Scheduler
  heap : Heap
  created : List (Nat × Nat) := []
  picks : List QueueRef := []

inductive SchedOp
  | addThread (thr : Nat)
  | roundRobin
  | exitCurrentThread
  | elsewhere (heap : Heap)

namespace SchedWorld

/-- Both queues empty and no current thread. -/
def start (s : Scheduler) (heap : Heap) : SchedWorld :=
  { sched := { s.initThreadQueue with curThread := none }, heap }

/-- The blocks that the nodes lie in. -/
def blocks (w : SchedWorld) : List (Nat × Nat) := w.created.map fun c => (c.1, sizeofThreadNode)

def nodes (w : SchedWorld) : List QueueRef := w.created.map fun c => .node c.1

def step (w : SchedWorld) : SchedOp → Except Fault SchedWorld
  | .addThread thr => do
      let (thrNode, sched, heap) ← w.sched.addThread thr w.heap
      return { w with sched, heap, created := w.created ++ [(thrNode, thr)] }
  | .roundRobin =>
      let r := w.sched.roundRobin
      .ok { w with sched := r.2, picks := w.picks ++ r.1.toList }
  | .exitCurrentThread => do
      let sched ← w.sched.exitCurrentThread
      return { w with sched, picks := w.picks ++ sched.curThread.toList }
  | .elsewhere heap => .ok { w with heap }

/-- What others do with the heap leaves the nodes where they are. -/
def Allowed (mp : MemPages) (links : Links NodeRef) (slab : Nat → SlabRec) (w : SchedWorld) :
    SchedOp → Prop
  | .elsewhere heap => HeapWorld.Lives mp links slab heap w.blocks
  | _ => True

/-- The states that any calls lead to from `w₀`. -/
abbrev Reaches (mp : MemPages) (links : Links NodeRef) (slab : Nat → SlabRec) :
    SchedWorld → SchedWorld → Prop :=
  Reach step (Allowed mp links slab)

end SchedWorld

end Chestnut
