import Chestnut.Lib.Rota
import Chestnut.Scheduler.Model

/-!
# Threads take turns

The queues of the scheduler are the lists of a rota (`Tracks`), and each call
is a step of it (`step_tracks`), so what holds along the runs of a rota holds
along all sequences of calls.
-/

namespace Chestnut

open Lib

namespace Scheduler

/-! ### The two queues -/

/-- The members of the ready and the exit queue. -/
def queueSeq (ready exit : List QueueRef) : QueueRef → List QueueRef
  | .ready => ready
  | .exit => exit
  | _ => []

/-- The links are those of the two queues. -/
def Queues (l : Links QueueRef) (ready exit : List QueueRef) : Prop :=
  Rings l {.ready, .exit} (queueSeq ready exit)

namespace Queues

variable {l : Links QueueRef} {ready exit : List QueueRef} {x : QueueRef} {p : Nat}

theorem update_ready (ready ready' exit : List QueueRef) :
    Function.update (queueSeq ready exit) .ready ready' = queueSeq ready' exit := by
  funext x
  cases x <;> rfl

theorem update_exit (ready exit exit' : List QueueRef) :
    Function.update (queueSeq ready exit) .exit exit' = queueSeq ready exit' := by
  funext x
  cases x <;> rfl

theorem ready_mem : QueueRef.ready ∈ ({.ready, .exit} : Set QueueRef) := .inl rfl

theorem exit_mem : QueueRef.exit ∈ ({.ready, .exit} : Set QueueRef) := .inr rfl

theorem ready_ring (Q : Queues l ready exit) : Ring l .ready ready := Q.ring .ready ready_mem

theorem exit_ring (Q : Queues l ready exit) : Ring l .exit exit := Q.ring .exit exit_mem

theorem loose (hready : .node p ∉ ready) (hexit : .node p ∉ exit) :
    Loose {.ready, .exit} (queueSeq ready exit) (.node p) := by
  rintro hd (rfl | rfl)
  · simpa [queueSeq] using hready
  · simpa [queueSeq] using hexit

/-- A node goes to the end of the ready queue. -/
theorem enter (Q : Queues l ready exit) (hready : .node p ∉ ready) (hexit : .node p ∉ exit) :
    Queues (l.insertBefore (.node p) .ready) (ready ++ [.node p]) exit := by
  have R := Rings.append Q ready_mem (loose hready hexit)
  rwa [update_ready] at R

/-- A node goes to the front of the exit queue. -/
theorem leave (Q : Queues l ready exit) (hready : .node p ∉ ready) (hexit : .node p ∉ exit) :
    Queues (l.insertAfter (.node p) .exit) ready (.node p :: exit) := by
  have R := Rings.push Q exit_mem (loose hready hexit)
  rwa [update_exit] at R

theorem isEmpty_iff (Q : Queues l ready exit) : l.isEmpty .ready = true ↔ ready = [] := by
  rw [Links.isEmpty, beq_iff_eq, Q.ready_ring.next_eq_head_iff]

theorem next_ready (Q : Queues l (x :: ready) exit) : l.next .ready = x := Q.ready_ring.next_head

/-- The first node is taken out. -/
theorem take (Q : Queues l (x :: ready) exit) : Queues (l.delete x) ready exit := by
  have R := Rings.delete Q ready_mem (l := []) rfl
  rwa [update_ready] at R

theorem init (s : Scheduler) : Queues s.initThreadQueue.links [] [] := by
  have R₀ : Rings s.links (∅ : Set QueueRef) (queueSeq [] []) :=
    ⟨fun _ h => h.elim, fun _ h => h.elim⟩
  have R₁ := R₀.initHead (x := .ready) (fun _ h => h.elim)
  have R₂ := R₁.initHead (x := .waiting) (by simp [Loose])
  have R₃ := R₂.initHead (x := .exit) (by simp [Loose])
  have hseq : Function.update (Function.update (Function.update (queueSeq [] []) .ready [])
      .waiting []) .exit [] = queueSeq [] [] := by
    funext x
    cases x <;> rfl
  rw [hseq] at R₃
  exact R₃.mono (by simp [Set.insert_subset_iff])

end Queues

/-! ### The scheduler is a rota -/

/-- The scheduler holds the rota. -/
structure Represents (s : Scheduler) (q : Rota QueueRef) : Prop where
  queues : Queues s.links q.ready q.retired
  current : s.curThread = q.current
  isNode : ∀ x ∈ q.members, ∃ p, x = .node p

namespace Represents

variable {s : Scheduler} {q : Rota QueueRef} {c : QueueRef} {p : Nat}

theorem add (R : Represents s q) (hp : .node p ∉ q.members) :
    Represents { s with links := s.links.insertBefore (.node p) .ready } (q.add (.node p)) := by
  have hplace : .node p ∉ q.ready ∧ .node p ∉ q.retired := by
    simp only [Rota.members, List.mem_append, not_or] at hp
    exact hp.2
  refine ⟨R.queues.enter hplace.1 hplace.2, R.current, ?_⟩
  intro x hx
  rcases List.mem_cons.mp (Rota.members_add.mem_iff.mp hx) with rfl | hx
  · exact ⟨p, rfl⟩
  · exact R.isNode x hx

/-- The current node is in neither queue. -/
theorem current_out (R : Represents s q) (ok : q.Ok) (hc : q.current = some c) :
    (∃ p, c = .node p) ∧ c ∉ q.ready ∧ c ∉ q.retired :=
  ⟨R.isNode c (Rota.mem_members_of_current hc), ok.current_out hc⟩

theorem requeue (R : Represents s q) (ok : q.Ok) :
    Queues s.requeue.links q.requeue.ready q.requeue.retired := by
  rw [Scheduler.requeue, Rota.requeue, R.current]
  cases hcur : q.current with
  | none => exact R.queues
  | some c =>
      obtain ⟨⟨p, rfl⟩, hready, hretired⟩ := R.current_out ok hcur
      exact R.queues.enter hready hretired

/-- The second half of `RoundRobin` picks; it is entered with the current node in a queue. -/
theorem takeFirst (hcur : s.curThread = none ∨ q.ready ≠ []) (hq : q.current = none)
    (Q : Queues s.links q.ready q.retired) :
    Queues s.takeFirst.2.links q.pick.ready q.pick.retired ∧
      s.takeFirst.2.curThread = q.pick.current ∧ s.takeFirst.1 = q.pick.current ∧
      q.pick.picked = q.picked ++ s.takeFirst.1.toList := by
  rw [Scheduler.takeFirst]
  cases hready : q.ready with
  | nil =>
      rw [hready] at Q hcur
      have hpick : q.pick = q := by rw [Rota.pick, hready]
      rw [if_pos (Q.isEmpty_iff.mpr rfl), hpick, hready]
      exact ⟨Q, (hcur.resolve_right (fun h => h rfl)).trans hq.symm, hq.symm, by simp⟩
  | cons x xs =>
      rw [hready] at Q
      have hpick : q.pick =
          { q with ready := xs, current := some x, picked := q.picked ++ [x] } := by
        rw [Rota.pick, hready]
      have hne : ¬ s.links.isEmpty .ready = true := fun h => by
        cases Q.isEmpty_iff.mp h
      rw [if_neg hne, hpick, Q.next_ready]
      exact ⟨Q.take, rfl, rfl, rfl⟩

theorem roundRobin_thr (s : Scheduler) : s.roundRobin.2.thr = s.thr := by
  rw [Scheduler.roundRobin, Scheduler.takeFirst, Scheduler.requeue]
  cases s.curThread <;> dsimp only <;> split <;> rfl

/-- `RoundRobin` is a turn of the rota, and returns whom it has picked. -/
theorem roundRobin (R : Represents s q) (ok : q.Ok) :
    Represents s.roundRobin.2 q.rotate ∧ s.roundRobin.1 = q.rotate.current ∧
      q.rotate.picked = q.picked ++ s.roundRobin.1.toList := by
  have hcur : s.requeue.curThread = none ∨ q.requeue.ready ≠ [] := by
    rw [Scheduler.requeue, Rota.requeue, R.current]
    cases hc : q.current with
    | none => exact .inl (R.current.trans hc)
    | some c => exact .inr (by simp [Rota.add])
  have hpicked : q.requeue.picked = q.picked := by
    rw [Rota.requeue]
    split <;> rfl
  obtain ⟨Q, hcurrent, hres, hpicks⟩ := takeFirst hcur Rota.current_requeue (R.requeue ok)
  rw [hpicked] at hpicks
  exact ⟨⟨Q, hcurrent, fun x hx => R.isNode x (Rota.members_rotate.mem_iff.mp hx)⟩, hres, hpicks⟩

/-- `ExitCurrentThread` retires the current node. -/
theorem exitCurrentThread (R : Represents s q) (ok : q.Ok) (hc : q.current = some c) :
    ∃ s', s.exitCurrentThread = .ok s' ∧ Represents s' (q.retire c) ∧
      (q.retire c).picked = q.picked ++ s'.curThread.toList ∧ s'.thr = s.thr := by
  obtain ⟨⟨p, rfl⟩, hready, hretired⟩ := R.current_out ok hc
  -- with no current member a turn only picks, so the second half is a turn of this rota
  let q₁ : Rota QueueRef := { q with current := none, retired := .node p :: q.retired }
  have hmembers : q₁.members.Perm q.members := Rota.members_leave hc
  let s₁ : Scheduler :=
    { s with links := s.links.insertAfter (.node p) .exit, curThread := none }
  have R₁ : Represents s₁ q₁ :=
    ⟨R.queues.leave hready hretired, rfl, fun x hx => R.isNode x (hmembers.mem_iff.mp hx)⟩
  obtain ⟨R₂, hres, hpicks⟩ := R₁.roundRobin ⟨hmembers.nodup_iff.mpr ok.nodup, ok.fifo⟩
  refine ⟨{ s₁.roundRobin.2 with curThread := s₁.roundRobin.1 }, ?_, ?_, hpicks, ?_⟩
  · rw [Scheduler.exitCurrentThread, R.current, hc]
  · exact ⟨R₂.queues, hres, R₂.isNode⟩
  · exact roundRobin_thr s₁

end Represents

end Scheduler

namespace SchedWorld

open Scheduler HeapWorld

variable {mp : MemPages} {links : Links NodeRef} {slab : Nat → SlabRec} {fs : List Nat}
  {w w' : SchedWorld} {q : Rota QueueRef}

/-- The rota has the nodes created so far, with the threads they were created for. -/
structure Tracks (mp : MemPages) (links : Links NodeRef) (slab : Nat → SlabRec) (w : SchedWorld)
    (q : Rota QueueRef) : Prop where
  represents : Represents w.sched q
  ok : q.Ok
  members : q.members.Perm w.nodes
  picks : q.picked = w.picks
  lives : Lives mp links slab w.heap w.blocks
  threads : ∀ c ∈ w.created, w.sched.thr (.node c.1) = some c.2

theorem start_tracks (s : Scheduler) {heap : Heap} (L : Lives mp links slab heap []) :
    Tracks mp links slab (start s heap) {} where
  represents := ⟨Queues.init s, rfl, fun _ hx => absurd hx List.not_mem_nil⟩
  ok := ⟨.nil, rfl⟩
  members := .refl _
  picks := rfl
  lives := L
  threads := fun _ hc => absurd hc List.not_mem_nil

namespace Tracks

/-- `AddThread` adds a new node. -/
theorem addThread (F : MemPages.FreeList mp fs) (T : Tracks mp links slab w q) {thr : Nat}
    (hs : w.step (.addThread thr) = .ok w') :
    ∃ q', Tracks mp links slab w' q' ∧ Rota.Steps q q' := by
  rw [step] at hs
  obtain ⟨⟨p, sched, heap⟩, hadd, hw'⟩ := bind_ok hs
  obtain ⟨⟨p', heap'⟩, halloc, hrest⟩ := bind_ok hadd
  cases hrest
  cases hw'
  have L := T.lives.alloc F (by decide) (by decide) halloc
  have hfresh : QueueRef.node p ∉ w.nodes := by
    intro hmem
    obtain ⟨c, hc, heq⟩ := List.mem_map.mp hmem
    obtain ⟨w₁, -, -, -, hpair⟩ := L
    refine (List.pairwise_cons.mp hpair).1 (c.1, sizeofThreadNode) ?_ ?_
    · exact List.mem_map.mpr ⟨c, hc, rfl⟩
    · exact (QueueRef.node.inj heq).symm
  have hnew : QueueRef.node p ∉ q.members := fun hmem => hfresh (T.members.mem_iff.mp hmem)
  refine ⟨q.add (.node p), ⟨?_, T.ok.add hnew, ?_, T.picks, ?_, ?_⟩, .add .refl hnew⟩
  · exact ⟨(T.represents.add hnew).queues, T.represents.current, (T.represents.add hnew).isNode⟩
  · have hcons : (q.add (.node p)).members.Perm (.node p :: w.nodes) :=
      Rota.members_add.trans (T.members.cons _)
    simp only [nodes, List.map_append, List.map_cons, List.map_nil]
    exact hcons.trans (List.perm_append_singleton _ _).symm
  · refine L.perm ?_
    simp only [blocks, List.map_append, List.map_cons, List.map_nil]
    exact (List.perm_append_singleton _ _).symm
  · intro c hc
    rcases List.mem_append.mp hc with hc | hc
    · have hne : QueueRef.node c.1 ≠ .node p := fun heq =>
        hfresh (List.mem_map.mpr ⟨c, hc, heq⟩)
      exact (Function.update_of_ne hne _ _).trans (T.threads c hc)
    · rw [List.mem_singleton.mp hc]
      exact Function.update_self _ _ _

theorem roundRobin (T : Tracks mp links slab w q) (hs : w.step .roundRobin = .ok w') :
    Tracks mp links slab w' q.rotate := by
  cases hs
  obtain ⟨R, -, hpicks⟩ := T.represents.roundRobin T.ok
  refine ⟨R, T.ok.rotate, Rota.members_rotate.trans T.members, ?_, T.lives, ?_⟩
  · rw [hpicks, T.picks]
  · intro c hc
    rw [← T.threads c hc]
    exact congrFun (Represents.roundRobin_thr _) _

theorem exitCurrentThread (T : Tracks mp links slab w q)
    (hs : w.step .exitCurrentThread = .ok w') :
    ∃ q', Tracks mp links slab w' q' ∧ Rota.Steps q q' := by
  obtain ⟨sched, hexit, hw'⟩ := bind_ok hs
  cases hw'
  cases hc : q.current with
  | none =>
      rw [Scheduler.exitCurrentThread, T.represents.current, hc] at hexit
      cases hexit
  | some c =>
      obtain ⟨s', hs', R, hpicks, hthr⟩ := T.represents.exitCurrentThread T.ok hc
      obtain rfl : sched = s' := Except.ok.inj (hexit.symm.trans hs')
      refine ⟨q.retire c, ⟨R, T.ok.retire hc, ?_, ?_, T.lives, ?_⟩, .retire .refl hc⟩
      · exact (Rota.members_retire hc).trans T.members
      · rw [hpicks, T.picks]
      · intro c' hc'
        rw [← T.threads c' hc']
        exact congrFun hthr _

/-- Each call is a step of the rota, or none. -/
theorem step (F : MemPages.FreeList mp fs) (T : Tracks mp links slab w q) {o : SchedOp}
    (ha : w.Allowed mp links slab o) (hs : w.step o = .ok w') :
    ∃ q', Tracks mp links slab w' q' ∧ Rota.Steps q q' := by
  cases o with
  | addThread thr => exact T.addThread F hs
  | roundRobin => exact ⟨q.rotate, T.roundRobin hs, .rotate .refl⟩
  | exitCurrentThread => exact T.exitCurrentThread hs
  | elsewhere heap =>
      cases hs
      exact ⟨q, ⟨T.represents, T.ok, T.members, T.picks, ha, T.threads⟩, .refl⟩

theorem reaches (F : MemPages.FreeList mp fs) (T : Tracks mp links slab w q)
    (hw : Reaches mp links slab w w') : ∃ q', Tracks mp links slab w' q' ∧ Rota.Steps q q' := by
  refine hw.inv (I := fun w' => ∃ q', Tracks mp links slab w' q' ∧ Rota.Steps q q')
    ⟨q, T, .refl⟩ ?_
  rintro w₁ o w₂ ⟨q₁, T₁, hsteps⟩ ha hs
  obtain ⟨q₂, T₂, hsteps'⟩ := T₁.step F ha hs
  exact ⟨q₂, T₂, hsteps.trans hsteps'⟩

end Tracks

/-- `R` and `E` are the ready and the exit queue. Each node was created once, still belongs to
its thread, and is in one of the queues, once, or current. -/
structure Placed (w : SchedWorld) (R E : List QueueRef) : Prop where
  ready : Ring w.sched.links .ready R
  exit : Ring w.sched.links .exit E
  once : w.nodes.Nodup
  places : (w.sched.curThread.toList ++ (R ++ E)).Perm w.nodes
  threads : ∀ c ∈ w.created, w.sched.thr (.node c.1) = some c.2

theorem Tracks.placed (T : Tracks mp links slab w q) : Placed w q.ready q.retired where
  ready := T.represents.queues.ready_ring
  exit := T.represents.queues.exit_ring
  once := T.members.nodup_iff.mp T.ok.nodup
  places := by
    rw [T.represents.current]
    exact T.members
  threads := T.threads

/-- Everyone has retired exactly if nobody is current or waiting. -/
theorem Tracks.all_retired_iff (T : Tracks mp links slab w q) :
    (∀ x ∈ w.nodes, x ∈ q.retired) ↔ q.current = none ∧ q.ready = [] := by
  have hnodup := T.ok.nodup
  constructor
  · intro hall
    have hout : q.current.toList ++ q.ready = [] := by
      refine List.eq_nil_iff_forall_not_mem.mpr fun x hx => ?_
      rw [Rota.members, ← List.append_assoc] at hnodup
      refine List.disjoint_of_nodup_append hnodup hx (hall x (T.members.mem_iff.mp ?_))
      rw [Rota.members, ← List.append_assoc]
      exact List.mem_append_left _ hx
    obtain ⟨hcur, hready⟩ := List.append_eq_nil_iff.mp hout
    exact ⟨Option.toList_eq_nil_iff.mp hcur, hready⟩
  · rintro ⟨hcur, hready⟩ x hx
    have hmem := T.members.mem_iff.mpr hx
    rwa [Rota.members, hcur, hready] at hmem

theorem takes_turns (F : MemPages.FreeList mp fs) (s : Scheduler) {heap : Heap}
    (L : Lives mp links slab heap []) (hw : Reaches mp links slab (start s heap) w) :
    ∃ R E, Placed w R E ∧
      (∀ w', Reaches mp links slab w w' →
        ∃ S, w'.picks = w.picks ++ S ∧ (R <+: S ∨ S <+: R)) ∧
      (∀ n S w', w.sched.curThread = some n → Reaches mp links slab w w' →
        w'.picks = w.picks ++ (S ++ [n]) → n ∉ S → R <+: S ∧ ∀ m ∈ R, S.count m = 1) ∧
      (w.sched.roundRobin.1 = none ↔ ∀ x ∈ w.nodes, x ∈ E) := by
  obtain ⟨q, T, -⟩ := (start_tracks s L).reaches F hw
  refine ⟨q.ready, q.retired, T.placed, ?_, ?_, ?_⟩
  · intro w' hw'
    obtain ⟨q', T', hsteps⟩ := T.reaches F hw'
    rw [← T'.picks, ← T.picks]
    exact hsteps.picks_later T.ok
  · intro n S w' hcur hw' hpicks hS
    obtain ⟨q', T', hsteps⟩ := T.reaches F hw'
    rw [← T'.picks, ← T.picks] at hpicks
    rw [T.represents.current] at hcur
    obtain ⟨C, hC, -⟩ := hsteps.picks_between T.ok hcur hpicks hS
    exact ⟨⟨C, hC.symm⟩, fun m hm => hsteps.count_picks_between T.ok hcur hpicks hS hm⟩
  · obtain ⟨-, hres, -⟩ := T.represents.roundRobin T.ok
    rw [hres, Rota.current_rotate_eq_none_iff, T.all_retired_iff]

/-- No thread yet, on a machine with eight free pages. -/
def sampleStart : SchedWorld :=
  start ⟨⟨fun x => x, fun x => x⟩, fun _ => none, none⟩ (HeapWorld.machine 8).heap

/-- Two threads are added, and the first of them is picked. -/
def sampleOps : List SchedOp := [.addThread 7, .addThread 9, .roundRobin]

/-- Then each of them has a turn. -/
def sampleTurns : List SchedOp := [.roundRobin, .roundRobin]

theorem takes_turns_pair :
    ∃ w w' R, sampleOps.foldlM step sampleStart = .ok w ∧ sampleTurns.foldlM step w = .ok w' ∧
      w'.picks = w.picks ++ ([.node 28704] ++ [.node 28672]) ∧
      Ring w.sched.links .ready R ∧ R <+: [.node 28704] := by
  have hrun : ((sampleOps.foldlM step sampleStart).bind fun w =>
      (sampleTurns.foldlM step w).map fun w' => (w.picks, w.sched.curThread, w'.picks)) =
        .ok ([.node 28672], some (.node 28672), [.node 28672, .node 28704, .node 28672]) := by
    decide +kernel
  cases hw : sampleOps.foldlM step sampleStart with
  | error e =>
      rw [hw] at hrun
      cases hrun
  | ok w =>
      rw [hw] at hrun
      cases hw' : sampleTurns.foldlM step w with
      | error e =>
          rw [Except.bind, hw'] at hrun
          cases hrun
      | ok w' =>
          rw [Except.bind, hw', Except.map] at hrun
          simp only [Except.ok.injEq, Prod.mk.injEq] at hrun
          obtain ⟨hpicks, hcur, hpicks'⟩ := hrun
          have hturns : w'.picks = w.picks ++ ([.node 28704] ++ [.node 28672]) := by
            rw [hpicks, hpicks']
            rfl
          have hreach : Reaches (MemPages.line 8) ⟨fun x => x, fun x => x⟩ (fun _ => {})
              sampleStart w :=
            .of_ops (by simp [sampleOps, Allowed]) hw
          have hreach' : Reaches (MemPages.line 8) ⟨fun x => x, fun x => x⟩ (fun _ => {}) w w' :=
            .of_ops (by simp [sampleTurns, Allowed]) hw'
          obtain ⟨R, E, hplaced, -, hfifo, -⟩ := takes_turns
            (MemPages.line_freeList (n := 8) (by decide)) _
            (.nil (w := HeapWorld.machine 8) .start) hreach
          exact ⟨w, w', R, rfl, hw', hturns, hplaced.ready,
            (hfifo _ _ _ hcur hreach' hturns (by decide)).1⟩

end SchedWorld

end Chestnut
