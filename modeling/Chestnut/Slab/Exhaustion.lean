import Chestnut.Pages.Requests
import Chestnut.Paging.Tree
import Chestnut.Slab.Safety

/-!
# Running out of pages

No caller of `AllocPage` and `AllocPages` tests the page it gets. For every
entry point that allocates, the states in which the call returns are named
exactly; in all others it follows a null page, or, when more pages are asked
for than the machine has, may run past the page array. `Allocate` of a page-table
entry also has to reach the entry and the page it got, through the tables in use.
-/

namespace Chestnut

open Lib

namespace Paging

/-- The access returns, or the tables in use do not map it. -/
def Reaches {α : Type} (x : Except Fault α) : Prop :=
  (∃ a, x = .ok a) ∨ x = .error .pageFault

theorem Reaches.bind {α β : Type} {x : Except Fault α} {f : α → Except Fault β} (h : Reaches x)
    (hf : ∀ a, Reaches (f a)) : Reaches (x >>= f) := by
  rcases h with ⟨a, rfl⟩ | rfl
  · exact hf a
  · exact .inr rfl

variable {s : Paging}

theorem reaches_translate (s : Paging) (a : Nat) : Reaches (s.translate a) := by
  rw [translate]
  split
  · exact .inl ⟨_, rfl⟩
  · exact .inr rfl

theorem reaches_resolve (s : Paging) (r : EntryRef) : Reaches (s.resolve r) := by
  cases r with
  | pgt => exact .inl ⟨_, rfl⟩
  | kern => exact .inl ⟨_, rfl⟩
  | slot a => exact (reaches_translate s a).bind fun _ => .inl ⟨_, rfl⟩

theorem reaches_load (s : Paging) (r : EntryRef) : Reaches (s.load r) :=
  (reaches_resolve s r).bind fun _ => .inl ⟨_, rfl⟩

theorem reaches_store (s : Paging) (r : EntryRef) (e : Entry) : Reaches (s.store r e) :=
  (reaches_resolve s r).bind fun _ => .inl ⟨_, rfl⟩

theorem reaches_clearPage (s : Paging) (a : Nat) : Reaches (s.clearPage a) :=
  (reaches_translate s a).bind fun _ => .inl ⟨_, rfl⟩

/-- `CommonBaseEntry::Allocate` gets a page if two are free or more. -/
theorem allocate_iff {free : List Nat} (S : MemPages.Supply s.pages free) (r : EntryRef) :
    (2 ≤ free.length → Reaches (s.allocate r)) ∧
      (free.length < 2 → s.allocate r = .error .nullDeref) := by
  constructor
  · intro hlen
    match free, S, hlen with
    | i :: j :: t, S, _ =>
        obtain ⟨m, hal, S', hf⟩ := S.allocPage_pop
        have hd : m.deref (.pg i) = .ok () :=
          MemPages.deref_pg (by rw [hf.nr_eq]; exact S.bounded i (by simp))
        rw [allocate, hal]
        simp only [ok_bind, hd]
        refine (reaches_store _ _ _).bind fun s₁ => (reaches_load s₁ r).bind fun e₁ => ?_
        refine (reaches_clearPage _ _).bind fun s₂ => (reaches_load s₂ r).bind fun e₂ => ?_
        refine (reaches_store _ _ _).bind fun s₃ => (reaches_load s₃ r).bind fun e₃ => ?_
        exact reaches_store _ _ _
  · intro hlen
    rw [allocate, S.allocPage_null (by omega)]
    rfl

end Paging

namespace HeapWorld

/-- A slab with a free slot waits in a queue of the cache. -/
def Waits (h : Heap) (c : CacheRef) : Prop :=
  h.nodes.isEmpty (.queue c .half) = false ∨ h.nodes.isEmpty (.queue c .empty) = false

instance (h : Heap) (c : CacheRef) : Decidable (Waits h c) :=
  inferInstanceAs (Decidable (_ ∨ _))

/-- `Allocate` of the cache finds a slab, or the pages for a new one: one for a
slab with its header inside, two if the header needs a new slab as well. One
more page must stay on the list. -/
def CanAllocate (h : Heap) (c : CacheRef) : Prop :=
  Waits h c ∨
    if c.kind = .metaSlab then 2 ≤ h.pages.freeCount
    else Waits h BaseSlab.metaSlabCache ∧ 2 ≤ h.pages.freeCount ∨ 3 ≤ h.pages.freeCount

instance (h : Heap) (c : CacheRef) : Decidable (CanAllocate h c) :=
  inferInstanceAs (Decidable (Waits h c ∨
    if c.kind = .metaSlab then 2 ≤ h.pages.freeCount
    else Waits h BaseSlab.metaSlabCache ∧ 2 ≤ h.pages.freeCount ∨ 3 ≤ h.pages.freeCount))

/-- `Alloc` finds what a request of `s` bytes needs. -/
def CanAlloc (h : Heap) (s : Nat) : Prop :=
  if s ≤ 2048 then CanAllocate h (.global (Kernel.chunkOf s))
  else
    Kernel.nrPages s ≤ h.pages.nrPageStructs ∧
      (Kernel.nrPages s = 1 ∧ 2 ≤ h.pages.freeCount ∨
        2 ≤ Kernel.nrPages s ∧ ∃ i, MemPages.IsRun h.pages (Kernel.nrPages s) i)

end HeapWorld

namespace HeapInv

variable {G : Ghost} {h : Heap} {caches : List CacheRef} {blocks : List Block} {c : CacheRef}

theorem waits_iff (I : HeapInv G h caches blocks) (hc : c ∈ caches) :
    HeapWorld.Waits h c ↔ Waiting G c := by
  rw [HeapWorld.Waits, Waiting, ← Bool.not_eq_true, ← Bool.not_eq_true, I.isEmpty_iff hc,
    I.isEmpty_iff hc]

theorem canAllocate_iff (I : HeapInv G h caches blocks) (hc : c ∈ caches) :
    HeapWorld.CanAllocate h c ↔ Ready G c := by
  have hmeta : BaseSlab.metaSlabCache ∈ caches := I.blocks.globals .metaSlab
  rw [HeapWorld.CanAllocate, Ready, I.waits_iff hc, I.waits_iff hmeta, I.pages.list.freeCount_eq]

/-- `Allocate` of any cache. -/
theorem allocate_iff (I : HeapInv G h caches blocks) (hh : G.hand = none) (hc : c ∈ caches) :
    (HeapWorld.CanAllocate h c → ∃ r, c.allocate h = .ok r) ∧
      (¬ HeapWorld.CanAllocate h c → c.allocate h = .error .nullDeref) := by
  rw [I.canAllocate_iff hc]
  constructor
  · intro hr
    obtain ⟨o, h', G', hal, -⟩ := I.allocate_ready hh hc hr
    exact ⟨_, hal⟩
  · exact I.allocate_not_ready hh hc

/-- A large request that fits into the page array. -/
theorem alloc_large_iff (I : HeapInv G h caches blocks) {s : Nat} (hs : 2048 < s)
    (hle : Kernel.nrPages s ≤ h.pages.nrPageStructs) :
    (PagesOk.Served h.pages G.free (Kernel.nrPages s) → ∃ r, Kernel.alloc s h = .ok r) ∧
      (¬ PagesOk.Served h.pages G.free (Kernel.nrPages s) →
        Kernel.alloc s h = .error .nullDeref) := by
  rw [Kernel.alloc_large hs]
  constructor
  · intro hok
    obtain ⟨i, m', free', hal, -, P⟩ := I.pages.allocPages hle hok
    have hmem : i ∈ List.range' i (Kernel.nrPages s) :=
      List.mem_range'_1.mpr ⟨le_rfl, Nat.lt_add_of_pos_right (Nat.succ_pos _)⟩
    have hlt := (P.managed i (by rw [assign_of_mem hmem]; exact nofun)).1
    rw [hal]
    simp only [ok_bind, Heap.setPages, MemPages.deref_pg hlt, Heap.physicalAddress,
      MemPages.deref_pg (m := m'.setPage _ _) hlt]
    exact ⟨_, rfl⟩
  · intro hno
    have hpos : 1 ≤ Kernel.nrPages s := Nat.succ_pos _
    rw [I.pages.allocPages_null hpos hle hno]
    rfl

/-- A request for more pages than there are. -/
theorem alloc_too_large (I : HeapInv G h caches blocks) {s : Nat} (hs : 2048 < s)
    (hgt : h.pages.nrPageStructs < Kernel.nrPages s) : ¬ ∃ r, Kernel.alloc s h = .ok r := by
  rintro ⟨r, hal⟩
  rw [Kernel.alloc_large hs] at hal
  obtain ⟨⟨p, m'⟩, hpages, hal⟩ := bind_ok hal
  obtain rfl := I.pages.list.allocPages_too_many hgt hpages
  obtain ⟨⟨⟩, hd, -⟩ := bind_ok hal
  cases hd

/-- `Alloc` of any size. -/
theorem alloc_iff (I : HeapInv G h caches blocks) (hh : G.hand = none) {s : Nat} (hs : 1 ≤ s) :
    ((∃ r, Kernel.alloc s h = .ok r) ↔ HeapWorld.CanAlloc h s) ∧
      (¬ HeapWorld.CanAlloc h s →
        (2048 < s → Kernel.nrPages s ≤ h.pages.nrPageStructs) →
        Kernel.alloc s h = .error .nullDeref) := by
  have hboth : ∀ {P : Prop} {x : Except Fault (Nat × Heap)}, (P → ∃ r, x = .ok r) →
      (¬ P → x = .error .nullDeref) → ((∃ r, x = .ok r) ↔ P) := by
    intro P x hok herr
    refine ⟨?_, hok⟩
    rintro ⟨r, hr⟩
    by_contra hP
    rw [herr hP] at hr
    cases hr
  by_cases hsmall : s ≤ 2048
  · rw [HeapWorld.CanAlloc, if_pos hsmall, Kernel.alloc_small hs hsmall]
    obtain ⟨hok, herr⟩ := I.allocate_iff hh (I.blocks.globals (Kernel.chunkOf s))
    exact ⟨hboth hok herr, fun hno _ => herr hno⟩
  · have hserved : HeapWorld.CanAlloc h s ↔ Kernel.nrPages s ≤ h.pages.nrPageStructs ∧
        PagesOk.Served h.pages G.free (Kernel.nrPages s) := by
      rw [HeapWorld.CanAlloc, if_neg hsmall, PagesOk.Served, I.pages.list.freeCount_eq]
    rw [hserved]
    by_cases hle : Kernel.nrPages s ≤ h.pages.nrPageStructs
    · obtain ⟨hok, herr⟩ := I.alloc_large_iff (by omega) hle
      refine ⟨?_, fun hno _ => herr fun hs => hno ⟨hle, hs⟩⟩
      rw [hboth hok herr, and_iff_right hle]
    · refine ⟨?_, fun _ hfit => absurd (hfit (by omega)) hle⟩
      exact iff_of_false (I.alloc_too_large (by omega) (by omega)) fun h => hle h.1

end HeapInv

namespace HeapWorld

/-- In every reachable heap state an allocation returns exactly when the pages
it needs are there; otherwise the null page is followed, apart from requests
for more pages than the machine has. -/
theorem alloc_returns_iff {m : MemPages} {free : List Nat} {nodes : Links NodeRef}
    {slab : Nat → SlabRec} {w : HeapWorld} (F : MemPages.FreeList m free)
    (hw : Reachable m nodes slab w) :
    (∀ s : Nat, 1 ≤ s → ((∃ r, Kernel.alloc s w.heap = .ok r) ↔ CanAlloc w.heap s) ∧
      (¬ CanAlloc w.heap s → (2048 < s → Kernel.nrPages s ≤ w.heap.pages.nrPageStructs) →
        Kernel.alloc s w.heap = .error .nullDeref)) ∧
    (∀ c ∈ w.caches, (CanAllocate w.heap c → ∃ r, c.allocate w.heap = .ok r) ∧
      (¬ CanAllocate w.heap c → c.allocate w.heap = .error .nullDeref)) ∧
    (∀ (s : Paging) (r : EntryRef), s.pages = w.heap.pages →
      (2 ≤ w.heap.pages.freeCount →
        (∃ s', s.allocate r = .ok s') ∨ s.allocate r = .error .pageFault) ∧
      (w.heap.pages.freeCount < 2 → s.allocate r = .error .nullDeref)) := by
  obtain ⟨G, I, hh⟩ := Reachable.inv F hw
  refine ⟨fun s hs => I.alloc_iff hh hs, fun c hc => I.allocate_iff hh hc, ?_⟩
  intro s r hs
  have S : MemPages.Supply s.pages G.free := hs ▸ I.pages.list.supply
  rw [I.pages.list.freeCount_eq]
  exact s.allocate_iff S r

theorem alloc_returns_iff_machine :
    (∃ r, Kernel.alloc 16 (machine 3).heap = .ok r) ∧
      ¬ ∃ r, Kernel.alloc 16 (machine 2).heap = .ok r := by
  have h₃ := alloc_returns_iff (MemPages.line_freeList (n := 3) (by decide))
    (w := machine 3) .start
  have h₂ := alloc_returns_iff (MemPages.line_freeList (n := 2) (by decide))
    (w := machine 2) .start
  refine ⟨((h₃.1 16 (by decide)).1).mpr ?_, fun hr => ?_⟩
  · rw [CanAlloc, if_pos (by decide)]
    decide +kernel
  · have hcan := ((h₂.1 16 (by decide)).1).mp hr
    rw [CanAlloc, if_pos (by decide)] at hcan
    revert hcan
    decide +kernel

/-- With two free pages a request for 16 bytes takes one for the slab header
and follows the null page it gets for the objects. -/
theorem alloc_follows_null :
    Reachable (MemPages.line 2) ⟨fun x => x, fun x => x⟩ (fun _ => {}) (machine 2) ∧
      Kernel.alloc 16 (machine 2).heap = .error .nullDeref := by
  exact ⟨.start, eq_of_faults (by decide +kernel)⟩

end HeapWorld

end Chestnut
