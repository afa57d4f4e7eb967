import Chestnut.Pages.Requests
import Chestnut.Slab.Footprint
import Chestnut.Slab.Records
import Chestnut.System.Drawn

/-!
# Heap and page tables on one page allocator

`KernelMain` brings up the page allocator, the heap and the kernel page table in
this order, and from then on heap calls and `MapPage` draw on one free list. The
world below has one `MemPages`, and one physical memory that holds the tables, the
records of the heap and what the callers of the heap store in their blocks.

## Implementation notes

The page-table code sees the world as a `Paging` whose page allocator is the one
of the heap. The heap model has its records apart from memory. Of the words they take
in memory, before or after a call, the call may leave any value: which one is not
modelled, so a result about memory holds whatever the heap stores there.
-/

namespace Chestnut

open Lib

/-- The memory of the kernel after `InitKernelPageTable`. -/
structure KernelWorld where
  heap : HeapWorld
  mem : Nat → Entry
  pgt : Entry
  kern : Entry
  cr3 : Entry

/-- What changes the memory of the kernel: a heap call, with the words that it leaves
in its records, a call of `MapPage`, or the store of a caller. -/
inductive KernelOp
  | heap (op : HeapOp) (words : Nat → Entry)
  | mapPage (c : Paging.MapCall)
  | store (addr : Nat) (v : Entry)

/-- The `MapPage` call of a step. -/
def KernelOp.mapCall : KernelOp → Option Paging.MapCall
  | .mapPage c => some c
  | _ => none

namespace KernelWorld

/-- The world of the page-table code. -/
def paging (w : KernelWorld) : Paging := ⟨w.heap.heap.pages, w.mem, w.pgt, w.kern, w.cr3⟩

def withPaging (w : KernelWorld) (s : Paging) : KernelWorld :=
  ⟨{ w.heap with heap := { w.heap.heap with pages := s.pages } }, s.mem, s.pgt, s.kern, s.cr3⟩

def step (w : KernelWorld) : KernelOp → Except Fault KernelWorld
  | .heap op words => do
      let h ← w.heap.step op
      return { w with
        heap := h
        mem := fun x => if w.heap.Record x ∨ h.Record x then words x else w.mem x }
  | .mapPage c => do
      let s ← w.paging.mapPage c.paddr c.writeThrough c.cacheDisabled
      return w.withPaging s
  | .store addr v => do
      let s ← w.paging.store (.slot addr) v
      return w.withPaging s

/-- Heap calls as the heap allows them, `MapPage` of pages that no 1 GiB leaf covers,
and stores of callers to words of their blocks. -/
def Allowed (w : KernelWorld) : KernelOp → Prop
  | .heap op _ => w.heap.Allowed op
  | .mapPage c => c.Allowed w.paging
  | .store addr _ => addr % 8 = 0 ∧ ∃ b, w.heap.Held b ∧ b.Covers addr

/-- The part of `KernelMain` that sets the memory up. -/
def boot (img : KernelImage) (es : List MmapEntry) (nodes : Links NodeRef)
    (slab : Nat → SlabRec) (s : Paging) : Except Fault KernelWorld := do
  let m ← MemPages.init img es {}
  let w : KernelWorld := ⟨HeapWorld.initial m nodes slab, s.mem, s.pgt, s.kern, s.cr3⟩
  let s ← Paging.initKernelPageTable es w.paging
  return w.withPaging s

end KernelWorld

/-- The heap invariant after pages have left the free list for good. -/
theorem HeapInv.takePages {G : Ghost} {h : Heap} {caches : List CacheRef} {blocks : List Block}
    (I : HeapInv G h caches blocks) {m : MemPages} {taken free : List Nat}
    (hsplit : G.free = taken ++ free)
    (P : PagesOk m (assign G.use taken .unmanaged) free) :
    HeapInv { G with use := assign G.use taken .unmanaged, free := free }
      { h with pages := m } caches blocks := by
  have hfree : ∀ p ∈ taken, G.use p = .free := by
    intro p hp
    rw [I.pages.free_iff, hsplit]
    exact List.mem_append_left free hp
  have hsame : ∀ p u, u ≠ .free → u ≠ .unmanaged →
      (assign G.use taken .unmanaged p = u ↔ G.use p = u) := by
    intro p u hu hu'
    by_cases hp : p ∈ taken
    · rw [assign_of_mem hp, hfree p hp]
      exact iff_of_false hu'.symm hu.symm
    · rw [assign_of_not_mem hp]
  refine ⟨P, ?_, I.headers, I.queues, I.stats, ?_⟩
  · refine ⟨I.slabs.nodup, fun p c a => ?_, I.slabs.cache_mem, I.slabs.meta_addr⟩
    exact (hsame p (.slab c a) (by simp) (by simp)).trans (I.slabs.use_iff p c a)
  · refine ⟨I.blocks.nodup, I.blocks.held_iff, I.blocks.not_header, fun s n hb => ?_,
      fun p s n hp => ?_, I.blocks.globals, I.blocks.site⟩
    · obtain ⟨hn, huse⟩ := I.blocks.big_use s n hb
      exact ⟨hn, fun p h₁ h₂ => (hsame p (.big s n) (by simp) (by simp)).mpr (huse p h₁ h₂)⟩
    · exact I.blocks.of_big p s n ((hsame p (.big s n) (by simp) (by simp)).mp hp)

namespace Paging

variable {s : Paging} {root : Nat} {T : PageTree} {free free' : List Nat}

/-- The tables stay as they are while others use the page allocator and store
elsewhere. -/
theorem Installed.elsewhere (I : Installed root T free s) {m : MemPages} {mem : Nat → Entry}
    (S : MemPages.Supply m free') (hnr : m.nrPageStructs = s.pages.nrPageStructs)
    (htab : ∀ {l x p}, T l x = .table p → p ∉ free') (hroot : root ∉ free')
    (hmem : ∀ a, ¬ OffTables (kernSlot root) T a → mem a = s.mem a) :
    Installed root T free' { s with pages := m, mem := mem } := by
  have H := I.holds
  refine ⟨⟨H.rooted, H.fits, H.inside, S, hnr.le.trans H.nr_le, H.top_site, ?_, ?_, H.inj, ?_,
    hroot, H.pgt_eq⟩, I.cr3_eq, I.root_lt⟩
  · rw [← H.top_eq]
    exact hmem _ fun h => h.1 rfl
  · intro l x p hp i hi
    rw [← H.words hp i hi]
    exact hmem _ fun h => h.2 (l + 1) x (by rw [pgnum_slot p hi]; exact hp)
  · exact fun hp => ⟨htab hp, (H.fresh hp).2⟩

end Paging

/-- The invariant of the world: heap and page tables are well formed, the tables are
no pages of the heap, and they map every page of it. -/
structure KernelInv (root : Nat) (G : Ghost) (T : PageTree) (w : KernelWorld) : Prop where
  heap : HeapInv G w.heap.heap w.heap.caches w.heap.blocks
  hand : G.hand = none
  tables : Paging.Installed root T G.free w.paging
  root_use : G.use root = .unmanaged
  table_use : ∀ {l x p}, T l x = .table p → G.use p = .unmanaged
  mapped : ∀ p, G.use p ≠ .unmanaged → Paging.Visible T p

namespace KernelInv

open KernelWorld

variable {root : Nat} {G : Ghost} {T : PageTree} {w w' : KernelWorld} {a : Nat}

/-- A page that the heap uses holds no table. -/
theorem offTables (I : KernelInv root G T w) (ha : G.use (pgnum a) ≠ .unmanaged) :
    Paging.OffTables (Paging.kernSlot root) T a := by
  refine ⟨?_, fun k x hk => ha (I.table_use hk)⟩
  intro he
  rw [← EntryRef.slot.inj he, Paging.pgnum_slot root (by norm_num)] at ha
  exact ha I.root_use

theorem use_of_covers (I : KernelInv root G T w) {b : Block} (hb : b ∈ w.heap.blocks)
    (ha : b.Covers a) : G.use (pgnum a) ≠ .unmanaged ∧ G.use (pgnum a) ≠ .free := by
  rcases HeapWorld.inside_block I.heap hb ha.1 ha.2 with ⟨c, m, i, -, -, -, huse, -⟩ |
    ⟨s, n, -, huse⟩
  · rw [pgnum, huse]
    simp
  · rw [pgnum, huse]
    simp

theorem use_of_record (I : KernelInv root G T w) (ha : w.heap.Record a) :
    G.use (pgnum a) ≠ .unmanaged := by
  obtain ⟨c, m, huse⟩ := HeapWorld.record_use I.heap ha
  rw [pgnum, huse]
  simp

/-- What lies in a page of the heap is reached at its kernel address. -/
theorem translate_eq (I : KernelInv root G T w) (ha : G.use (pgnum a) ≠ .unmanaged) :
    w.paging.translate a = .ok a :=
  I.tables.sees.seen a (I.mapped _ ha)

theorem heap_step (I : KernelInv root G T w) {op : HeapOp} {words : Nat → Entry}
    (ha : w.heap.Allowed op) (hs : w.step (.heap op words) = .ok w') :
    ∃ G', KernelInv root G' T w' ∧
      ∀ x, ¬ w.heap.Record x → ¬ w'.heap.Record x → w'.mem x = w.mem x := by
  obtain ⟨h, hstep, hret⟩ := bind_ok hs
  cases hret
  rcases HeapWorld.step_spec I.heap I.hand ha with he | ⟨h', G', hok, I', hh, M⟩
  · cases he.symm.trans hstep
  · cases hok.symm.trans hstep
    have hroot : G'.use root = .unmanaged := (M.unmanaged root).mpr I.root_use
    have htab : ∀ {l x p}, T l x = .table p → G'.use p = .unmanaged :=
      fun hp => (M.unmanaged _).mpr (I.table_use hp)
    have hnot : ∀ p, G'.use p = .unmanaged → p ∉ G'.free := by
      intro p hp hm
      rw [(I'.pages.free_iff p).mpr hm] at hp
      cases hp
    refine ⟨G', ⟨I', hh, ?_, hroot, htab, fun p hp => ?_⟩, fun x h₁ h₂ => ?_⟩
    · refine I.tables.elsewhere I'.pages.list.supply (HeapWorld.step_sameArray hstep)
        (fun hp => hnot _ (htab hp)) (hnot _ hroot) fun x hx => if_neg ?_
      -- the records of both worlds lie in pages of the heap
      rintro (hrec | hrec)
      · exact hx (I.offTables (I.use_of_record hrec))
      · obtain ⟨c, m, huse⟩ := HeapWorld.record_use I' hrec
        refine hx (I.offTables fun hun => ?_)
        rw [← M.unmanaged, pgnum, huse] at hun
        cases hun
    · exact I.mapped p fun hun => hp ((M.unmanaged p).mpr hun)
    · exact if_neg (not_or.mpr ⟨h₁, h₂⟩)

theorem mapPage_step (I : KernelInv root G T w) {c : Paging.MapCall} (ha : c.Allowed w.paging)
    (hs : w.step (.mapPage c) = .ok w') :
    ∃ G' T' taken, KernelInv root G' T' w' ∧
      Paging.Took (Paging.kernSlot root) T T' G.free taken G'.free w.paging w'.paging := by
  obtain ⟨s, hmap, hret⟩ := bind_ok hs
  cases hret
  obtain ⟨T', taken, free', K, J, hvis, hpages⟩ := I.tables.mapPage_grew ha hmap
  have I' := I.heap.takePages K.split (hpages G.use I.heap.pages)
  refine ⟨{ G with use := assign G.use taken .unmanaged, free := free' }, T', taken,
    ⟨I', I.hand, J, ?_, ?_, fun p hp => ?_⟩, K⟩
  · by_cases hr : root ∈ taken
    · exact assign_of_mem hr
    · exact (assign_of_not_mem hr).trans I.root_use
  · intro l x p hp
    by_cases hm : p ∈ taken
    · exact assign_of_mem hm
    · exact (assign_of_not_mem hm).trans (I.table_use ((K.tables l x p hp).resolve_right hm))
  · by_cases hm : p ∈ taken
    · exact absurd (assign_of_mem hm) hp
    · exact hvis p (I.mapped p fun hun => hp ((assign_of_not_mem hm).trans hun))

/-- The store of a caller reaches the word of its block. -/
theorem store_ok (I : KernelInv root G T w) {v : Entry} (ha : w.Allowed (.store a v)) :
    w.step (.store a v) = .ok { w with mem := Function.update w.mem a v } ∧
      KernelInv root G T { w with mem := Function.update w.mem a v } := by
  obtain ⟨-, b, hb, hin⟩ := ha
  have huse := (I.use_of_covers hb.1 hin).1
  have hseen : (EntryRef.slot a).Seen (Paging.Visible T) := I.mapped _ huse
  constructor
  · rw [KernelWorld.step, I.tables.sees.store hseen v]
    rfl
  · exact ⟨I.heap, I.hand, I.tables.storeOff (I.offTables huse) v, I.root_use, I.table_use,
      I.mapped⟩

/-- Every allowed step that completes keeps the invariant. -/
theorem step (I : KernelInv root G T w) {op : KernelOp} (ha : w.Allowed op)
    (hs : w.step op = .ok w') : ∃ G' T', KernelInv root G' T' w' := by
  cases op with
  | heap op words =>
      obtain ⟨G', I', -⟩ := I.heap_step ha hs
      exact ⟨G', T, I'⟩
  | mapPage c =>
      obtain ⟨G', T', -, I', -⟩ := I.mapPage_step ha hs
      exact ⟨G', T', I'⟩
  | store addr v =>
      obtain ⟨hok, I'⟩ := I.store_ok ha
      cases hok.symm.trans hs
      exact ⟨G, T, I'⟩

end KernelInv

end Chestnut
