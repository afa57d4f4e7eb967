import Chestnut.Slab.Invariant

/-!
# Pages changing their use

A page that leaves the free list is `lost` until someone records it as a slab
or as part of a multi-page block, and a page that is given up is `lost` until
it is back on the free list. The lemmas follow the page records through both
directions for any list of pages at once.
-/

namespace Chestnut

open Lib

/-- Assign a new use to some pages. -/
def assign (use : Nat → PageUse) (s : List Nat) (u : PageUse) : Nat → PageUse :=
  fun p => if p ∈ s then u else use p

@[simp] theorem assign_of_mem {use : Nat → PageUse} {s : List Nat} {u : PageUse} {p : Nat}
    (hp : p ∈ s) : assign use s u p = u :=
  if_pos hp

@[simp] theorem assign_of_not_mem {use : Nat → PageUse} {s : List Nat} {u : PageUse} {p : Nat}
    (hp : p ∉ s) : assign use s u p = use p :=
  if_neg hp

@[simp] theorem assign_assign (use : Nat → PageUse) (s : List Nat) (u v : PageUse) :
    assign (assign use s u) s v = assign use s v := by
  funext p
  by_cases hp : p ∈ s <;> simp [hp]

/-- An assignment of another use loses no page. -/
theorem lost_of_assign {use : Nat → PageUse} {s : List Nat} {u : PageUse} {p : Nat}
    (hu : u ≠ .lost) (hp : assign use s u p = .lost) : use p = .lost := by
  by_cases hm : p ∈ s
  · rw [assign_of_mem hm] at hp
    exact absurd hp hu
  · rwa [assign_of_not_mem hm] at hp

/-- The free list does not depend on the slab members of a page record. -/
theorem MemPages.FreeList.setPage {m : MemPages} {free : List Nat}
    (F : MemPages.FreeList m free) (p : PageRef) (slab : Nat) (size : Int) :
    MemPages.FreeList
      (m.setPage p { m.page p with slabPtr := slab, slabObjSize := size }) free := by
  have hrec : ∀ q, ((m.setPage p { m.page p with slabPtr := slab, slabObjSize := size }).page
      q).isFree = (m.page q).isFree ∧ ((m.setPage p { m.page p with
        slabPtr := slab, slabObjSize := size }).page q).isInList = (m.page q).isInList ∧
      ((m.setPage p { m.page p with slabPtr := slab, slabObjSize := size }).page q).phyaddr =
        (m.page q).phyaddr := by
    intro q
    by_cases hq : q = p
    · subst hq
      simp [MemPages.setPage]
    · simp [MemPages.setPage, hq]
  constructor
  · exact F.ring
  · exact F.bounded
  · intro i hi
    rw [(hrec _).1]
    exact F.isFree_iff i hi
  · intro i hi
    rw [(hrec _).1, (hrec _).2.1]
    exact F.isInList_eq i hi
  · intro i hi
    rw [(hrec _).2.2]
    exact F.phyaddr_eq i hi
  · exact F.nr_lt

namespace PagesOk

variable {m m' : MemPages} {use : Nat → PageUse} {free free' s : List Nat} {p : Nat}

theorem deref (P : PagesOk m use free) (hp : use p ≠ .unmanaged) :
    m.deref (.pg p) = .ok () :=
  MemPages.deref_pg (P.managed p hp).1

theorem managed_of_mem (P : PagesOk m use free) (hp : p ∈ free) : use p ≠ .unmanaged := by
  rw [(P.free_iff p).mpr hp]
  simp

/-- The records after a change of flags, where the flagged pages get a use
that the record does not show. -/
theorem reassign (P : PagesOk m use free) (F : MemPages.FreeList m' free') {b : Bool}
    {u : PageUse} (hf : MemPages.Flagged m m' s b) (hu : ∀ c a, u ≠ .slab c a)
    (hu' : ∀ t n, u ≠ .big t n) (hs : ∀ p ∈ s, use p ≠ .unmanaged)
    (hfree : ∀ p, assign use s u p = .free ↔ p ∈ free') : PagesOk m' (assign use s u) free' := by
  constructor
  · exact F
  · exact hfree
  · intro p hp
    have hp' : use p ≠ .unmanaged := by
      by_cases hm : p ∈ s
      · exact hs p hm
      · rwa [assign_of_not_mem hm] at hp
    rw [hf.nr_eq, hf.phyaddr_eq]
    exact P.managed p hp'
  · intro p c a hp
    by_cases hm : p ∈ s
    · rw [assign_of_mem hm] at hp
      exact absurd hp (hu c a)
    · rw [assign_of_not_mem hm] at hp
      rw [(hf.slab_eq p).1, (hf.slab_eq p).2]
      exact P.slab_page p c a hp
  · intro t n hp
    by_cases hm : t ∈ s
    · rw [assign_of_mem hm] at hp
      exact absurd hp (hu' t n)
    · rw [assign_of_not_mem hm] at hp
      rw [(hf.slab_eq t).2]
      exact P.big_page t n hp

/-- Pages that leave the free list. -/
theorem take (P : PagesOk m use free) (F : MemPages.FreeList m' free')
    (hf : MemPages.Flagged m m' s false) (hs : ∀ p ∈ s, p ∈ free)
    (hfree : ∀ p, p ∈ free' ↔ p ∈ free ∧ p ∉ s) : PagesOk m' (assign use s .lost) free' := by
  refine P.reassign F hf (by simp) (by simp) (fun p hp => P.managed_of_mem (hs p hp)) ?_
  intro p
  rw [hfree]
  by_cases hm : p ∈ s
  · simp [hm]
  · simp [hm, P.free_iff]

/-- Lost pages that enter the free list. -/
theorem give (P : PagesOk m use free) (F : MemPages.FreeList m' free')
    (hf : MemPages.Flagged m m' s true) (hs : ∀ p ∈ s, use p = .lost)
    (hfree : ∀ p, p ∈ free' ↔ p ∈ s ∨ p ∈ free) : PagesOk m' (assign use s .free) free' := by
  refine P.reassign F hf (by simp) (by simp) (fun p hp => by simp [hs p hp]) ?_
  intro p
  rw [hfree]
  by_cases hm : p ∈ s
  · simp [hm]
  · simp [hm, P.free_iff]

/-- Used pages that are given up. -/
theorem lose (P : PagesOk m use free) (hs : ∀ p ∈ s, use p ≠ .unmanaged ∧ use p ≠ .free) :
    PagesOk m (assign use s .lost) free := by
  constructor
  · exact P.list
  · intro p
    by_cases hm : p ∈ s
    · rw [← P.free_iff]
      simp [hm, (hs p hm).2]
    · simp [hm, P.free_iff]
  · intro p hp
    refine P.managed p ?_
    by_cases hm : p ∈ s
    · exact (hs p hm).1
    · rwa [assign_of_not_mem hm] at hp
  · intro p c a hp
    by_cases hm : p ∈ s
    · simp [hm] at hp
    · rw [assign_of_not_mem hm] at hp
      exact P.slab_page p c a hp
  · intro t n hp
    by_cases hm : t ∈ s
    · simp [hm] at hp
    · rw [assign_of_not_mem hm] at hp
      exact P.big_page t n hp

/-- A lost page becomes the page of a slab. -/
theorem own (P : PagesOk m use free) (hp : use p = .lost) (c : CacheRef) (a : Nat) :
    PagesOk (m.setPage (.pg p)
      { m.page (.pg p) with slabPtr := a, slabObjSize := c.kind.objSize })
      (assign use [p] (.slab c a)) free := by
  constructor
  · exact P.list.setPage _ _ _
  · intro q
    rw [← P.free_iff]
    by_cases hq : q = p
    · subst hq
      simp [hp]
    · simp [hq]
  · intro q hq'
    by_cases hq : q = p
    · subst hq
      simpa [MemPages.setPage] using P.managed q (by simp [hp])
    · simpa [MemPages.setPage, hq] using P.managed q (by simpa [hq] using hq')
  · intro q c' a' hq'
    by_cases hq : q = p
    · subst hq
      rw [assign_of_mem (by simp)] at hq'
      cases hq'
      simp [MemPages.setPage]
    · simpa [MemPages.setPage, hq] using P.slab_page q c' a' (by simpa [hq] using hq')
  · intro t n ht
    by_cases hq : t = p
    · subst hq
      simp at ht
    · simpa [MemPages.setPage, hq] using P.big_page t n (by simpa [hq] using ht)

/-- Lost pages become a multi-page block. -/
theorem ownRun (P : PagesOk m use free) {s n : Nat} (hn : 1 ≤ n)
    (hp : ∀ p ∈ List.range' s n, use p = .lost) :
    PagesOk (m.setPage (.pg s) { m.page (.pg s) with slabObjSize := (n : Int) * pageSize })
      (assign use (List.range' s n) (.big s n)) free := by
  have hlost : ∀ p, s ≤ p → p < s + n → use p = .lost := fun p h₁ h₂ =>
    hp p (List.mem_range'_1.mpr ⟨h₁, h₂⟩)
  have hrec : ∀ q, ((m.setPage (.pg s) { m.page (.pg s) with
      slabObjSize := (n : Int) * pageSize }).page (.pg q)).phyaddr = (m.page (.pg q)).phyaddr := by
    intro q
    by_cases hq : q = s
    · subst hq
      simp [MemPages.setPage]
    · simp [MemPages.setPage, hq]
  constructor
  · exact P.list.setPage (.pg s) (m.page (.pg s)).slabPtr _
  · intro q
    rw [← P.free_iff]
    by_cases hq : q ∈ List.range' s n
    · simp [assign_of_mem hq, hp q hq]
    · rw [assign_of_not_mem hq]
  · intro q hq'
    rw [hrec]
    refine P.managed q ?_
    by_cases hq : q ∈ List.range' s n
    · simp [hp q hq]
    · rwa [assign_of_not_mem hq] at hq'
  · intro q c' a' hq'
    by_cases hq : q ∈ List.range' s n
    · simp [assign_of_mem hq] at hq'
    · rw [assign_of_not_mem hq] at hq'
      have hne : q ≠ s := by
        rintro rfl
        simp [hlost q le_rfl (by omega)] at hq'
      simpa [MemPages.setPage, hne] using P.slab_page q c' a' hq'
  · intro t k ht
    by_cases hq : t ∈ List.range' s n
    · rw [assign_of_mem hq] at ht
      cases ht
      simp [MemPages.setPage]
    · rw [assign_of_not_mem hq] at ht
      have hne : t ≠ s := by
        rintro rfl
        simp [hlost t le_rfl (by omega)] at ht
      simpa [MemPages.setPage, hne] using P.big_page t k ht

/-- `AllocPage` on a list of two pages or more. -/
theorem allocPage {q : Nat} {t : List Nat} (P : PagesOk m use (p :: q :: t)) :
    ∃ m', m.allocPage = .ok (.pg p, m') ∧ PagesOk m' (assign use [p] .lost) (q :: t) := by
  obtain ⟨m', hal, F, hf⟩ := P.list.allocPage_pop
  have hnd := List.nodup_cons.mp P.list.nodup
  refine ⟨m', hal, P.take F hf (by simp) ?_⟩
  intro x
  constructor
  · intro hx
    refine ⟨List.mem_cons_of_mem p hx, ?_⟩
    rw [List.mem_singleton]
    rintro rfl
    exact hnd.1 hx
  · rintro ⟨hx, hne⟩
    exact (List.mem_cons.mp hx).resolve_left (by simpa using hne)

/-- `FreePage` of a lost page. -/
theorem freePage (P : PagesOk m use free) (hp : use p = .lost) :
    ∃ m', m.freePage (.pg p) = .ok m' ∧ PagesOk m' (assign use [p] .free) (p :: free) ∧
      MemPages.Flagged m m' [p] true := by
  obtain ⟨hlt, hphy⟩ := P.managed p (by simp [hp])
  have hnf : p ∉ free := by
    rw [← P.free_iff, hp]
    simp
  obtain ⟨m', hfr, F, hf⟩ := P.list.freePage_push hlt hnf hphy
  exact ⟨m', hfr, P.give F hf (by simpa using hp) (by simp), hf⟩

/-- The page allocator can serve a request for `n` pages. -/
def Served (m : MemPages) (free : List Nat) (n : Nat) : Prop :=
  (n = 1 ∧ 2 ≤ free.length) ∨ (2 ≤ n ∧ ∃ s, MemPages.IsRun m n s)

/-- `AllocPages` on a request it can serve. -/
theorem allocPages (P : PagesOk m use free) {n : Nat} (hle : n ≤ m.nrPageStructs)
    (hok : Served m free n) :
    ∃ s m' free', m.allocPages n = .ok (.pg s, m') ∧
      (∀ p ∈ List.range' s n, use p = .free) ∧
      PagesOk m' (assign use (List.range' s n) .lost) free' := by
  rcases hok with ⟨rfl, hlen⟩ | ⟨hn, hrun⟩
  · match free, P, hlen with
    | p :: q :: t, P, _ =>
        obtain ⟨m', hal, P'⟩ := P.allocPage
        refine ⟨p, m', q :: t, ?_, ?_, P'⟩
        · rw [MemPages.allocPages, if_pos Nat.cast_one]
          exact hal
        · intro x hx
          rw [P.free_iff]
          simpa using Or.inl (List.mem_singleton.mp hx)
  · classical
    have hs := Nat.find_spec hrun
    obtain ⟨m', hal, F, hf⟩ := P.list.allocPages_run hn hle hs fun s' hs' =>
      Nat.find_min hrun hs'
    have hin : ∀ p ∈ List.range' (Nat.find hrun) n, p ∈ free := by
      intro p hp
      obtain ⟨h₁, h₂⟩ := List.mem_range'_1.mp hp
      exact (P.list.isFree_iff p (by have := hs.1; omega)).mp (hs.2 p h₁ h₂)
    refine ⟨_, m', _, hal, fun p hp => (P.free_iff p).mpr (hin p hp), P.take F hf hin ?_⟩
    intro p
    rw [List.mem_filter, decide_eq_true_eq, List.mem_range'_1]

/-- `AllocPages` on a request it cannot serve. -/
theorem allocPages_null (P : PagesOk m use free) {n : Nat} (hn : 1 ≤ n)
    (hle : n ≤ m.nrPageStructs) (hno : ¬ Served m free n) :
    m.allocPages n = .ok (.null, m) := by
  rw [Served, not_or] at hno
  by_cases hone : n = 1
  · subst hone
    have hlen : free.length ≤ 1 := by
      by_contra hgt
      exact hno.1 ⟨rfl, by omega⟩
    rw [MemPages.allocPages, if_pos Nat.cast_one]
    exact P.list.allocPage_null hlen
  · exact P.list.allocPages_null (by omega) hle fun s hs => hno.2 ⟨by omega, s, hs⟩

/-- `FreePages` of lost pages. -/
theorem freePages (P : PagesOk m use free) {i n : Nat}
    (hp : ∀ p ∈ List.range' i n, use p = .lost) :
    ∃ m' free', m.freePages i n = .ok m' ∧
      PagesOk m' (assign use (List.range' i n) .free) free' ∧
      MemPages.Flagged m m' (List.range' i n) true := by
  by_cases hone : n = 1
  · subst hone
    obtain ⟨m', hfr, P', hf⟩ := P.freePage (hp i (by simp))
    refine ⟨m', _, ?_, P', hf⟩
    rw [MemPages.freePages, if_pos Nat.cast_one]
    exact hfr
  · obtain ⟨m', hfr, F, hf⟩ := P.list.freeRun_spec n i (by
      intro k h₁ h₂
      have hlost := hp k (List.mem_range'_1.mpr ⟨h₁, h₂⟩)
      obtain ⟨hlt, hphy⟩ := P.managed k (by simp [hlost])
      refine ⟨hlt, ?_, hphy⟩
      rw [← P.free_iff, hlost]
      simp)
    refine ⟨m', _, ?_, P.give F hf hp (by simp), hf⟩
    rw [MemPages.freePages, if_neg (by omega)]
    exact hfr

end PagesOk

end Chestnut
