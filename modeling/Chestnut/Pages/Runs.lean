import Chestnut.Lib.Reach
import Chestnut.Pages.Boot

/-!
# Whole runs of the page allocator

The pages handed out and not yet returned are recorded beside the allocator.
A caller may return only such pages; every other order of calls is allowed.
-/

namespace Chestnut

open Lib

/-- The calls of the page allocator. -/
inductive PageOp
  | allocPage
  | freePage (i : Nat)
  | allocPages (n : Int)
  | freePages (i : Nat) (n : Int)
  deriving DecidableEq, Repr

/-- The allocator and the pages that callers hold. -/
structure PageWorld where
  mem : MemPages
  out : List Nat

namespace PageWorld

/-- The pages a call hands to its caller. -/
def handed : PageRef → Nat → List Nat
  | .pg i, n => List.range' i n
  | _, _ => []

def step (w : PageWorld) : PageOp → Except Fault PageWorld
  | .allocPage => do
      let (p, m) ← w.mem.allocPage
      return ⟨m, handed p 1 ++ w.out⟩
  | .freePage i => do
      let m ← w.mem.freePage (.pg i)
      return ⟨m, w.out.filter (· ≠ i)⟩
  | .allocPages n => do
      let (p, m) ← w.mem.allocPages n
      return ⟨m, handed p n.toNat ++ w.out⟩
  | .freePages i n => do
      let m ← w.mem.freePages i n
      return ⟨m, w.out.filter fun k => ¬ (i ≤ k ∧ k < i + n.toNat)⟩

/-- A caller asks for at most `nr_page_structs` pages and returns only pages
that it holds. -/
def Allowed (w : PageWorld) : PageOp → Prop
  | .allocPage => True
  | .freePage i => i ∈ w.out
  | .allocPages n => 1 ≤ n ∧ n ≤ w.mem.nrPageStructs
  | .freePages i n => ∀ k, i ≤ k → k < i + n.toNat → k ∈ w.out

/-- A well-formed free list beside the pages that callers hold. -/
structure Inv (w : PageWorld) (free : List Nat) : Prop where
  list : MemPages.FreeList w.mem free
  held : ∀ i ∈ w.out, i < w.mem.nrPageStructs ∧ i ∉ free ∧
    (w.mem.page (.pg i)).phyaddr = pageSize * i

/-- Pages that leave the list for a caller. -/
theorem Inv.take {w : PageWorld} {free free' s : List Nat} {m : MemPages} (I : Inv w free)
    (F : MemPages.FreeList m free') (hf : MemPages.Flagged w.mem m s false)
    (hs : ∀ i ∈ s, i ∈ free) (hmem : ∀ i ∈ free', i ∈ free ∧ i ∉ s) :
    Inv ⟨m, s ++ w.out⟩ free' := by
  refine ⟨F, ?_⟩
  intro i hi
  rw [hf.nr_eq, hf.phyaddr_eq]
  rcases List.mem_append.mp hi with h | h
  · exact ⟨I.list.bounded i (hs i h), fun h' => (hmem i h').2 h, I.list.phyaddr_eq i (hs i h)⟩
  · obtain ⟨h₁, h₂, h₃⟩ := I.held i h
    exact ⟨h₁, fun h' => h₂ (hmem i h').1, h₃⟩

/-- Pages that a caller returns to the list. -/
theorem Inv.give {w : PageWorld} {free free' s out' : List Nat} {m : MemPages}
    (I : Inv w free) (F : MemPages.FreeList m free') (hf : MemPages.Flagged w.mem m s true)
    (hmem : ∀ i ∈ free', i ∈ free ∨ i ∈ s) (hout : ∀ i ∈ out', i ∈ w.out ∧ i ∉ s) :
    Inv ⟨m, out'⟩ free' := by
  refine ⟨F, ?_⟩
  intro i hi
  obtain ⟨ho, hns⟩ := hout i hi
  obtain ⟨h₁, h₂, h₃⟩ := I.held i ho
  rw [hf.nr_eq, hf.phyaddr_eq]
  exact ⟨h₁, fun h' => (hmem i h').elim h₂ hns, h₃⟩

theorem allocPage_inv {w : PageWorld} {free : List Nat} (I : Inv w free) :
    ∃ w' free', w.step .allocPage = .ok w' ∧ Inv w' free' := by
  match free, I with
  | [], I => exact ⟨w, [], by simp [step, I.list.allocPage_null, handed], I⟩
  | [i], I => exact ⟨w, [i], by simp [step, I.list.allocPage_null, handed], I⟩
  | i :: j :: t, I =>
      obtain ⟨m, hal, F, hf⟩ := I.list.allocPage_pop
      refine ⟨⟨m, [i] ++ w.out⟩, j :: t, by simp [step, hal, handed], ?_⟩
      refine I.take F hf (by simp) ?_
      intro k hk
      refine ⟨List.mem_cons_of_mem i hk, ?_⟩
      rintro hki
      rw [List.mem_singleton.mp hki] at hk
      exact (List.nodup_cons.mp I.list.nodup).1 hk

theorem freePage_inv {w : PageWorld} {free : List Nat} (I : Inv w free) {i : Nat}
    (hi : i ∈ w.out) : ∃ w' free', w.step (.freePage i) = .ok w' ∧ Inv w' free' := by
  obtain ⟨h₁, h₂, h₃⟩ := I.held i hi
  obtain ⟨m, hfr, F, hf⟩ := I.list.freePage_push h₁ h₂ h₃
  refine ⟨_, i :: free, by simp only [step, hfr, ok_bind]; rfl, ?_⟩
  refine I.give F hf ?_ ?_
  · intro k hk
    simpa [or_comm] using hk
  · intro k hk
    simpa using hk

theorem allocPages_inv {w : PageWorld} {free : List Nat} (I : Inv w free) {n : Int}
    (h₁ : 1 ≤ n) (hle : n ≤ w.mem.nrPageStructs) :
    ∃ w' free', w.step (.allocPages n) = .ok w' ∧ Inv w' free' := by
  obtain ⟨n, rfl⟩ := Int.eq_ofNat_of_zero_le (show 0 ≤ n by omega)
  by_cases hone : n = 1
  · subst hone
    exact allocPage_inv I
  · by_cases hrun : ∃ s, MemPages.IsRun w.mem n s
    · classical
      have hs := Nat.find_spec hrun
      obtain ⟨m, hal, F, hf⟩ := I.list.allocPages_run (n := n) (by omega) (by omega) hs
        (fun s' hs' => Nat.find_min hrun hs')
      refine ⟨⟨m, List.range' (Nat.find hrun) n ++ w.out⟩, _, by simp [step, hal, handed],
        I.take F hf ?_ ?_⟩
      · intro k hk
        obtain ⟨hk₁, hk₂⟩ := List.mem_range'_1.mp hk
        exact (I.list.isFree_iff k (by have := hs.1; omega)).mp (hs.2 k hk₁ hk₂)
      · intro k hk
        obtain ⟨hkf, hkr⟩ := List.mem_filter.mp hk
        refine ⟨hkf, fun hk' => ?_⟩
        simp only [decide_eq_true_eq] at hkr
        exact hkr (List.mem_range'_1.mp hk')
    · refine ⟨w, free, ?_, I⟩
      have hal := I.list.allocPages_null (n := n) (by omega) (by omega)
        (fun s hs => hrun ⟨s, hs⟩)
      simp [step, hal, handed]

theorem freePages_inv {w : PageWorld} {free : List Nat} (I : Inv w free) {i : Nat} {n : Int}
    (hr : ∀ k, i ≤ k → k < i + n.toNat → k ∈ w.out) :
    ∃ w' free', w.step (.freePages i n) = .ok w' ∧ Inv w' free' := by
  by_cases hone : n = 1
  · subst hone
    have hi : i ∈ w.out := hr i le_rfl (by simp)
    obtain ⟨h₁, h₂, h₃⟩ := I.held i hi
    obtain ⟨m, hfr, F, hf⟩ := I.list.freePage_push h₁ h₂ h₃
    refine ⟨_, i :: free, by simp only [step, MemPages.freePages, if_true, hfr, ok_bind]; rfl, ?_⟩
    refine I.give F hf ?_ ?_
    · intro k hk
      simpa [or_comm] using hk
    · intro k hk
      simp only [List.mem_filter, decide_eq_true_eq] at hk
      refine ⟨hk.1, fun he => hk.2 ?_⟩
      rw [List.mem_singleton.mp he]
      simp
  · obtain ⟨m, hfr, F, hf⟩ := I.list.freeRun_spec n.toNat i
      (fun k hk₁ hk₂ => I.held k (hr k hk₁ hk₂))
    refine ⟨_, _, by simp only [step, MemPages.freePages, if_neg hone, hfr, ok_bind]; rfl,
      I.give F hf ?_ ?_⟩
    · intro k hk
      rcases List.mem_append.mp hk with h | h
      · exact Or.inr (List.mem_reverse.mp h)
      · exact Or.inl h
    · intro k hk
      simp only [List.mem_filter, decide_eq_true_eq] at hk
      exact ⟨hk.1, fun hk' => hk.2 (List.mem_range'_1.mp hk')⟩

/-- Every allowed call returns and keeps the invariant. -/
theorem step_inv {w : PageWorld} {free : List Nat} (I : Inv w free) {op : PageOp}
    (ha : w.Allowed op) : ∃ w' free', w.step op = .ok w' ∧ Inv w' free' := by
  cases op with
  | allocPage => exact allocPage_inv I
  | freePage i => exact freePage_inv I ha
  | allocPages n => exact allocPages_inv I ha.1 ha.2
  | freePages i n => exact freePages_inv I ha

/-- The worlds that allowed calls lead to from an allocator state. -/
def Reachable (m : MemPages) (w : PageWorld) : Prop := Reach step Allowed ⟨m, []⟩ w

theorem Reachable.inv {m : MemPages} {w : PageWorld} {free : List Nat}
    (F : MemPages.FreeList m free) (h : Reachable m w) : ∃ free', Inv w free' := by
  refine Reach.inv (I := fun w => ∃ free', Inv w free') ⟨free, F, by simp⟩ ?_ h
  rintro s o s' ⟨free', I⟩ ha hs
  obtain ⟨w', free'', hw, I'⟩ := step_inv I ha
  rw [hw] at hs
  cases hs
  exact ⟨free'', I'⟩

/-- On a map of whole disjoint pages with a page to give out, `Init` returns
a well-formed free list; every later call that respects ownership returns,
and after any sequence of them the list is well formed again. -/
theorem freeList_of_reachable (img : KernelImage) (es : List MmapEntry) (h : AlignedMap es) :
    ∃ m, MemPages.init img es {} = .ok m ∧ ((∃ i, (m.page (.pg i)).isFree = true) →
      ∀ w, Reachable m w → (∃ free, MemPages.FreeList w.mem free) ∧
        ∀ op, w.Allowed op → ∃ w', w.step op = .ok w') := by
  obtain ⟨m, hinit, hlist⟩ := MemPages.init_aligned_freeList img h
  refine ⟨m, hinit, ?_⟩
  intro hfree w hw
  obtain ⟨free, F⟩ := hlist hfree
  obtain ⟨free', I⟩ := hw.inv F
  refine ⟨⟨free', I.list⟩, ?_⟩
  intro op ha
  obtain ⟨w', _, hs, _⟩ := step_inv I ha
  exact ⟨w', hs⟩

/-- A machine with three free pages below the kernel image and one
reserved entry. -/
def smallMap : List MmapEntry := [.ofWords 0x1000 0x3000 1, .ofWords 0x80001 0x10 2]

def smallImage : KernelImage := ⟨0x100000, 0x110000⟩

theorem smallMap_aligned : AlignedMap smallMap := by
  refine ⟨?_, ?_⟩
  · intro e he ha
    simp only [smallMap, List.mem_cons, List.not_mem_nil, or_false] at he
    rcases he with rfl | rfl
    · exact ⟨rfl, rfl⟩
    · cases ha
  · simp [smallMap, MmapEntry.available, MmapEntry.ofWords, multibootMemoryAvailable]

/-- A run of two pages is taken from `smallMap` and returned again. -/
theorem freeList_of_reachable_smallMap :
    ∃ m, MemPages.init smallImage smallMap {} = .ok m ∧
      ∃ w w', step ⟨m, []⟩ (.allocPages 2) = .ok w ∧ w.out = [1, 2] ∧
        w.step (.freePages 1 2) = .ok w' ∧ ∃ free, MemPages.FreeList w'.mem free := by
  obtain ⟨m, hinit, hrun⟩ := freeList_of_reachable smallImage smallMap smallMap_aligned
  have hfacts : okAnd (MemPages.init smallImage smallMap {}) (fun m =>
      (m.page (.pg 1)).isFree && m.nrPageStructs == 4 &&
        okAnd (step ⟨m, []⟩ (.allocPages 2)) fun w => w.out == [1, 2]) = true := by decide
  simp only [hinit, okAnd_ok, Bool.and_eq_true, beq_iff_eq] at hfacts
  obtain ⟨⟨hfree, hnr⟩, hout⟩ := hfacts
  have hrun' := hrun ⟨1, hfree⟩
  have ha : Allowed ⟨m, []⟩ (.allocPages 2) := ⟨by decide, by simp [hnr]⟩
  obtain ⟨w, hw⟩ := (hrun' ⟨m, []⟩ .start).2 _ ha
  simp only [hw, okAnd_ok, beq_iff_eq] at hout
  have hreach : Reachable m w := .next .start ha hw
  have ha' : w.Allowed (.freePages 1 2) := by
    intro k hk₁ hk₂
    rw [hout]
    simp at hk₂ ⊢
    omega
  obtain ⟨w', hw'⟩ := (hrun' w hreach).2 _ ha'
  exact ⟨m, hinit, w, w', hw, hout, hw', (hrun' w' (.next hreach ha' hw')).1⟩

end PageWorld

end Chestnut
