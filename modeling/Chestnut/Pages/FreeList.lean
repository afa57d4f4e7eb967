import Chestnut.Pages.Model
import Mathlib.Tactic.Linarith
import Mathlib.Data.List.Basic

/-!
# The free list of the page allocator

`FreeList m free` says that the list through `page_head` is well formed and
visits the pages `free` in order, that these are exactly the pages flagged
free, and that every listed record knows its own address. The four allocator
operations are specified against it: each returns without a fault, edits the
sequence `free`, and changes only the two flags of the pages it moves.
-/

namespace Chestnut

open Lib

namespace MemPages

/-- The list through `page_head` visits exactly the free pages, each once. -/
structure FreeList (m : MemPages) (free : List Nat) : Prop where
  ring : Ring m.links .head (free.map .pg)
  bounded : ∀ i ∈ free, i < m.nrPageStructs
  isFree_iff : ∀ i < m.nrPageStructs, (m.page (.pg i)).isFree = true ↔ i ∈ free
  isInList_eq : ∀ i < m.nrPageStructs, (m.page (.pg i)).isInList = (m.page (.pg i)).isFree
  phyaddr_eq : ∀ i ∈ free, (m.page (.pg i)).phyaddr = pageSize * i
  nr_lt : m.nrPageStructs < u64Size

/-- The records of `m'` are those of `m` with both flags of the pages in `s`
set to `b`. -/
structure Flagged (m m' : MemPages) (s : List Nat) (b : Bool) : Prop where
  nr_eq : m'.nrPageStructs = m.nrPageStructs
  maxPhy_eq : m'.maxPhy = m.maxPhy
  page_eq : ∀ i, m'.page (.pg i) =
    if i ∈ s then { m.page (.pg i) with isFree := b, isInList := b } else m.page (.pg i)

theorem Flagged.refl (m : MemPages) (b : Bool) : Flagged m m [] b :=
  ⟨rfl, rfl, by simp⟩

theorem Flagged.trans {m m' m'' : MemPages} {s t : List Nat} {b : Bool}
    (h : Flagged m m' s b) (h' : Flagged m' m'' t b) : Flagged m m'' (s ++ t) b := by
  refine ⟨h'.nr_eq.trans h.nr_eq, h'.maxPhy_eq.trans h.maxPhy_eq, ?_⟩
  intro i
  rw [h'.page_eq, h.page_eq]
  by_cases hs : i ∈ s <;> by_cases ht : i ∈ t <;> simp [hs, ht]

theorem Flagged.phyaddr_eq {m m' : MemPages} {s : List Nat} {b : Bool}
    (h : Flagged m m' s b) (i : Nat) : (m'.page (.pg i)).phyaddr = (m.page (.pg i)).phyaddr := by
  rw [h.page_eq]
  split <;> rfl

theorem Flagged.slab_eq {m m' : MemPages} {s : List Nat} {b : Bool} (h : Flagged m m' s b)
    (i : Nat) : (m'.page (.pg i)).slabPtr = (m.page (.pg i)).slabPtr ∧
      (m'.page (.pg i)).slabObjSize = (m.page (.pg i)).slabObjSize := by
  rw [h.page_eq]
  split <;> exact ⟨rfl, rfl⟩

@[simp] theorem setNext_links (m : MemPages) (a b : PageRef) :
    (m.setNext a b).links = m.links.setNext a b := rfl

@[simp] theorem setPrev_links (m : MemPages) (a b : PageRef) :
    (m.setPrev a b).links = m.links.setPrev a b := rfl

@[simp] theorem setFlags_links (m : MemPages) (p : PageRef) (b : Bool) :
    (m.setFlags p b).links = m.links := rfl

@[simp] theorem setNext_page (m : MemPages) (a b : PageRef) :
    (m.setNext a b).page = m.page := rfl

@[simp] theorem setPrev_page (m : MemPages) (a b : PageRef) :
    (m.setPrev a b).page = m.page := rfl

@[simp] theorem setNext_nr (m : MemPages) (a b : PageRef) :
    (m.setNext a b).nrPageStructs = m.nrPageStructs := rfl

@[simp] theorem setPrev_nr (m : MemPages) (a b : PageRef) :
    (m.setPrev a b).nrPageStructs = m.nrPageStructs := rfl

@[simp] theorem setFlags_nr (m : MemPages) (p : PageRef) (b : Bool) :
    (m.setFlags p b).nrPageStructs = m.nrPageStructs := rfl

@[simp] theorem setNext_maxPhy (m : MemPages) (a b : PageRef) :
    (m.setNext a b).maxPhy = m.maxPhy := rfl

@[simp] theorem setPrev_maxPhy (m : MemPages) (a b : PageRef) :
    (m.setPrev a b).maxPhy = m.maxPhy := rfl

@[simp] theorem setFlags_maxPhy (m : MemPages) (p : PageRef) (b : Bool) :
    (m.setFlags p b).maxPhy = m.maxPhy := rfl

@[simp] theorem setPage_nr (m : MemPages) (p : PageRef) (r : Page) :
    (m.setPage p r).nrPageStructs = m.nrPageStructs := rfl

@[simp] theorem setPage_maxPhy (m : MemPages) (p : PageRef) (r : Page) :
    (m.setPage p r).maxPhy = m.maxPhy := rfl

@[simp] theorem setPage_links (m : MemPages) (p : PageRef) (r : Page) :
    (m.setPage p r).links = m.links := rfl

theorem setFlags_page (m : MemPages) (p q : PageRef) (b : Bool) :
    (m.setFlags p b).page q =
      if q = p then { m.page p with isFree := b, isInList := b } else m.page q := by
  simp [setFlags, setPage, Function.update_apply]

theorem deref_pg {m : MemPages} {i : Nat} (hi : i < m.nrPageStructs) :
    m.deref (.pg i) = .ok () := by
  simp [deref, hi]

theorem setFlags_flagged {m m' : MemPages} {i : Nat} {b : Bool}
    (hn : m'.nrPageStructs = m.nrPageStructs) (hm : m'.maxPhy = m.maxPhy)
    (hp : m'.page = m.page) : Flagged m (m'.setFlags (.pg i) b) [i] b := by
  refine ⟨hn, hm, ?_⟩
  intro k
  by_cases hk : k = i
  · subst hk
    simp [setFlags_page, hp]
  · simp [setFlags_page, hp, hk]

namespace FreeList

variable {m : MemPages} {free : List Nat}

theorem nodup (F : FreeList m free) : free.Nodup :=
  (List.nodup_cons.mp F.ring.nodup).2.of_map _

/-- Every reference stored in the list can be followed. -/
theorem deref_ok (F : FreeList m free) {r : PageRef} (hr : r ∈ PageRef.head :: free.map .pg) :
    m.deref r = .ok () := by
  rcases List.mem_cons.mp hr with rfl | hr
  · rfl
  · obtain ⟨i, hi, rfl⟩ := List.mem_map.mp hr
    exact deref_pg (F.bounded i hi)

/-- The invariant follows from the edited ring and the moved flags. -/
theorem of_flagged (F : FreeList m free) {m' : MemPages} {free' s : List Nat} {b : Bool}
    (hf : Flagged m m' s b) (hr : Ring m'.links .head (free'.map .pg))
    (hmem : ∀ i, i ∈ free' ↔ if i ∈ s then b = true else i ∈ free)
    (hs : ∀ i ∈ s, i < m.nrPageStructs ∧ (m.page (.pg i)).phyaddr = pageSize * i) :
    FreeList m' free' := by
  have hsrc : ∀ i ∈ free', i < m.nrPageStructs ∧ (m.page (.pg i)).phyaddr = pageSize * i := by
    intro i hi
    have h := (hmem i).mp hi
    by_cases his : i ∈ s
    · exact hs i his
    · rw [if_neg his] at h
      exact ⟨F.bounded i h, F.phyaddr_eq i h⟩
  refine ⟨hr, ?_, ?_, ?_, ?_, ?_⟩
  · intro i hi
    rw [hf.nr_eq]
    exact (hsrc i hi).1
  · intro i hi
    rw [hf.nr_eq] at hi
    rw [hf.page_eq, hmem]
    by_cases his : i ∈ s
    · simp [his]
    · simp only [his, if_false]
      exact F.isFree_iff i hi
  · intro i hi
    rw [hf.nr_eq] at hi
    rw [hf.page_eq]
    by_cases his : i ∈ s
    · simp [his]
    · simp only [his, if_false]
      exact F.isInList_eq i hi
  · intro i hi
    rw [hf.phyaddr_eq]
    exact (hsrc i hi).2
  · rw [hf.nr_eq]
    exact F.nr_lt

/-- `AllocPage` gives up as soon as the two links of `page_head` agree, which
is with no page or one page left. -/
theorem allocPage_null (F : FreeList m free) (hl : free.length ≤ 1) :
    m.allocPage = .ok (.null, m) := by
  have he : m.links.next .head = m.links.prev .head := by
    rw [F.ring.next_eq_prev_iff]
    simpa using hl
  simp [allocPage, he]

/-- With two pages or more `AllocPage` pops the first. -/
theorem allocPage_pop {i j : Nat} {t : List Nat} (F : FreeList m (i :: j :: t)) :
    ∃ m', m.allocPage = .ok (.pg i, m') ∧ FreeList m' (j :: t) ∧ Flagged m m' [i] false := by
  have hne : m.links.next .head ≠ m.links.prev .head := by
    rw [ne_eq, F.ring.next_eq_prev_iff]
    simp
  have hnext : m.links.next .head = .pg i := F.ring.next_head
  have hin : PageRef.pg i ∈ PageRef.head :: (i :: j :: t).map .pg := by simp
  have hprev : m.links.prev (.pg i) = .head := by
    rw [← hnext]
    exact F.ring.prev_next (by simp)
  have hd₁ := F.deref_ok hin
  have hd₂ := F.deref_ok (F.ring.next_mem hin)
  let m₁ := (m.setNext .head (m.links.next (.pg i))).setPrev (m.links.next (.pg i)) .head
  have hflag : Flagged m (m₁.setFlags (.pg i) false) [i] false :=
    setFlags_flagged (by simp [m₁]) (by simp [m₁]) (by simp [m₁])
  refine ⟨m₁.setFlags (.pg i) false, ?_, ?_, hflag⟩
  · have hd₂' : (m.setNext .head (m.links.next (.pg i))).deref (m.links.next (.pg i)) =
        .ok () := hd₂
    rw [allocPage, if_neg hne]
    simp [hnext, hd₁, hd₂', m₁]
  · have hlinks : (m₁.setFlags (.pg i) false).links = m.links.delete (.pg i) := by
      simp [m₁, Links.delete, hprev]
    refine F.of_flagged hflag ?_ ?_ ?_
    · rw [hlinks]
      exact F.ring.delete (l := []) rfl
    · intro k
      have hnd := (List.nodup_cons.mp F.nodup).1
      by_cases hk : k = i
      · subst hk
        simpa using hnd
      · simp [hk]
    · intro k hk
      simp only [List.mem_singleton] at hk
      subst hk
      exact ⟨F.bounded k (by simp), F.phyaddr_eq k (by simp)⟩

/-- `FreePage` pushes a page that is not on the list. -/
theorem freePage_push (F : FreeList m free) {i : Nat} (hi : i < m.nrPageStructs)
    (hfree : i ∉ free) (hphy : (m.page (.pg i)).phyaddr = pageSize * i) :
    ∃ m', m.freePage (.pg i) = .ok m' ∧ FreeList m' (i :: free) ∧ Flagged m m' [i] true := by
  have hout : PageRef.pg i ∉ PageRef.head :: free.map .pg := by simpa using hfree
  have hmem := F.ring.next_mem (n := .head) (by simp)
  have hne : m.links.next .head ≠ .pg i := fun e => hout (e ▸ hmem)
  have hd₂ := F.deref_ok hmem
  let m₁ := ((((m.setNext (.pg i) (m.links.next .head)).setPrev
    (m.links.next .head) (.pg i)).setNext .head (.pg i)).setPrev (.pg i) .head)
  have hflag : Flagged m (m₁.setFlags (.pg i) true) [i] true :=
    setFlags_flagged (by simp [m₁]) (by simp [m₁]) (by simp [m₁])
  refine ⟨m₁.setFlags (.pg i) true, ?_, ?_, hflag⟩
  · have hd₂' : (m.setNext (.pg i) (m.links.next .head)).deref (m.links.next .head) =
        .ok () := hd₂
    simp [freePage, deref_pg hi, hd₂', m₁]
  · have hlinks : (m₁.setFlags (.pg i) true).links = m.links.insertAfter (.pg i) .head := by
      simp [m₁, Links.insertAfter, Links.setNext, Links.setPrev, Function.update_comm hne]
    refine F.of_flagged hflag ?_ ?_ ?_
    · rw [hlinks]
      exact F.ring.push hout
    · intro k
      by_cases hk : k = i <;> simp [hk]
    · intro k hk
      simp only [List.mem_singleton] at hk
      subst hk
      exact ⟨hi, hphy⟩

/-- Unlinking one listed page, as a pass of the loop of `AllocPages` does. -/
theorem unlink_one (F : FreeList m free) (count : Nat) {i : Nat} (hi : i ∈ free) :
    ∃ m', unlinkRun (count + 1) i m = unlinkRun count (i + 1) m' ∧
      FreeList m' (free.filter (· ≠ i)) ∧ Flagged m m' [i] false := by
  have hin : PageRef.pg i ∈ PageRef.head :: free.map .pg := by simp [hi]
  have hpn : m.links.prev (.pg i) ≠ .pg i := F.ring.prev_ne (by simp [hi])
  have hd₂ := F.deref_ok (F.ring.prev_mem hin)
  have hd₃ := F.deref_ok (F.ring.next_mem hin)
  let m₁ := (m.setNext (m.links.prev (.pg i)) (m.links.next (.pg i))).setPrev
    (m.links.next (.pg i)) (m.links.prev (.pg i))
  have hflag : Flagged m (m₁.setFlags (.pg i) false) [i] false :=
    setFlags_flagged (by simp [m₁]) (by simp [m₁]) (by simp [m₁])
  refine ⟨m₁.setFlags (.pg i) false, ?_, ?_, hflag⟩
  · have hd₃' : (m.setNext (m.links.prev (.pg i)) (m.links.next (.pg i))).deref
        (m.links.next (.pg i)) = .ok () := hd₃
    simp [unlinkRun, deref_pg (F.bounded i hi), hd₂, hd₃', Function.update_of_ne hpn.symm, m₁]
  · obtain ⟨l, t, rfl⟩ := List.append_of_mem hi
    have hlinks : (m₁.setFlags (.pg i) false).links = m.links.delete (.pg i) := by
      simp [m₁, Links.delete, Function.update_of_ne hpn.symm]
    have hnd := List.nodup_append.mp F.nodup
    have hil : i ∉ l := fun h => hnd.2.2 i h i (by simp) rfl
    have hit : i ∉ t := (List.nodup_cons.mp hnd.2.1).1
    have hfilter : (l ++ i :: t).filter (· ≠ i) = l ++ t := by
      have hl : l.filter (· ≠ i) = l := List.filter_eq_self.mpr (by
        intro a ha
        simpa using fun e : a = i => hil (e ▸ ha))
      have ht : t.filter (· ≠ i) = t := List.filter_eq_self.mpr (by
        intro a ha
        simpa using fun e : a = i => hit (e ▸ ha))
      rw [List.filter_append, List.filter_cons_of_neg (by simp), hl, ht]
    refine F.of_flagged hflag ?_ ?_ ?_
    · rw [hlinks, hfilter, List.map_append]
      exact F.ring.delete (by simp)
    · intro k
      by_cases hk : k = i <;> simp [hk]
    · intro k hk
      simp only [List.mem_singleton] at hk
      subst hk
      exact ⟨F.bounded k (by simp), F.phyaddr_eq k (by simp)⟩

/-- Unlinking a run of listed pages keeps the order of the others. -/
theorem unlinkRun_spec (F : FreeList m free) (count i : Nat)
    (hrun : ∀ k, i ≤ k → k < i + count → k ∈ free) :
    ∃ m', unlinkRun count i m = .ok m' ∧
      FreeList m' (free.filter fun k => ¬ (i ≤ k ∧ k < i + count)) ∧
      Flagged m m' (List.range' i count) false := by
  induction count generalizing i m free with
  | zero =>
      refine ⟨m, rfl, ?_, Flagged.refl m false⟩
      have hall : free.filter (fun k => ¬ (i ≤ k ∧ k < i + 0)) = free :=
        List.filter_eq_self.mpr (by intro a _; simp)
      rw [hall]
      exact F
  | succ count ih =>
      obtain ⟨m₁, hstep, F₁, hf₁⟩ := F.unlink_one count (hrun i (by omega) (by omega))
      obtain ⟨m₂, hrest, F₂, hf₂⟩ := ih F₁ (i := i + 1) (by
        intro k hk₁ hk₂
        refine List.mem_filter.mpr ⟨hrun k (by omega) (by omega), ?_⟩
        simp
        omega)
      refine ⟨m₂, hstep.trans hrest, ?_, ?_⟩
      · rw [List.filter_filter] at F₂
        have hpred : (fun k => (decide ¬ (i + 1 ≤ k ∧ k < i + 1 + count)) && decide (k ≠ i)) =
            fun k => decide ¬ (i ≤ k ∧ k < i + (count + 1)) := by
          funext k
          rw [Bool.eq_iff_iff]
          simp only [Bool.and_eq_true, decide_eq_true_eq]
          omega
        rw [hpred] at F₂
        exact F₂
      · rw [List.range'_succ]
        exact hf₁.trans hf₂

/-- Pushing a run of pages that are off the list. -/
theorem freeRun_spec (F : FreeList m free) (count i : Nat)
    (hrun : ∀ k, i ≤ k → k < i + count → k < m.nrPageStructs ∧ k ∉ free ∧
      (m.page (.pg k)).phyaddr = pageSize * k) :
    ∃ m', freeRun count i m = .ok m' ∧
      FreeList m' ((List.range' i count).reverse ++ free) ∧
      Flagged m m' (List.range' i count) true := by
  induction count generalizing i m free with
  | zero => exact ⟨m, rfl, by simpa using F, Flagged.refl m true⟩
  | succ count ih =>
      obtain ⟨hi, hout, hphy⟩ := hrun i (by omega) (by omega)
      obtain ⟨m₁, hstep, F₁, hf₁⟩ := F.freePage_push hi hout hphy
      obtain ⟨m₂, hrest, F₂, hf₂⟩ := ih F₁ (i := i + 1) (by
        intro k hk₁ hk₂
        obtain ⟨h₁, h₂, h₃⟩ := hrun k (by omega) (by omega)
        refine ⟨by rw [hf₁.nr_eq]; exact h₁, ?_, by rw [hf₁.phyaddr_eq]; exact h₃⟩
        simp only [List.mem_cons, not_or]
        exact ⟨by omega, h₂⟩)
      refine ⟨m₂, by simp [freeRun, hstep, hrest], ?_, ?_⟩
      · simpa [List.range'_succ] using F₂
      · rw [List.range'_succ]
        exact hf₁.trans hf₂

end FreeList

/-- `n` free pages in a row, from page `s`, inside the page array. -/
def IsRun (m : MemPages) (n s : Nat) : Prop :=
  s + n ≤ m.nrPageStructs ∧ ∀ k, s ≤ k → k < s + n → (m.page (.pg k)).isFree = true

/-- What the search of `AllocPages` knows on reaching page `i`: no run ends
at or before `i`, and `start` is the first page of the free stretch that
reaches `i`, if there is one. -/
structure ScanInv (m : MemPages) (n i : Nat) (start : Int) : Prop where
  none_before : ∀ s, s + n ≤ i → ¬ IsRun m n s
  outside : start = -1 → i = 0 ∨ (m.page (.pg (i - 1))).isFree = false
  inside : start ≠ -1 → ∃ s : Nat, start = s ∧ s < i ∧ i < s + n ∧
    s + n ≤ m.nrPageStructs ∧ (∀ s' < s, ¬ IsRun m n s') ∧
    ∀ k, s ≤ k → k < i → (m.page (.pg k)).isFree = true

/-- The first page of the first run, or -1. -/
def FirstRun (m : MemPages) (n : Nat) (r : Int) : Prop :=
  (r = -1 ∧ ∀ s, ¬ IsRun m n s) ∨
    ∃ s : Nat, r = s ∧ IsRun m n s ∧ ∀ s' < s, ¬ IsRun m n s'

/-- A page that is not free ends every stretch. -/
theorem ScanInv.skip {m : MemPages} {n i : Nat} {start : Int} (hn : 1 ≤ n)
    (I : ScanInv m n i start) (hf : (m.page (.pg i)).isFree = false) :
    ScanInv m n (i + 1) (-1) := by
  refine ⟨?_, fun _ => Or.inr (by simpa using hf), fun h => absurd rfl h⟩
  intro s hs hrun
  rcases Nat.lt_or_ge (s + n) (i + 1) with h | h
  · exact I.none_before s (by omega) hrun
  · have := hrun.2 i (by omega) (by omega)
    simp [hf] at this

/-- No run starts before a page that begins a stretch. -/
theorem ScanInv.none_left {m : MemPages} {n i : Nat} (I : ScanInv m n i (-1)) :
    ∀ s < i, ¬ IsRun m n s := by
  intro s hs hrun
  rcases I.outside rfl with rfl | hf
  · omega
  · rcases Nat.lt_or_ge i (s + n) with h | h
    · have := hrun.2 (i - 1) (by omega) (by omega)
      simp [hf] at this
    · exact I.none_before s h hrun

/-- The search returns the first run whenever the request fits the array. -/
theorem scanRun_spec {m : MemPages} {n : Nat} (hn : 1 ≤ n) (hle : n ≤ m.nrPageStructs)
    (hlt : m.nrPageStructs < u64Size) {left i : Nat} {start : Int}
    (hleft : i + left = m.nrPageStructs) (I : ScanInv m n i start) :
    FirstRun m n (m.scanRun n left i start) := by
  induction left generalizing i start with
  | zero =>
      simp only [scanRun]
      by_cases hs : start = -1
      · exact Or.inl ⟨hs, fun s hrun => I.none_before s (by have := hrun.1; omega) hrun⟩
      · obtain ⟨s, _, _, _, _, _, _⟩ := I.inside hs
        omega
  | succ left ih =>
      rw [scanRun]
      cases hf : (m.page (.pg i)).isFree with
      | false =>
          simp only [Bool.not_false, if_true]
          exact ih (by omega) (I.skip hn hf)
      | true =>
          have hbound : ((m.nrPageStructs : Int) - n) % u64Size = (m.nrPageStructs - n : Nat) := by
            rw [Int.emod_eq_of_lt (by omega) (by omega)]
            omega
          simp only [Bool.not_true, Bool.false_eq_true, if_false, hbound]
          by_cases hs : start = -1
          · subst hs
            by_cases hb : ((m.nrPageStructs - n : Nat) : Int) < i
            · simp only [hb, and_true, if_true]
              refine Or.inl ⟨rfl, fun s hrun => ?_⟩
              exact I.none_left s (by have := hrun.1; omega) hrun
            · simp only [hb, and_false, if_false, if_true]
              by_cases he : (i : Int) = i + n - 1
              · rw [if_pos he]
                refine Or.inr ⟨i, rfl, ⟨by omega, ?_⟩, I.none_left⟩
                intro k hk₁ hk₂
                have hki : k = i := by omega
                rw [hki, hf]
              · rw [if_neg he]
                refine ih (by omega) ⟨?_, fun h => by omega, fun _ => ?_⟩
                · intro s hs hrun
                  exact I.none_left s (by omega) hrun
                · refine ⟨i, rfl, by omega, by omega, by omega, I.none_left, ?_⟩
                  intro k hk₁ hk₂
                  have hki : k = i := by omega
                  rw [hki, hf]
          · obtain ⟨s, rfl, hsi, hin, hfit, hfirst, hall⟩ := I.inside hs
            have hall' : ∀ k, s ≤ k → k < i + 1 → (m.page (.pg k)).isFree = true := by
              intro k hk₁ hk₂
              rcases Nat.lt_or_ge k i with h | h
              · exact hall k hk₁ h
              · have hki : k = i := by omega
                rw [hki, hf]
            simp only [hs, false_and, if_false]
            by_cases he : (i : Int) = s + n - 1
            · rw [if_pos he]
              exact Or.inr ⟨s, rfl, ⟨hfit, fun k hk₁ hk₂ => hall' k hk₁ (by omega)⟩, hfirst⟩
            · rw [if_neg he]
              refine ih (by omega) ⟨?_, fun h => by omega, fun _ => ?_⟩
              · intro s' hs'
                exact hfirst s' (by omega)
              · exact ⟨s, rfl, by omega, by omega, hfit, hfirst, hall'⟩

namespace FreeList

variable {m : MemPages} {free : List Nat}

/-- A request that fits nowhere returns null and changes nothing. -/
theorem allocPages_null (F : FreeList m free) {n : Nat} (hn : 2 ≤ n)
    (hle : n ≤ m.nrPageStructs) (hno : ∀ s, ¬ IsRun m n s) :
    m.allocPages n = .ok (.null, m) := by
  have h : FirstRun m n (m.scanRun n m.nrPageStructs 0 (-1)) :=
    scanRun_spec (by omega) hle F.nr_lt (by omega)
      ⟨fun s hs => by omega, fun _ => Or.inl rfl, by simp⟩
  rcases h with ⟨h, _⟩ | ⟨s, _, hrun, _⟩
  · have hn1 : (n : Int) ≠ 1 := by omega
    simp [allocPages, hn1, h]
  · exact absurd hrun (hno s)

/-- Otherwise the first run is unlinked and returned. -/
theorem allocPages_run (F : FreeList m free) {n s : Nat} (hn : 2 ≤ n)
    (hle : n ≤ m.nrPageStructs) (hrun : IsRun m n s) (hfirst : ∀ s' < s, ¬ IsRun m n s') :
    ∃ m', m.allocPages n = .ok (.pg s, m') ∧
      FreeList m' (free.filter fun k => ¬ (s ≤ k ∧ k < s + n)) ∧
      Flagged m m' (List.range' s n) false := by
  have h : FirstRun m n (m.scanRun n m.nrPageStructs 0 (-1)) :=
    scanRun_spec (by omega) hle F.nr_lt (by omega)
      ⟨fun s hs => by omega, fun _ => Or.inl rfl, by simp⟩
  rcases h with ⟨_, hno⟩ | ⟨s', h, hrun', hfirst'⟩
  · exact absurd hrun (hno s)
  · have hs : s' = s := by
      rcases Nat.lt_trichotomy s' s with hlt | heq | hgt
      · exact absurd hrun' (hfirst s' hlt)
      · exact heq
      · exact absurd hrun (hfirst' s hgt)
    subst hs
    have hn1 : (n : Int) ≠ 1 := by omega
    have hs1 : (s' : Int) ≠ -1 := by omega
    obtain ⟨m', hu, F', hf⟩ := F.unlinkRun_spec n s' (by
      intro k hk₁ hk₂
      exact (F.isFree_iff k (by have := hrun.1; omega)).mp (hrun.2 k hk₁ hk₂))
    exact ⟨m', by simp [allocPages, hn1, h, hs1, hu], F', hf⟩

end FreeList

/-- Page records for `n` pages behind page 0, none of them free. -/
def reserved (n : Nat) : MemPages where
  links := Links.initHead ⟨fun _ => .null, fun _ => .null⟩ .head
  page
    | .pg i => { phyaddr := pageSize * i }
    | _ => {}
  nrPageStructs := n + 1

theorem reserved_freeList {n : Nat} (hn : n + 1 < u64Size) :
    FreeList (reserved n) [] where
  ring := Ring.initHead
  bounded := by simp
  isFree_iff := by simp [reserved]
  isInList_eq := by simp [reserved]
  phyaddr_eq := by simp
  nr_lt := hn

/-- A machine whose pages `1` to `n` are free. -/
def line (n : Nat) : MemPages :=
  match freeRun n 1 (reserved n) with
  | .ok m => m
  | .error _ => reserved n

theorem line_freeList {n : Nat} (hn : n + 1 < u64Size) :
    FreeList (line n) (List.range' 1 n).reverse := by
  obtain ⟨m, hfr, F, -⟩ := (reserved_freeList hn).freeRun_spec n 1 (by
    intro k h₁ h₂
    exact ⟨by simp only [reserved]; omega, by simp, rfl⟩)
  rw [line, hfr]
  simpa using F

end MemPages

end Chestnut
