import Chestnut.Pages.Runs
import Chestnut.Pages.Supply

/-!
# What the page allocator hands out

The boot leaves a well-formed free list, or, when no page is free, the links
of `page_head` as they were. From either start, in every state that calls can
reach, `AllocPages` is first fit, a request for more pages than there are runs
past the page array as soon as the last page is free, and `AllocPage` gives up
with one page left.
-/

namespace Chestnut

open Lib

namespace MemPages

variable {m : MemPages} {free : List Nat}

/-- No page was ever free: `page_head` still has its null links. -/
structure Bare (m : MemPages) : Prop where
  next_head : m.links.next .head = .null
  prev_head : m.links.prev .head = .null
  none_free : ∀ i < m.nrPageStructs, (m.page (.pg i)).isFree = false
  nr_lt : m.nrPageStructs < u64Size

/-- What the boot leaves behind. -/
def Booted (m : MemPages) : Prop := (∃ free, FreeList m free) ∨ Bare m

/-- Every map on which `Init` returns without visiting a page twice. -/
theorem init_booted {img : KernelImage} {es : List MmapEntry} (h : init img es {} = .ok m)
    (hnd : ((visits es).map pgnum).Nodup) : Booted m := by
  obtain ⟨m₀, hinit, hnr, -, hlinks⟩ := init_eq img es
  rw [hinit] at h
  obtain ⟨⟨m', last⟩, hfold, hm⟩ := bind_ok h
  obtain rfl : m' = m := Except.ok.inj hm
  obtain ⟨hin, hnr', -⟩ := collectFold_bounded hfold
  have hlt : m'.nrPageStructs < u64Size := by
    have hmax := maxKernMem_lt es
    have heq : m'.nrPageStructs = maxKernMem es / pageSize := hnr'.trans hnr
    simp only [heq, pageSize, u64Size] at hmax ⊢
    omega
  obtain ⟨m₁, last₁, hfold₁, C, -⟩ :=
    collectFold_spec (clearPages_collecting m₀) img (visits es) hin hnd fun _ _ => List.not_mem_nil
  rw [hfold] at hfold₁
  cases hfold₁
  by_cases hne : [] ++ freed img m₀.clearPages (visits es) = []
  · obtain ⟨free, S⟩ : ∃ free, Strung m' free last :=
      ⟨_, (clearPages_strung hlinks).collectFold hfold⟩
    have hlast : last = .head := by
      have h := C.last_eq
      simpa [hne] using h
    have hnil : free = [] := by
      cases free with
      | nil => rfl
      | cons i t =>
          have h := S.last_eq
          rw [hlast, List.map_cons, List.getLast_cons (by simp)] at h
          have hmem : PageRef.head ∈ PageRef.pg i :: t.map PageRef.pg := by
            rw [h]
            exact List.getLast_mem _
          simp at hmem
    obtain ⟨hprev, hnext⟩ := S.empty hnil
    refine .inr ⟨hnext, hprev.trans hnext, fun i _ => ?_, hlt⟩
    rw [← Bool.not_eq_true, C.isFree_iff, hne]
    exact List.not_mem_nil
  · exact .inl ⟨_, C.freeList hne hlt⟩

namespace Bare

theorem not_isRun (B : Bare m) {n s : Nat} (hn : 1 ≤ n) : ¬ IsRun m n s := by
  rintro ⟨hle, hall⟩
  have hfree := hall s (Nat.le_refl s) (by omega)
  rw [B.none_free s (by omega)] at hfree
  cases hfree

theorem allocPage_eq (B : Bare m) : m.allocPage = .ok (.null, m) := by
  simp [allocPage, B.next_head, B.prev_head]

/-- The search passes over all pages. -/
theorem scanRun_eq (B : Bare m) (n : Int) {left i : Nat} (hleft : i + left = m.nrPageStructs) :
    m.scanRun n left i (-1) = -1 := by
  induction left generalizing i with
  | zero => rfl
  | succ left ih =>
      rw [scanRun, B.none_free i (by omega)]
      exact ih (by omega)

theorem allocPages_eq (B : Bare m) (n : Int) : m.allocPages n = .ok (.null, m) := by
  rw [allocPages]
  split
  · exact B.allocPage_eq
  · rw [B.scanRun_eq n (by omega)]
    rfl

end Bare

/-- The number of pages flagged free. -/
def freeCount (m : MemPages) : Nat :=
  (List.range m.nrPageStructs).countP fun i => (m.page (.pg i)).isFree

theorem FreeList.freeCount_eq (F : FreeList m free) : m.freeCount = free.length := by
  rw [freeCount, List.countP_eq_length_filter]
  apply List.Perm.length_eq
  rw [List.perm_ext_iff_of_nodup (List.nodup_range.filter _) F.nodup]
  intro i
  rw [List.mem_filter, List.mem_range]
  constructor
  · rintro ⟨hlt, hi⟩
    exact (F.isFree_iff i hlt).mp hi
  · intro hi
    exact ⟨F.bounded i hi, (F.isFree_iff i (F.bounded i hi)).mpr hi⟩

theorem deref_pg_ok {i : Nat} (h : m.deref (.pg i) = .ok ()) : i < m.nrPageStructs := by
  by_contra hlt
  simp [deref, hlt] at h

/-- The unlinking loop only returns inside the page array. -/
theorem unlinkRun_bound {count i : Nat} {m' : MemPages} (hpos : 0 < count)
    (h : unlinkRun count i m = .ok m') : i + count ≤ m.nrPageStructs := by
  induction count generalizing i m with
  | zero => omega
  | succ count ih =>
      obtain ⟨⟨⟩, hd, h⟩ := bind_ok h
      have hi := deref_pg_ok hd
      obtain ⟨⟨⟩, -, h⟩ := bind_ok h
      obtain ⟨⟨⟩, -, h⟩ := bind_ok h
      rcases Nat.eq_zero_or_pos count with rfl | hc
      · omega
      · have := ih hc h
        simp only [setFlags_nr, setPrev_nr, setNext_nr] at this
        omega

/-- More pages than there are cannot be taken. -/
theorem FreeList.allocPages_too_many (F : FreeList m free) {n : Nat}
    (hn : m.nrPageStructs < n) {p : PageRef} {m' : MemPages}
    (h : m.allocPages n = .ok (p, m')) : p = .null := by
  rw [allocPages] at h
  split at h
  · next hone =>
      have hnr : m.nrPageStructs = 0 := by omega
      have hnil : free = [] := by
        rw [List.eq_nil_iff_forall_not_mem]
        intro i hi
        have := F.bounded i hi
        omega
      rw [F.allocPage_null (by simp [hnil])] at h
      cases h
      rfl
  · dsimp only at h
    split at h
    · cases h
      rfl
    · obtain ⟨m₁, hrun, -⟩ := bind_ok h
      have := unlinkRun_bound (by omega) hrun
      omega

/-- A request for more pages than there are: the bound on the first page of a
run has wrapped, and the search ends at the array's end with the first page of
the free stretch that reaches it. -/
theorem scanRun_too_many {n : Int} (hn : m.nrPageStructs < n) (hlt : n < u64Size)
    {left i : Nat} {start : Int} (hleft : i + left = m.nrPageStructs) (hstart : -1 ≤ start) :
    -1 ≤ m.scanRun n left i start ∧ (m.scanRun n left i start = -1 ↔
      if left = 0 then start = -1 else (m.page (.pg (m.nrPageStructs - 1))).isFree = false) := by
  induction left generalizing i start with
  | zero => exact ⟨hstart, Iff.rfl⟩
  | succ left ih =>
      rw [if_neg (Nat.succ_ne_zero left), scanRun]
      cases hf : (m.page (.pg i)).isFree with
      | false =>
          obtain ⟨hge, hiff⟩ := ih (i := i + 1) (by omega) (Int.le_refl (-1))
          refine ⟨hge, hiff.trans ?_⟩
          split
          · have hi : m.nrPageStructs - 1 = i := by omega
            rw [hi, hf]
            exact iff_of_true rfl rfl
          · exact Iff.rfl
      | true =>
          have hwrap : ((m.nrPageStructs : Int) - n) % u64Size = m.nrPageStructs - n + u64Size := by
            rw [← Int.add_emod_right, Int.emod_eq_of_lt (by omega) (by omega)]
          have hbound : ¬ (start = -1 ∧ ((m.nrPageStructs : Int) - n) % u64Size < i) := by
            rw [hwrap]
            omega
          simp only [Bool.not_true, Bool.false_eq_true, if_false, if_neg hbound]
          obtain ⟨first, hfirst⟩ : ∃ first, first = if start = -1 then (i : Int) else start :=
            ⟨_, rfl⟩
          have hpos : 0 ≤ first := by
            rw [hfirst]
            split <;> omega
          rw [← hfirst, if_neg (by omega)]
          obtain ⟨hge, hiff⟩ := @ih (i + 1) first (by omega) (by omega)
          refine ⟨hge, hiff.trans ?_⟩
          split
          · have hi : m.nrPageStructs - 1 = i := by omega
            rw [hi, hf]
            exact iff_of_false (by omega) (by simp)
          · exact Iff.rfl

/-- `AllocPages` stays inside the page array, and what it returns was free. -/
def Inside (m : MemPages) (n : Int) : Prop :=
  ∃ p m', m.allocPages n = .ok (p, m') ∧ (p = .null ∨ ∃ s, p = .pg s ∧ IsRun m n.toNat s)

/-- A single page. -/
theorem FreeList.inside_one (F : FreeList m free) : Inside m 1 := by
  match free, F with
  | [], F => exact ⟨_, _, F.allocPage_null (by simp), .inl rfl⟩
  | [i], F => exact ⟨_, _, F.allocPage_null (by simp), .inl rfl⟩
  | i :: j :: t, F =>
      obtain ⟨m', hal, -, -⟩ := F.allocPage_pop
      have hlt := F.bounded i (by simp)
      refine ⟨_, _, hal, .inr ⟨i, rfl, hlt, fun k hk₁ hk₂ => ?_⟩⟩
      obtain rfl : k = i := by simp at hk₂; omega
      exact (F.isFree_iff k hlt).mpr (by simp)

/-- A request that fits the array. -/
theorem FreeList.inside_of_le (F : FreeList m free) {n : Nat} (hn : 1 ≤ n)
    (hle : n ≤ m.nrPageStructs) : Inside m n := by
  rcases Nat.eq_or_lt_of_le hn with rfl | hn
  · exact F.inside_one
  · by_cases hrun : ∃ s, IsRun m n s
    · classical
      obtain ⟨m', hal, -, -⟩ := F.allocPages_run hn hle (Nat.find_spec hrun)
        fun s' hs' => Nat.find_min hrun hs'
      exact ⟨_, _, hal, .inr ⟨_, rfl, Nat.find_spec hrun⟩⟩
    · exact ⟨_, _, F.allocPages_null hn hle fun s hs => hrun ⟨s, hs⟩, .inl rfl⟩

/-- A request that does not fit is refused unless the last page is free. -/
theorem inside_too_many_iff {n : Nat} (hn : 2 ≤ n) (hgt : m.nrPageStructs < n)
    (hlt : n < u64Size) : Inside m n ↔
      (0 < m.nrPageStructs → (m.page (.pg (m.nrPageStructs - 1))).isFree = false) := by
  obtain ⟨hge, hiff⟩ := scanRun_too_many (m := m) (n := n) (i := 0) (by omega) (by omega)
    (Nat.zero_add m.nrPageStructs) (Int.le_refl (-1))
  have hcond : m.scanRun n m.nrPageStructs 0 (-1) = -1 ↔
      (0 < m.nrPageStructs → (m.page (.pg (m.nrPageStructs - 1))).isFree = false) := by
    rw [hiff]
    split
    · exact iff_of_true rfl (by omega)
    · exact ⟨fun h _ => h, fun h => h (by omega)⟩
  have hn1 : (n : Int) ≠ 1 := by omega
  rw [← hcond, Inside, allocPages, if_neg hn1]
  constructor
  · rintro ⟨p, m', hal, -⟩
    by_contra hs
    rw [if_neg hs] at hal
    obtain ⟨m₁, hrun, -⟩ := bind_ok hal
    have := unlinkRun_bound (by omega) hrun
    omega
  · intro hs
    rw [if_pos hs]
    exact ⟨_, _, rfl, .inl rfl⟩

/-- Every request of one page or more. -/
theorem Booted.inside_iff (B : Booted m) {n : Nat} (hn : 1 ≤ n) (hlt : n < u64Size) :
    Inside m n ↔ n ≤ m.nrPageStructs ∨
      (0 < m.nrPageStructs → (m.page (.pg (m.nrPageStructs - 1))).isFree = false) := by
  rcases B with ⟨free, F⟩ | B
  · by_cases hle : n ≤ m.nrPageStructs
    · exact iff_of_true (F.inside_of_le hn hle) (.inl hle)
    · rw [or_iff_right hle]
      by_cases hone : n = 1
      · subst hone
        exact iff_of_true F.inside_one (by omega)
      · exact inside_too_many_iff (by omega) (by omega) hlt
  · refine iff_of_true ⟨_, _, B.allocPages_eq n, .inl rfl⟩ (.inr fun hpos => ?_)
    exact B.none_free _ (by omega)

/-- `k` calls of `AllocPage` in a row. -/
def allocMany : Nat → MemPages → Except Fault (List PageRef × MemPages)
  | 0, m => .ok ([], m)
  | k + 1, m => do
      let (p, m) ← m.allocPage
      let (ps, m) ← allocMany k m
      return (p :: ps, m)

/-- As many calls as pages are free return all pages but the last, and null. -/
theorem FreeList.allocMany_eq {l : List Nat} {i : Nat} (F : FreeList m (l ++ [i])) :
    ∃ m', allocMany (l.length + 1) m = .ok (l.map .pg ++ [.null], m') ∧ FreeList m' [i] := by
  induction l generalizing m with
  | nil =>
      have hnull := F.allocPage_null (by simp)
      exact ⟨m, by simp [allocMany, hnull], F⟩
  | cons j l ih =>
      obtain ⟨k, t, ht⟩ : ∃ k t, l ++ [i] = k :: t := by
        cases l with
        | nil => exact ⟨i, [], rfl⟩
        | cons a l => exact ⟨a, l ++ [i], rfl⟩
      rw [List.cons_append, ht] at F
      obtain ⟨m₁, hal, F₁, -⟩ := F.allocPage_pop
      rw [← ht] at F₁
      obtain ⟨m', hrest, F'⟩ := ih F₁
      refine ⟨m', ?_, F'⟩
      rw [List.length_cons, allocMany, hal]
      simp only [ok_bind, hrest]
      rfl

/-- `n` calls of `AllocPage` in a row all return a page, with the property `P`. -/
def Supplies (P : Nat → Prop) (m : MemPages) (n : Nat) : Prop :=
  ∃ (ps : List Nat) (m' : MemPages), allocMany n m = .ok (ps.map .pg, m') ∧ ∀ p ∈ ps, P p

section Supplies

variable {P : Nat → Prop}

theorem Supply.not_supplies_succ (S : Supply m free) (hlen : free.length ≤ 1) (n : Nat) :
    ¬ Supplies P m (n + 1) := by
  rintro ⟨ps, m', h, -⟩
  rw [allocMany, S.allocPage_null hlen, ok_bind] at h
  obtain ⟨⟨ps', m₁⟩, -, h⟩ := bind_ok h
  have hps := (Prod.mk.inj (Except.ok.inj h)).1
  have hmem : PageRef.null ∈ ps.map PageRef.pg := hps ▸ List.mem_cons_self
  simp at hmem

/-- A call that returns a page is followed by the others. -/
theorem supplies_succ_iff {m₁ : MemPages} {i : Nat} (h : m.allocPage = .ok (.pg i, m₁)) (n : Nat) :
    Supplies P m (n + 1) ↔ P i ∧ Supplies P m₁ n := by
  rw [Supplies, allocMany, h, ok_bind]
  constructor
  · rintro ⟨ps, m', h, hP⟩
    obtain ⟨⟨ps', m₂⟩, hrest, h⟩ := bind_ok h
    obtain ⟨hps, rfl⟩ := Prod.mk.inj (Except.ok.inj h)
    cases ps with
    | nil => cases hps
    | cons p ps =>
        rw [List.map_cons, List.cons.injEq, PageRef.pg.injEq] at hps
        obtain ⟨rfl, rfl⟩ := hps
        rw [List.forall_mem_cons] at hP
        exact ⟨hP.1, ps, m₂, hrest, hP.2⟩
  · rintro ⟨hi, ps, m', h, hP⟩
    refine ⟨i :: ps, m', ?_, List.forall_mem_cons.mpr ⟨hi, hP⟩⟩
    simp only [h]
    rfl

theorem Supply.supplies_iff (S : Supply m free) (n : Nat) :
    Supplies P m n ↔ (n = 0 ∨ n < free.length) ∧ ∀ p ∈ free.take n, P p := by
  induction n generalizing m free with
  | zero => exact iff_of_true ⟨[], m, rfl, nofun⟩ ⟨.inl rfl, nofun⟩
  | succ n ih =>
      match free, S with
      | [], S => exact iff_of_false (S.not_supplies_succ (by simp) n) (by simp)
      | [i], S => exact iff_of_false (S.not_supplies_succ (by simp) n) (by simp)
      | i :: j :: t, S =>
          obtain ⟨m₁, hal, S₁, -⟩ := S.allocPage_pop
          rw [supplies_succ_iff hal, ih S₁, List.take_succ_cons, List.forall_mem_cons]
          simp only [List.length_cons]
          have hlen : n = 0 ∨ n < t.length + 1 ↔ n + 1 = 0 ∨ n + 1 < t.length + 1 + 1 := by omega
          rw [hlen]
          exact and_left_comm

end Supplies

theorem FreeList.onFreeList_iff (F : FreeList m free) (p : Nat) : m.OnFreeList p ↔ p ∈ free := by
  constructor
  · intro h
    induction h with
    | first hp =>
        have hmem := F.ring.next_mem List.mem_cons_self
        rw [hp] at hmem
        simpa using hmem
    | @after q r _ hr ih =>
        have hmem := F.ring.next_mem (n := .pg q) (by simpa using ih)
        rw [hr] at hmem
        simpa using hmem
  · exact F.supply.forward.onFreeList (fun p hp => .first hp) p

theorem Bare.not_onFreeList (B : Bare m) (p : Nat) : ¬ m.OnFreeList p := by
  intro h
  induction h with
  | first hp =>
      rw [B.next_head] at hp
      cases hp
  | after _ _ ih => exact ih

/-- The pages on the free list, in some order. -/
structure Lists (m : MemPages) (free : List Nat) : Prop where
  nodup : free.Nodup
  mem_iff : ∀ p, p ∈ free ↔ m.OnFreeList p

/-- As many calls of `AllocPage` as pages are on the list return those pages, and
the next returns null. -/
def HandsOutAll (m : MemPages) (free : List Nat) : Prop :=
  ∃ (ps : List Nat) (m' : MemPages), allocMany free.length m = .ok (ps.map .pg, m') ∧
    ps.Perm free ∧ m'.allocPage = .ok (.null, m')

theorem Booted.handsOutAll_iff (B : Booted m) (L : Lists m free) :
    HandsOutAll m free ↔ free = [] := by
  rcases B with ⟨free', F⟩ | B
  · have hperm : free.Perm free' := by
      rw [List.perm_ext_iff_of_nodup L.nodup F.nodup]
      intro p
      rw [L.mem_iff, F.onFreeList_iff]
    rw [HandsOutAll, hperm.length_eq]
    rcases List.eq_nil_or_concat' free' with rfl | ⟨l, i, rfl⟩
    · obtain rfl := hperm.eq_nil
      exact iff_of_true ⟨[], m, rfl, .nil, F.allocPage_null (by simp)⟩ rfl
    · refine iff_of_false ?_ ?_
      · rintro ⟨ps, m', hal, -, -⟩
        obtain ⟨m₁, hall, -⟩ := F.allocMany_eq
        rw [List.length_append, List.length_singleton, hall] at hal
        have hnull : PageRef.null ∈ ps.map PageRef.pg := by
          rw [← (Prod.mk.inj (Except.ok.inj hal)).1]
          simp
        simp at hnull
      · rintro rfl
        simp at hperm
  · have hnil : free = [] :=
      List.eq_nil_iff_forall_not_mem.mpr fun p hp => B.not_onFreeList p ((L.mem_iff p).mp hp)
    subst hnil
    exact iff_of_true ⟨[], m, rfl, .nil, B.allocPage_eq⟩ rfl

end MemPages

namespace PageWorld

variable {m : MemPages} {w : PageWorld}

theorem reachable_start (m : MemPages) : Reachable m ⟨m, []⟩ := .start

/-- With nothing free, no call changes anything. -/
theorem Reachable.eq_of_bare (B : MemPages.Bare m) (h : Reachable m w) : w = ⟨m, []⟩ := by
  refine Reach.inv (I := fun w => w = ⟨m, []⟩) rfl ?_ h
  rintro s o s' rfl ha hs
  cases o with
  | allocPage =>
      rw [step, B.allocPage_eq] at hs
      exact (Except.ok.inj hs).symm
  | freePage i => cases ha
  | allocPages n =>
      rw [step, B.allocPages_eq] at hs
      exact (Except.ok.inj hs).symm
  | freePages i n =>
      have hn : n.toNat = 0 := by
        by_contra hn
        cases ha i (Nat.le_refl i) (by omega)
      have hn1 : n ≠ 1 := by omega
      rw [step, MemPages.freePages, if_neg hn1, hn] at hs
      exact (Except.ok.inj hs).symm

theorem Reachable.booted (B : MemPages.Booted m) (h : Reachable m w) : MemPages.Booted w.mem := by
  rcases B with ⟨free, F⟩ | B
  · obtain ⟨free', I⟩ := h.inv F
    exact .inl ⟨free', I.list⟩
  · rw [h.eq_of_bare B]
    exact .inr B

/-- `AllocPages` takes the first run of free pages from the list and nothing
else, and changes nothing if there is none. -/
theorem allocPages_first_fit (B : MemPages.Booted m) (hw : Reachable m w) {n : Nat} (hn : 2 ≤ n)
    (hle : n ≤ w.mem.nrPageStructs) :
    (∀ s, MemPages.IsRun w.mem n s → (∀ s' < s, ¬ MemPages.IsRun w.mem n s') →
      ∃ free m', MemPages.FreeList w.mem free ∧ w.mem.allocPages n = .ok (.pg s, m') ∧
        MemPages.FreeList m' (free.filter fun k => ¬ (s ≤ k ∧ k < s + n)) ∧
        MemPages.Flagged w.mem m' (List.range' s n) false) ∧
      ((∀ s, ¬ MemPages.IsRun w.mem n s) → w.mem.allocPages n = .ok (.null, w.mem)) := by
  rcases hw.booted B with ⟨free, F⟩ | B
  · refine ⟨fun s hrun hfirst => ?_, F.allocPages_null hn hle⟩
    obtain ⟨m', hal, F', hf⟩ := F.allocPages_run hn hle hrun hfirst
    exact ⟨free, m', F, hal, F', hf⟩
  · exact ⟨fun s hrun => absurd hrun (B.not_isRun (by omega)), fun _ => B.allocPages_eq n⟩

theorem allocPages_first_fit_smallMap :
    ∃ m, MemPages.init smallImage smallMap {} = .ok m ∧
      ∃ free m', m.allocPages 2 = .ok (.pg 1, m') ∧ MemPages.FreeList m' free := by
  obtain ⟨m, -, -, hinit, -, hnr⟩ := MemPages.init_aligned smallImage smallMap_aligned
  have hfree : okAnd (MemPages.init smallImage smallMap {}) (fun m =>
      m.nrPageStructs == 4 && (m.page (.pg 1)).isFree && (m.page (.pg 2)).isFree &&
        !(m.page (.pg 0)).isFree) = true := by decide
  simp only [hinit, okAnd_ok, Bool.and_eq_true, beq_iff_eq, Bool.not_eq_true'] at hfree
  obtain ⟨⟨⟨hnr, h₁⟩, h₂⟩, h₀⟩ := hfree
  have hfit := allocPages_first_fit (n := 2)
    (MemPages.init_booted hinit (MemPages.visits_pages_nodup smallMap_aligned))
    (reachable_start m) (by decide) (by simp [hnr])
  obtain ⟨free, m', -, hal, F, -⟩ := hfit.1 1 ⟨by simp [hnr], fun k hk₁ hk₂ => by
      obtain rfl | rfl : k = 1 ∨ k = 2 := by omega
      · exact h₁
      · exact h₂⟩ fun s' hs' hrun => by
    obtain rfl : s' = 0 := by omega
    have := hrun.2 0 (by omega) (by omega)
    rw [h₀] at this
    cases this
  exact ⟨m, hinit, _, m', hal, F⟩

/-- Two available entries that share page 1. -/
def sharedMap : List MmapEntry := [.ofWords 0x1000 0x800 1, .ofWords 0x1800 0x2800 1]

/-- Where `Init` visits a page twice, the first page is linked to itself. A request for two
pages returns it and leaves it on the list, and the next request returns it again. -/
theorem allocPages_keeps_shared :
    ∃ m m' m'', MemPages.init smallImage sharedMap {} = .ok m ∧
      ¬ ((MemPages.visits sharedMap).map pgnum).Nodup ∧
      m.allocPages 2 = .ok (.pg 1, m') ∧ m'.OnFreeList 1 ∧ m'.allocPage = .ok (.pg 1, m'') := by
  obtain ⟨m, hinit, hrun⟩ := exists_of_okAnd (x := MemPages.init smallImage sharedMap {})
    (p := fun m => okAnd (m.allocPages 2) fun r => r.1 == .pg 1 &&
      r.2.links.next .head == .pg 1 && okAnd r.2.allocPage fun r' => r'.1 == .pg 1)
    (by decide +kernel)
  obtain ⟨⟨p, m'⟩, halloc, hrun⟩ := exists_of_okAnd hrun
  simp only [Bool.and_eq_true, beq_iff_eq] at hrun
  obtain ⟨⟨rfl, hhead⟩, hnext⟩ := hrun
  obtain ⟨⟨q, m''⟩, hnext, hq⟩ := exists_of_okAnd hnext
  obtain rfl : q = .pg 1 := beq_iff_eq.mp hq
  exact ⟨m, m', m'', hinit, by decide, halloc, .first hhead, hnext⟩

/-- In every reachable state a large `kernel::Alloc` asks for pages inside the
page array, unless it asks for more than there are and the last page is free. -/
theorem allocPages_inside_iff (B : MemPages.Booted m) (hw : Reachable m w) (objSize : Int)
    (hlarge : 2048 < objSize) (hint : objSize < 2 ^ 31) :
    MemPages.Inside w.mem ((objSize - 1).tdiv pageSize + 1) ↔
      (objSize - 1).tdiv pageSize + 1 ≤ w.mem.nrPageStructs ∨
        (0 < w.mem.nrPageStructs →
          (w.mem.page (.pg (w.mem.nrPageStructs - 1))).isFree = false) := by
  obtain ⟨k, hk⟩ := Int.eq_ofNat_of_zero_le (show 0 ≤ objSize - 1 by omega)
  have hdiv : (objSize - 1).tdiv pageSize + 1 = ((k / pageSize + 1 : Nat) : Int) := by
    rw [hk, ← Int.ofNat_tdiv]
    rfl
  have hlt : k / pageSize + 1 < u64Size := by
    simp only [pageSize, u64Size]
    omega
  rw [hdiv, (hw.booted B).inside_iff (Nat.succ_pos _) hlt]
  norm_cast

theorem allocPages_inside_iff_line :
    MemPages.Inside (MemPages.line 2) ((8192 - 1 : Int).tdiv pageSize + 1) :=
  (allocPages_inside_iff (.inl ⟨_, MemPages.line_freeList (by decide)⟩)
    (reachable_start (MemPages.line 2)) 8192 (by decide) (by decide)).mpr
    (.inl (by decide))

/-- On `smallMap` four pages have a record and the last is free. A request for
five pages goes on behind the last record. -/
theorem allocPages_past_array :
    ∃ m, MemPages.init smallImage smallMap {} = .ok m ∧ m.nrPageStructs = 4 ∧
      (m.page (.pg 3)).isFree = true ∧
      ∃ e, m.allocPages ((20480 - 1 : Int).tdiv pageSize + 1) = .error e ∧ e = .outOfBounds := by
  obtain ⟨m, hinit, hrun⟩ := exists_of_okAnd (x := MemPages.init smallImage smallMap {})
    (p := fun m => m.nrPageStructs == 4 && (m.page (.pg 3)).isFree &&
      faults (m.allocPages ((20480 - 1 : Int).tdiv pageSize + 1)) .outOfBounds)
    (by decide +kernel)
  simp only [Bool.and_eq_true, beq_iff_eq] at hrun
  obtain ⟨⟨hnr, hfree⟩, hfault⟩ := hrun
  exact ⟨m, hinit, hnr, hfree, .outOfBounds, eq_of_faults hfault, rfl⟩

/-- In every reachable state the pages on the free list can all be handed out
one by one exactly if there is none. -/
theorem handsOutAll_iff_empty (B : MemPages.Booted m) (hw : Reachable m w) (free : List Nat)
    (L : MemPages.Lists w.mem free) : MemPages.HandsOutAll w.mem free ↔ free = [] :=
  (hw.booted B).handsOutAll_iff L

theorem handsOutAll_iff_empty_reserved : MemPages.HandsOutAll (MemPages.reserved 3) [] :=
  (handsOutAll_iff_empty (.inl ⟨_, MemPages.reserved_freeList (by decide)⟩)
    (reachable_start (MemPages.reserved 3)) []
    ⟨.nil, fun p => ((MemPages.reserved_freeList (by decide)).onFreeList_iff p).symm⟩).mpr rfl

/-- A machine with a single free page. -/
def onePageMap : List MmapEntry := [.ofWords 0x1000 0x1000 1]

/-- With one page on the list `AllocPage` returns null. -/
theorem allocPage_keeps_last :
    ∃ m, MemPages.init smallImage onePageMap {} = .ok m ∧ MemPages.Lists m [1] ∧
      m.allocPage = .ok (.null, m) := by
  obtain ⟨m, hinit⟩ : ∃ m, MemPages.init smallImage onePageMap {} = .ok m := ⟨_, rfl⟩
  have hfirst : m.links.next .head = .pg 1 := by cases hinit; rfl
  have hlast : m.links.next (.pg 1) = .head := by cases hinit; rfl
  have hprev : m.links.prev .head = .pg 1 := by cases hinit; rfl
  refine ⟨m, hinit, ⟨List.nodup_singleton 1, fun p => ⟨fun hp => ?_, fun hp => ?_⟩⟩, ?_⟩
  · rw [List.mem_singleton.mp hp]
    exact .first hfirst
  · induction hp with
    | first hp =>
        rw [hfirst] at hp
        cases hp
        exact List.mem_singleton_self 1
    | after _ hq ih =>
        rw [List.mem_singleton.mp ih, hlast] at hq
        cases hq
  · rw [MemPages.allocPage, hfirst, hprev, if_pos rfl]

end PageWorld

end Chestnut
