import Chestnut.Pages.Runs
import Chestnut.Pages.Supply

/-!
# The pages that are free at boot

`CollectAvailable` steps through an available entry from its first byte and
takes the page around every address it visits, also where the entry starts or
ends inside that page. The page array is sized by a floor division, so an
entry that ends inside a page may be walked past the array. `Init` leaves only
usable pages on the free list exactly when every address it visits has a page
in the array, and is either caught by the test on the reserved range or lies in
a page that the entry fills and the reserved range does not meet.
-/

namespace Chestnut

open Lib

namespace MmapEntry

/-- The whole page `p` belongs to the entry. -/
def Contains (e : MmapEntry) (p : Nat) : Prop :=
  e.addr ≤ pageSize * p ∧ pageSize * p + pageSize ≤ e.addr + e.len

theorem Contains.covers {e : MmapEntry} {a : Nat} (h : e.Contains (pgnum a)) : e.Covers a := by
  simp only [Contains, Covers, pgnum, pageSize] at h ⊢
  omega

theorem covers_of_mem_visits {e : MmapEntry} {a : Nat} (h : a ∈ e.visits) : e.Covers a := by
  obtain ⟨k, hk, hlt⟩ := mem_visits.mp h
  exact covers_of_lt_stop (by omega) hlt

end MmapEntry

/-- The byte `a` belongs to the kernel image, the boot data or an array of `nr`
page records. -/
def KernelImage.Occupies (img : KernelImage) (nr a : Nat) : Prop :=
  img.kstartPg ≤ a ∧ a < img.kendPg + sizeofPage * nr

namespace MemPages

variable {img : KernelImage} {es : List MmapEntry} {m : MemPages}

/-- The page `p` meets nothing the kernel occupies. -/
def Clear (img : KernelImage) (nr p : Nat) : Prop := ∀ a, pgnum a = p → ¬ img.Occupies nr a

/-- The page `p` lies wholly inside one available entry, clear of the kernel. -/
def Usable (img : KernelImage) (es : List MmapEntry) (nr p : Nat) : Prop :=
  (∃ e ∈ es, e.available = true ∧ e.Contains p) ∧ Clear img nr p

/-- What an entry must satisfy at an address the walk visits. -/
def WellVisited (img : KernelImage) (nr : Nat) (e : MmapEntry) (a : Nat) : Prop :=
  pgnum a < nr ∧ (kernelReserved img { nrPageStructs := nr } a = true ∨
    e.Contains (pgnum a) ∧ Clear img nr (pgnum a))

/-- The walk returns if it stays inside the page array. -/
theorem collectFold_returns (img : KernelImage) {ps : List Nat} (last : PageRef)
    (h : ∀ a ∈ ps, pgnum a < m.nrPageStructs) : ∃ r, collectFold img ps m last = .ok r := by
  induction ps generalizing m last with
  | nil => exact ⟨(m, last), rfl⟩
  | cons p ps ih =>
      obtain ⟨⟨m₁, last₁⟩, hstep⟩ : ∃ r, collectPage img p m last = .ok r := by
        rw [collectPage, decide_eq_true (h p List.mem_cons_self)]
        simp only [kassert_true, ok_bind]
        split
        · exact ⟨_, rfl⟩
        · exact ⟨_, rfl⟩
      have hone : collectFold img [p] m last = .ok (m₁, last₁) := by
        rw [collectFold, hstep]
        rfl
      obtain ⟨-, hnr, -⟩ := collectFold_bounded hone
      obtain ⟨r, hr⟩ := @ih m₁ last₁ fun a ha => by
        rw [hnr]
        exact h a (List.mem_cons_of_mem p ha)
      refine ⟨r, ?_⟩
      rw [collectFold, hstep]
      exact hr

/-- `Init` returns exactly if every visited page is in the array. -/
theorem init_returns_iff (img : KernelImage) (es : List MmapEntry) :
    (∃ m, init img es {} = .ok m) ↔ ∀ a ∈ visits es, pgnum a < maxKernMem es / pageSize := by
  constructor
  · rintro ⟨m, hm⟩ a ha
    obtain ⟨-, -, hin, hnr, -⟩ := init_strung hm
    rw [← hnr]
    exact hin a ha
  · intro h
    obtain ⟨m₀, hinit, hnr, -⟩ := init_eq img es
    obtain ⟨r, hr⟩ := collectFold_returns (m := m₀.clearPages) img .head
      fun a ha => (h a ha).trans_eq hnr.symm
    exact ⟨r.1, by rw [hinit, hr]; rfl⟩

/-- Appended pages stay on the chain, up to a page that is appended twice. -/
theorem exists_mem_foldl_restring {Bad : Nat → Prop} {l : List Nat} (free : List Nat)
    (hpair : l.Pairwise fun p q => p = q → Bad q) (hold : ∀ p ∈ l, p ∈ free → Bad p)
    (h : ∃ p, (p ∈ free ∨ p ∈ l) ∧ Bad p) : ∃ p ∈ l.foldl restring free, Bad p := by
  induction l generalizing free with
  | nil =>
      obtain ⟨p, hp | hp, hbad⟩ := h
      · exact ⟨p, hp, hbad⟩
      · cases hp
  | cons q l ih =>
      obtain ⟨hq, hl⟩ := List.pairwise_cons.mp hpair
      refine ih _ hl (fun p hp hmem => ?_) ?_
      · rcases mem_restring hmem with hmem | rfl
        · exact hold p (List.mem_cons_of_mem q hp) hmem
        · exact hq p hp rfl
      · have hself : q ∈ restring free q := List.mem_append_right _ List.mem_cons_self
        by_cases hmem : q ∈ free
        · exact ⟨q, .inl hself, hold q List.mem_cons_self hmem⟩
        · obtain ⟨p, hp, hbad⟩ := h
          refine ⟨p, ?_, hbad⟩
          rw [restring_of_not_mem hmem]
          rcases hp with hp | hp
          · exact .inl (List.mem_append_left _ hp)
          · rcases List.mem_cons.mp hp with rfl | hp
            · exact .inl (by simp)
            · exact .inr hp

section Disjoint

variable (hd : es.Pairwise fun e e' => ∀ a, e.Covers a → ¬ e'.Covers a)

include hd

/-- Of disjoint entries only one covers an address. -/
theorem eq_of_covers {e e' : MmapEntry} {a : Nat} (he : e ∈ es) (he' : e' ∈ es)
    (h : e.Covers a) (h' : e'.Covers a) : e = e' := by
  by_contra hne
  have hsymm : Std.Symm fun e e' : MmapEntry => ∀ a, e.Covers a → ¬ e'.Covers a :=
    ⟨fun _ _ hab b hb hb' => hab b hb' hb⟩
  exact hd.forall he he' hne a h h'

/-- A page that is visited twice lies in no single entry. -/
theorem visits_pairwise : (visits es).Pairwise fun a b =>
    pgnum a = pgnum b → ∀ e ∈ es, ¬ e.Contains (pgnum b) := by
  rw [visits, List.pairwise_flatMap]
  refine ⟨fun e _ => ?_, ?_⟩
  · -- one entry visits addresses a page or more apart
    rw [MmapEntry.visits, List.pairwise_map]
    refine (List.pairwise_lt_range).imp ?_
    intro i j hij heq
    simp only [pgnum, pageSize] at heq
    omega
  · refine (hd.filter _).imp_of_mem fun {e e'} he _ hdis a ha b hb heq c hc hcon => ?_
    have hca : c.Covers a := by
      rw [← heq] at hcon
      exact hcon.covers
    obtain rfl := eq_of_covers hd hc (List.mem_filter.mp he).1 hca
      (MmapEntry.covers_of_mem_visits ha)
    exact hdis b hcon.covers (MmapEntry.covers_of_mem_visits hb)

/-- A visited page is usable only through the entry that visits it. -/
theorem usable_iff {e : MmapEntry} {a nr : Nat} (he : e ∈ es) (hc : e.collected = true)
    (ha : a ∈ e.visits) :
    Usable img es nr (pgnum a) ↔ e.Contains (pgnum a) ∧ Clear img nr (pgnum a) := by
  refine and_congr_left fun _ => ⟨?_, fun hcon => ⟨e, he, ?_, hcon⟩⟩
  · rintro ⟨e', he', -, hcon⟩
    obtain rfl := eq_of_covers hd he' he hcon.covers (MmapEntry.covers_of_mem_visits ha)
    exact hcon
  · simp only [MmapEntry.collected, Bool.and_eq_true] at hc
    exact hc.1

/-- The pages left on the list are usable exactly if all appended ones are. -/
theorem forall_listed_iff (nr : Nat) :
    (∀ p ∈ (freed img m (visits es)).foldl restring [], Usable img es nr p) ↔
      ∀ p ∈ freed img m (visits es), Usable img es nr p := by
  constructor
  · intro h p hp
    by_contra hbad
    have hpair : (freed img m (visits es)).Pairwise fun p q => p = q → ¬ Usable img es nr q := by
      rw [freed, List.pairwise_map]
      refine ((visits_pairwise hd).filter _).imp fun hab heq => ?_
      rintro ⟨⟨e, he, -, hcon⟩, -⟩
      exact hab heq e he hcon
    obtain ⟨q, hq, hqbad⟩ := exists_mem_foldl_restring [] hpair
      (fun _ _ h => absurd h List.not_mem_nil) ⟨p, .inr hp, hbad⟩
    exact hqbad (h q hq)
  · intro h p hp
    exact h p ((mem_foldl_restring hp).resolve_left List.not_mem_nil)

/-- Entries of whole pages are well visited, unless the end of the page array
wraps. -/
theorem wellVisited_of_aligned
    (hend : img.kendPg + sizeofPage * (maxKernMem es / pageSize) < u64Size)
    (hal : ∀ e ∈ es, e.available = true → e.addr % pageSize = 0 ∧ e.len % pageSize = 0)
    {e : MmapEntry} {a : Nat} (he : e ∈ es) (hc : e.collected = true) (ha : a ∈ e.visits) :
    WellVisited img (maxKernMem es / pageSize) e a := by
  refine ⟨pgnum_lt_of_visit ⟨hal, hd.filter _⟩ (mem_visits.mpr ⟨e, he, hc, ha⟩), ?_⟩
  have hav : e.available = true := by
    simp only [MmapEntry.collected, Bool.and_eq_true] at hc
    exact hc.1
  obtain ⟨haddr, hlen⟩ := hal e he hav
  have hcov := MmapEntry.covers_of_mem_visits ha
  obtain ⟨k, hk, -⟩ := MmapEntry.mem_visits.mp ha
  generalize maxKernMem es / pageSize = nr at *
  by_cases hres : kernelReserved img { nrPageStructs := nr } a = true
  · exact .inl hres
  · have hlow : ¬ (img.kstartPg ≤ a ∧ a < img.kendPg + sizeofPage * nr) := by
      have htot : sizeofPage * nr % u64Size = sizeofPage * nr := Nat.mod_eq_of_lt (by omega)
      simp only [kernelReserved, structTotSz, htot, Nat.mod_eq_of_lt hend, Bool.and_eq_true,
        decide_eq_true_eq] at hres
      exact hres
    refine .inr ⟨?_, fun b hb hocc => hlow ⟨?_, ?_⟩⟩
    · simp only [MmapEntry.Contains, MmapEntry.Covers, pgnum, pageSize] at *
      omega
    · have hstart := hocc.1
      simp only [KernelImage.kstartPg, pg, pgnum, pageSize] at *
      omega
    · have hstop := hocc.2
      simp only [pgnum, pageSize] at hb haddr hk
      omega

/-- What the free list that `Init` leaves behind says about the visited addresses. -/
theorem init_usable_iff (h : init img es {} = .ok m) :
    (∀ p, m.OnFreeList p → Usable img es m.nrPageStructs p) ↔
      ∀ e ∈ es, e.collected = true → ∀ a ∈ e.visits,
        WellVisited img (maxKernMem es / pageSize) e a := by
  obtain ⟨last, S, hin, hnr, -⟩ := init_strung h
  simp only [S.onFreeList_iff]
  rw [forall_listed_iff hd, ← hnr]
  constructor
  · intro h e he hc a ha
    have hmem : a ∈ visits es := mem_visits.mpr ⟨e, he, hc, ha⟩
    refine ⟨hin a hmem, ?_⟩
    cases hres : m.kernelReserved img a with
    | true => exact .inl hres
    | false => exact .inr ((usable_iff hd he hc ha).mp (h _ (mem_freed.mpr ⟨a, hmem, hres, rfl⟩)))
  · intro h p hp
    obtain ⟨a, hmem, hres, rfl⟩ := mem_freed.mp hp
    obtain ⟨e, he, hc, hv⟩ := mem_visits.mp hmem
    rw [usable_iff hd he hc hv]
    exact (h e he hc a hv).2.resolve_left fun hr => nomatch hr.symm.trans hres

/-- On disjoint entries `Init` returns with only usable pages on the free list
exactly if every visited address is well visited. Entries of whole pages are
enough, as long as the end of the page array does not wrap. -/
theorem only_usable_iff (img : KernelImage) :
    ((∃ m, init img es {} = .ok m ∧ ∀ p, m.OnFreeList p → Usable img es m.nrPageStructs p) ↔
      ∀ e ∈ es, e.collected = true → ∀ a ∈ e.visits,
        WellVisited img (maxKernMem es / pageSize) e a) ∧
    (img.kendPg + sizeofPage * (maxKernMem es / pageSize) < u64Size →
      (∀ e ∈ es, e.available = true → e.addr % pageSize = 0 ∧ e.len % pageSize = 0) →
      ∀ e ∈ es, e.collected = true → ∀ a ∈ e.visits,
        WellVisited img (maxKernMem es / pageSize) e a) := by
  refine ⟨?_, fun hend hal e he hc a ha => wellVisited_of_aligned hd hend hal he hc ha⟩
  constructor
  · rintro ⟨m, hm, hfree⟩
    exact (init_usable_iff hd hm).mp hfree
  · intro h
    obtain ⟨m, hm⟩ := (init_returns_iff img es).mpr fun a ha => by
      obtain ⟨e, he, hc, hv⟩ := mem_visits.mp ha
      exact (h e he hc a hv).1
    exact ⟨m, hm, (init_usable_iff hd hm).mpr h⟩

end Disjoint

theorem smallMap_disjoint :
    PageWorld.smallMap.Pairwise fun e e' => ∀ a, e.Covers a → ¬ e'.Covers a :=
  MmapEntry.disjoint_of_bounds (by decide)

theorem only_usable_iff_smallMap :
    ∃ m, init PageWorld.smallImage PageWorld.smallMap {} = .ok m ∧
      ∀ p, m.OnFreeList p →
        Usable PageWorld.smallImage PageWorld.smallMap m.nrPageStructs p := by
  obtain ⟨hiff, haligned⟩ := only_usable_iff smallMap_disjoint PageWorld.smallImage
  exact hiff.mpr (haligned (by decide) PageWorld.smallMap_aligned.aligned)

/-- Available memory that starts in the middle of page 1. -/
def raggedStart : List MmapEntry := [.ofWords 0x1800 0x4000 1]

/-- Available memory that ends in the middle of page 5. -/
def raggedEnd : List MmapEntry := [.ofWords 0x1000 0x4800 1]

/-- Half of page 1 becomes free, and the walk of the other map runs into its
assertion. -/
theorem ragged_not_usable :
    (∃ m, init PageWorld.smallImage raggedStart {} = .ok m ∧ m.OnFreeList 1 ∧
      ¬ Usable PageWorld.smallImage raggedStart m.nrPageStructs 1) ∧
    ∃ e, init PageWorld.smallImage raggedEnd {} = .error e ∧
      e = .panic "Assertion Error on PGNUM(paddr) < nr_page_structs" := by
  constructor
  · obtain ⟨m, hinit⟩ : ∃ m, init PageWorld.smallImage raggedStart {} = .ok m := ⟨_, rfl⟩
    refine ⟨m, hinit, .first (by cases hinit; rfl), ?_⟩
    rintro ⟨⟨e, he, -, hcon⟩, -⟩
    obtain rfl := List.mem_singleton.mp he
    exact absurd hcon.1 (by decide)
  · exact ⟨_, rfl, rfl⟩

end MemPages

end Chestnut
