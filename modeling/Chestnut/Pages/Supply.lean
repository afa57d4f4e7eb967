import Chestnut.Pages.Boot
import Mathlib.Data.List.TakeWhile

/-!
# The pages `AllocPage` can hand out

`AllocPage` reads only the forward links of the free list and the backward
link of `page_head`. What it relies on is therefore weaker than a well-formed
list: a forward chain of distinct pages that ends in the page `page_head`
points back to. `Init` leaves such a chain behind on every memory map on which
it returns, also where two available entries share a page and the backward
links or the end of the list are wrong.
-/

namespace Chestnut

open Lib

namespace MemPages

/-- The list that `page_head` starts, followed through the forward links. -/
inductive OnFreeList (m : MemPages) : Nat → Prop
  | first {p : Nat} : m.links.next .head = .pg p → OnFreeList m p
  | after {p q : Nat} : OnFreeList m p → m.links.next (.pg p) = .pg q → OnFreeList m q

/-- The forward links lead through the listed nodes. -/
def Forward (next : PageRef → PageRef) (l : List PageRef) : Prop :=
  l.IsChain fun a b => next a = b

theorem Forward.transport {f g : PageRef → PageRef} {l : List PageRef} (h : Forward f l)
    (hfg : ∀ a ∈ l.dropLast, g a = f a) : Forward g l := by
  induction l with
  | nil => exact List.isChain_nil
  | cons a l ih =>
      cases l with
      | nil => exact List.isChain_singleton a
      | cons b l =>
          obtain ⟨hab, hbl⟩ := List.isChain_cons_cons.mp h
          refine List.isChain_cons_cons.mpr ⟨?_, ih hbl fun c hc => hfg c (by simp [hc])⟩
          rw [hfg a (by simp)]
          exact hab

/-- A chain can be cut behind any of its nodes. -/
theorem Forward.cut {f : PageRef → PageRef} {l r : List PageRef} {a : PageRef}
    (h : Forward f (l ++ a :: r)) : Forward f (l ++ [a]) ∧ Forward f (a :: r) :=
  List.isChain_split.mp h

/-- Every page of a chain that starts on the list is on the list. -/
theorem Forward.onFreeList {m : MemPages} {free : List Nat} {start : PageRef}
    (h : Forward m.links.next (start :: free.map .pg))
    (hstart : ∀ p, m.links.next start = .pg p → m.OnFreeList p) : ∀ p ∈ free, m.OnFreeList p := by
  induction free generalizing start with
  | nil => exact nofun
  | cons i t ih =>
      obtain ⟨hi, ht⟩ := List.isChain_cons_cons.mp h
      have hon := hstart i hi
      intro p hp
      rcases List.mem_cons.mp hp with rfl | hp
      · exact hon
      · exact ih ht (fun q hq => .after hon hq) p hp

/-- What a run of `AllocPage` calls needs of the page allocator. -/
structure Supply (m : MemPages) (free : List Nat) : Prop where
  nodup : free.Nodup
  forward : Forward m.links.next (.head :: free.map .pg)
  prev_head : m.links.prev .head = (m.links.next .head :: free.map .pg).getLast (by simp)
  bounded : ∀ i ∈ free, i < m.nrPageStructs
  phyaddr_eq : ∀ i ∈ free, (m.page (.pg i)).phyaddr = pageSize * i

/-- A well-formed free list is a supply. -/
theorem FreeList.supply {m : MemPages} {free : List Nat} (F : FreeList m free) :
    Supply m free := by
  refine ⟨F.nodup, ?_, ?_, F.bounded, F.phyaddr_eq⟩
  · have hchain := F.ring.chain.left_of_append
    exact hchain.imp fun a b h => h.1
  · rw [F.ring.prev_head]
    cases free with
    | nil => simp [F.ring.next_head]
    | cons i t => simp

namespace Supply

variable {m : MemPages} {free : List Nat}

/-- `AllocPage` returns null on a chain of at most one page. -/
theorem allocPage_null (S : Supply m free) (hl : free.length ≤ 1) :
    m.allocPage = .ok (.null, m) := by
  have he : m.links.next .head = m.links.prev .head := by
    rw [S.prev_head]
    match free, hl with
    | [], _ => rfl
    | [i], _ => exact (List.isChain_cons_cons.mp S.forward).1
  simp [allocPage, he]

/-- On a longer chain it takes the first page. -/
theorem allocPage_pop {i j : Nat} {t : List Nat} (S : Supply m (i :: j :: t)) :
    ∃ m', m.allocPage = .ok (.pg i, m') ∧ Supply m' (j :: t) ∧ Flagged m m' [i] false := by
  obtain ⟨hi, hrest⟩ := List.isChain_cons_cons.mp S.forward
  obtain ⟨hj, hrest⟩ := List.isChain_cons_cons.mp hrest
  have hnot : i ∉ j :: t := (List.nodup_cons.mp S.nodup).1
  have hprev : m.links.prev .head = ((j :: t).map PageRef.pg).getLast (by simp) := S.prev_head
  have hne : m.links.next .head ≠ m.links.prev .head := by
    rw [hi, hprev]
    intro he
    have hmem := List.getLast_mem (l := (j :: t).map PageRef.pg) (by simp)
    rw [← he] at hmem
    exact hnot (by simpa using hmem)
  have hd₁ : m.deref (.pg i) = .ok () := deref_pg (S.bounded i (by simp))
  have hd₂ : (m.setNext .head (.pg j)).deref (.pg j) = .ok () := deref_pg (S.bounded j (by simp))
  let m₁ := (m.setNext .head (.pg j)).setPrev (.pg j) .head
  have hf : Flagged m (m₁.setFlags (.pg i) false) [i] false := setFlags_flagged rfl rfl rfl
  refine ⟨m₁.setFlags (.pg i) false, ?_, ⟨(List.nodup_cons.mp S.nodup).2, ?_, ?_, ?_, ?_⟩, hf⟩
  · rw [allocPage, if_neg hne]
    simp [hi, hj, hd₁, hd₂, m₁]
  · refine List.isChain_cons_cons.mpr ⟨by simp [m₁], Forward.transport hrest ?_⟩
    intro a ha
    have hmem := List.dropLast_subset _ ha
    have hah : a ≠ PageRef.head := by
      rintro rfl
      simp at hmem
    simp [m₁, hah]
  · have hhead : (m₁.setFlags (.pg i) false).links.prev .head = m.links.prev .head := by
      simp [m₁]
    rw [hhead, hprev]
    simp
  · intro k hk
    exact S.bounded k (List.mem_cons_of_mem _ hk)
  · intro k hk
    rw [hf.phyaddr_eq]
    exact S.phyaddr_eq k (List.mem_cons_of_mem _ hk)

end Supply

/-- The chain after one more page: a page that is on it already cuts off what
followed it. -/
def restring (free : List Nat) (p : Nat) : List Nat := free.takeWhile (· != p) ++ [p]

theorem restring_of_not_mem {free : List Nat} {p : Nat} (h : p ∉ free) :
    restring free p = free ++ [p] := by
  rw [restring, List.takeWhile_eq_self_iff.mpr]
  intro q hq
  simpa using fun he : q = p => h (he ▸ hq)

theorem restring_append {A B : List Nat} {p : Nat} (h : p ∉ A) :
    restring (A ++ p :: B) p = A ++ [p] := by
  have hA : ∀ q ∈ A, (q != p) = true := fun q hq => by
    simpa using fun he : q = p => h (he ▸ hq)
  rw [restring, List.takeWhile_append_of_pos hA]
  simp

theorem mem_restring {free : List Nat} {p q : Nat} (h : q ∈ restring free p) :
    q ∈ free ∨ q = p := by
  rcases List.mem_append.mp h with h | h
  · exact .inl (List.takeWhile_subset _ h)
  · exact .inr (List.mem_singleton.mp h)

theorem mem_foldl_restring {l free : List Nat} {q : Nat} (h : q ∈ l.foldl restring free) :
    q ∈ free ∨ q ∈ l := by
  induction l generalizing free with
  | nil => exact .inl h
  | cons p l ih =>
      rcases ih h with h | h
      · refine (mem_restring h).imp_right ?_
        rintro rfl
        exact List.mem_cons_self
      · exact .inr (List.mem_cons_of_mem p h)

/-- The chain while it is being built. Its last page may point to itself. -/
structure Strung (m : MemPages) (free : List Nat) (last : PageRef) : Prop where
  nodup : free.Nodup
  forward : Forward m.links.next (.head :: free.map .pg)
  last_eq : last = (PageRef.head :: free.map .pg).getLast (by simp)
  empty : free = [] → m.links.prev .head = m.links.next .head ∧ m.links.next .head = .null
  prev_head : free ≠ [] → m.links.prev .head = last
  close : free ≠ [] → m.links.next last = .head ∨ m.links.next last = last
  bounded : ∀ i ∈ free, i < m.nrPageStructs
  phyaddr_eq : ∀ i ∈ free, (m.page (.pg i)).phyaddr = pageSize * i

namespace Strung

variable {m : MemPages} {free : List Nat} {last : PageRef}

theorem supply (S : Strung m free last) : Supply m free := by
  refine ⟨S.nodup, S.forward, ?_, S.bounded, S.phyaddr_eq⟩
  cases free with
  | nil => exact (S.empty rfl).1
  | cons i t => rw [S.prev_head (by simp), S.last_eq]; simp

/-- Following the forward links visits the chain and nothing else. -/
theorem onFreeList_iff (S : Strung m free last) (p : Nat) : m.OnFreeList p ↔ p ∈ free := by
  refine ⟨?_, S.forward.onFreeList (fun p hp => .first hp) p⟩
  intro h
  induction h with
  | first hp =>
      cases free with
      | nil =>
          rw [(S.empty rfl).2] at hp
          cases hp
      | cons i t =>
          rw [(List.isChain_cons_cons.mp S.forward).1] at hp
          cases hp
          simp
  | @after p q _ hq ih =>
      obtain ⟨A, B, rfl⟩ := List.append_of_mem ih
      cases B with
      | nil =>
          have hlast : last = .pg p := by simp [S.last_eq]
          rcases S.close (by simp) with h | h
          · rw [hlast, hq] at h
            cases h
          · rw [hlast, hq] at h
            cases h
            exact ih
      | cons b B =>
          have hsplit : PageRef.head :: (A ++ p :: b :: B).map PageRef.pg =
              (.head :: A.map .pg) ++ .pg p :: .pg b :: B.map .pg := by simp
          have hforward := S.forward
          rw [hsplit] at hforward
          rw [(List.isChain_cons_cons.mp hforward.cut.2).1] at hq
          cases hq
          simp

theorem nodup_refs (S : Strung m free last) : (PageRef.head :: free.map .pg).Nodup := by
  refine List.nodup_cons.mpr ⟨by simp, S.nodup.map ?_⟩
  intro a b hab
  exact PageRef.pg.inj hab

theorem last_mem (S : Strung m free last) : last ∈ PageRef.head :: free.map .pg := by
  rw [S.last_eq]
  exact List.getLast_mem _

/-- Appending a page that is not on the chain extends it. -/
theorem append_new (S : Strung m free last) {p : Nat} (hp : p ∉ free) (hlt : p < m.nrPageStructs)
    (hphy : (m.page (.pg p)).phyaddr = pageSize * p) :
    Strung (m.appendFree (.pg p) last) (free ++ [p]) (.pg p) := by
  have hpl : PageRef.pg p ≠ last := by
    intro he
    have hmem := S.last_mem
    rw [← he] at hmem
    exact hp (by simpa using hmem)
  obtain ⟨l, hl⟩ : ∃ l, PageRef.head :: free.map PageRef.pg = l ++ [last] := by
    refine ⟨(PageRef.head :: free.map PageRef.pg).dropLast, ?_⟩
    rw [S.last_eq, List.dropLast_append_getLast]
  have hrefs : PageRef.head :: (free ++ [p]).map PageRef.pg = l ++ last :: [.pg p] := by
    rw [List.map_append, ← List.cons_append, hl]
    simp
  have hnd := S.nodup_refs
  rw [hl] at hnd
  refine ⟨?_, ?_, by simp, by simp, fun _ => by simp [appendFree_prev], fun _ => Or.inl ?_, ?_, ?_⟩
  · exact (List.perm_append_singleton _ _).nodup_iff.mpr (List.nodup_cons.mpr ⟨hp, S.nodup⟩)
  · rw [hrefs]
    refine List.isChain_split.mpr ⟨?_, List.isChain_pair.mpr (by simp [appendFree_next])⟩
    have hforward := S.forward
    rw [hl] at hforward
    refine Forward.transport hforward ?_
    intro a ha
    rw [List.dropLast_concat] at ha
    have hal : a ≠ last := fun e => List.disjoint_of_nodup_append hnd ha (by simp [e])
    have hap : a ≠ .pg p := by
      rintro rfl
      have hmem : PageRef.pg p ∈ PageRef.head :: free.map PageRef.pg := by simp [hl, ha]
      exact hp (by simpa using hmem)
    simp [appendFree_next, hal, hap]
  · simp [appendFree_next, hpl]
  · intro i hi
    rw [appendFree_nr]
    rcases List.mem_append.mp hi with h | h
    · exact S.bounded i h
    · rw [List.mem_singleton.mp h]
      exact hlt
  · intro i hi
    rw [appendFree_page]
    by_cases he : i = p
    · simp [he, hphy]
    · have hif : i ∈ free := by simpa [he] using hi
      simpa [he] using S.phyaddr_eq i hif

/-- Appending a page of the chain again cuts off what followed it. -/
theorem append_old {p : Nat} {A B : List Nat} (S : Strung m (A ++ p :: B) last) :
    Strung (m.appendFree (.pg p) last) (A ++ [p]) (.pg p) := by
  have hnd := S.nodup_refs
  have hsplit : PageRef.head :: (A ++ p :: B).map PageRef.pg =
      (.head :: A.map .pg) ++ .pg p :: B.map .pg := by simp
  have hlast : last ∈ PageRef.pg p :: B.map PageRef.pg := by
    rw [S.last_eq]
    simp only [hsplit, List.getLast_append_of_ne_nil _ (List.cons_ne_nil _ _)]
    exact List.getLast_mem _
  rw [hsplit] at hnd
  have hrefs : PageRef.head :: (A ++ [p]).map PageRef.pg =
      (.head :: A.map .pg) ++ [.pg p] := by simp
  have hsub : ∀ i ∈ A ++ [p], i ∈ A ++ p :: B := by
    intro i hi
    rw [List.append_cons]
    exact List.mem_append_left _ hi
  refine ⟨?_, ?_, by simp, by simp, fun _ => by simp [appendFree_prev], fun _ => ?_, ?_, ?_⟩
  · have := S.nodup
    rw [List.append_cons] at this
    exact this.of_append_left
  · rw [hrefs]
    have hforward := S.forward
    rw [hsplit] at hforward
    refine Forward.transport hforward.cut.1 ?_
    intro a ha
    rw [List.dropLast_concat] at ha
    have hdis := List.disjoint_of_nodup_append hnd ha
    have hal : a ≠ last := fun e => hdis (e ▸ hlast)
    have hap : a ≠ .pg p := fun e => hdis (by simp [e])
    simp [appendFree_next, hal, hap]
  · by_cases he : PageRef.pg p = last
    · right
      simp [appendFree_next, he]
    · left
      simp [appendFree_next, he]
  · intro i hi
    rw [appendFree_nr]
    exact S.bounded i (hsub i hi)
  · intro i hi
    have hphy := S.phyaddr_eq i (hsub i hi)
    rw [appendFree_page]
    by_cases he : i = p
    · subst he
      simpa using hphy
    · simpa [he] using hphy

/-- Changing flags, or the recorded address of a page to its own, keeps the chain. -/
theorem setPage (S : Strung m free last) (p : Nat) (r : Page)
    (hr : p ∈ free → r.phyaddr = pageSize * p) : Strung (m.setPage (.pg p) r) free last := by
  refine ⟨S.nodup, S.forward, S.last_eq, S.empty, S.prev_head, S.close, S.bounded, ?_⟩
  intro i hi
  by_cases he : i = p
  · subst he
    simpa [MemPages.setPage] using hr hi
  · simpa [MemPages.setPage, he] using S.phyaddr_eq i hi

/-- Appending a page, whether or not it is on the chain. -/
theorem append (S : Strung m free last) {p : Nat} (hlt : p < m.nrPageStructs)
    (hphy : (m.page (.pg p)).phyaddr = pageSize * p) :
    Strung (m.appendFree (.pg p) last) (restring free p) (.pg p) := by
  by_cases hmem : p ∈ free
  · obtain ⟨A, B, rfl, hA⟩ := List.eq_append_cons_of_mem hmem
    rw [restring_append hA]
    exact S.append_old
  · rw [restring_of_not_mem hmem]
    exact S.append_new hmem hlt hphy

/-- One visit of a page, whether or not it was visited before. -/
theorem collectPage (S : Strung m free last) {img : KernelImage} {p : Nat} {m' : MemPages}
    {last' : PageRef} (h : collectPage img p m last = .ok (m', last')) :
    Strung m' (if m.kernelReserved img p then free else restring free (pgnum p)) last' ∧
      m'.nrPageStructs = m.nrPageStructs := by
  obtain ⟨⟨⟩, hk, h⟩ := bind_ok h
  have hlt : pgnum p < m.nrPageStructs := by simpa [kassert_ok_iff] using hk
  have hpg : Chestnut.pg p = pageSize * pgnum p := Nat.mul_comm _ _
  obtain ⟨m₁, hm₁⟩ : ∃ m₁, m₁ =
    m.setPage (pageOf p) { m.page (pageOf p) with phyaddr := Chestnut.pg p } := ⟨_, rfl⟩
  have S₁ : Strung m₁ free last := hm₁ ▸ S.setPage _ _ fun _ => hpg
  have hphy : (m₁.page (.pg (pgnum p))).phyaddr = pageSize * pgnum p := by
    simp [hm₁, MemPages.setPage, pageOf, hpg]
  have hnr₁ : m₁.nrPageStructs = m.nrPageStructs := by simp [hm₁]
  have hres : m₁.kernelReserved img p = m.kernelReserved img p := by
    simp [kernelReserved, structTotSz, hnr₁]
  simp only [← hm₁, hres] at h
  cases hr : m.kernelReserved img p with
  | true =>
      rw [hr, if_pos rfl] at h
      obtain ⟨rfl, rfl⟩ := Prod.mk.inj (Except.ok.inj h)
      exact ⟨S₁.setPage _ _ fun _ => hphy, by simp [hnr₁]⟩
  | false =>
      rw [hr, if_neg Bool.false_ne_true] at h
      obtain ⟨rfl, rfl⟩ := Prod.mk.inj (Except.ok.inj h)
      exact ⟨S₁.append (hnr₁ ▸ hlt) hphy, by simp [hnr₁]⟩

/-- The whole walk appends the pages outside the reserved range, one by one. -/
theorem collectFold (S : Strung m free last) {img : KernelImage} {ps : List Nat} {m' : MemPages}
    {last' : PageRef} (h : collectFold img ps m last = .ok (m', last')) :
    Strung m' ((freed img m ps).foldl restring free) last' := by
  induction ps generalizing m free last with
  | nil =>
      cases h
      exact S
  | cons p ps ih =>
      obtain ⟨⟨m₁, last₁⟩, hstep, hrest⟩ := bind_ok h
      obtain ⟨S₁, hnr⟩ := S.collectPage hstep
      have S' := ih S₁ hrest
      rw [freed_congr hnr] at S'
      cases hr : m.kernelReserved img p with
      | true => simpa [freed, hr] using S'
      | false => simpa [freed, hr] using S'

end Strung

/-- The chain before the walk: `page_head` has the null links of static memory. -/
theorem clearPages_strung {m : MemPages} (hlinks : m.links = ({} : MemPages).links) :
    Strung m.clearPages [] .head := by
  refine ⟨List.nodup_nil, List.isChain_singleton _, rfl, fun _ => ?_, ?_, ?_, ?_, ?_⟩
  · simp [clearPages, hlinks]
  all_goals simp

theorem maxKernMem_le_maxStop (es : List MmapEntry) : maxKernMem es ≤ maxStop es := by
  have key : ∀ j k, j ≤ k →
      es.foldl (fun k e => if e.collected then max k e.stop else k) j ≤
        es.foldl (fun k e => max k e.stop) k := by
    induction es with
    | nil => exact fun _ _ h => h
    | cons e es ih =>
        intro j k hjk
        simp only [List.foldl_cons]
        apply ih
        split
        · exact max_le_max_right _ hjk
        · exact hjk.trans (le_max_left _ _)
  exact key 0 0 le_rfl

theorem maxStop_le_of_forall {es : List MmapEntry} {b : Nat} (h : ∀ e ∈ es, e.stop ≤ b) :
    maxStop es ≤ b := by
  have key : ∀ k ≤ b, es.foldl (fun k e => max k e.stop) k ≤ b := by
    induction es with
    | nil => exact fun _ hk => hk
    | cons e es ih =>
        intro k hk
        rw [List.foldl_cons]
        exact ih (fun e' he' => h e' (List.mem_cons_of_mem _ he')) _
          (max_le hk (h e List.mem_cons_self))
  exact key 0 (Nat.zero_le b)

/-- On every map on which `Init` returns, the chain is the pages outside the
reserved range, appended in the order of the walk. -/
theorem init_strung {img : KernelImage} {es : List MmapEntry} {m : MemPages}
    (h : init img es {} = .ok m) :
    ∃ last, Strung m ((freed img m (visits es)).foldl restring []) last ∧
      (∀ a ∈ visits es, pgnum a < m.nrPageStructs) ∧
      m.nrPageStructs = maxKernMem es / pageSize ∧ m.maxPhy = maxStop es := by
  obtain ⟨m₀, hinit, hnr, hmax, hlinks⟩ := init_eq img es
  rw [hinit] at h
  obtain ⟨⟨m', last⟩, hfold, hm⟩ := bind_ok h
  obtain rfl : m' = m := Except.ok.inj hm
  have S := (clearPages_strung hlinks).collectFold hfold
  obtain ⟨hin, hnr', hmax'⟩ := collectFold_bounded hfold
  rw [← freed_congr hnr'] at S
  exact ⟨last, S, fun a ha => (hin a ha).trans_eq hnr'.symm, hnr'.trans hnr, hmax'.trans hmax⟩

/-- On every map on which `Init` returns, the pages on the free list form a
supply, and each of them was visited. -/
theorem init_supply {img : KernelImage} {es : List MmapEntry} {m : MemPages}
    (h : init img es {} = .ok m) :
    ∃ free, Supply m free ∧ (∀ p, m.OnFreeList p ↔ p ∈ free) ∧
      (∀ p ∈ free, ∃ a ∈ visits es, p = pgnum a) ∧
      m.nrPageStructs ≤ maxStop es / pageSize ∧ m.maxPhy = maxStop es := by
  obtain ⟨last, S, -, hnr, hmax⟩ := init_strung h
  refine ⟨_, S.supply, S.onFreeList_iff, ?_, ?_, hmax⟩
  · intro p hp
    have hp' := (mem_foldl_restring hp).resolve_left List.not_mem_nil
    obtain ⟨a, ha, -, rfl⟩ := mem_freed.mp hp'
    exact ⟨a, ha, rfl⟩
  · rw [hnr]
    exact Nat.div_le_div_right (maxKernMem_le_maxStop es)

end MemPages

end Chestnut
