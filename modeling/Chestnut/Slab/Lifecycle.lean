import Chestnut.Slab.PageUse
import Chestnut.Slab.Slots

/-!
# Slabs coming and going

A new meta slab is a page whose slots become free headers. Any other new slab
is a held header together with a page. A meta slab that is reclaimed returns
its page; any other slab that is reclaimed returns its header only, and its
page is lost.
-/

namespace Chestnut

open Lib

section Parts

variable {use : Nat → PageUse} {page : Nat → Nat} {live : Nat → Finset Nat}
variable {slabs : List (CacheRef × Nat)} {blocks : List Block} {caches : List CacheRef}
variable {c c' : CacheRef} {a p o : Nat}

theorem SlabsOk.add (S : SlabsOk use page slabs caches) (hp : ∀ c a, use p ≠ .slab c a)
    (hfresh : ∀ c, (c, a) ∉ slabs) (hc : c ∈ caches)
    (haddr : c.kind = .metaSlab → a = pageSize * p) :
    SlabsOk (assign use [p] (.slab c a)) (Function.update page a p) ((c, a) :: slabs)
      caches := by
  have hne : ∀ c' a', (c', a') ∈ slabs → a' ≠ a := by
    rintro c' a' hs rfl
    exact hfresh c' hs
  constructor
  · exact List.nodup_cons.mpr ⟨hfresh c, S.nodup⟩
  · intro q c' a'
    by_cases hq : q = p
    · subst hq
      rw [assign_of_mem (by simp)]
      constructor
      · intro he
        cases he
        simp
      · rintro ⟨hm, hpage⟩
        rcases List.mem_cons.mp hm with he | hm
        · cases he
          rfl
        · rw [Function.update_of_ne (hne c' a' hm)] at hpage
          exact absurd ((S.use_iff q c' a').mpr ⟨hm, hpage⟩) (hp c' a')
    · rw [assign_of_not_mem (by simpa using hq), S.use_iff]
      constructor
      · rintro ⟨hm, rfl⟩
        exact ⟨List.mem_cons_of_mem _ hm, Function.update_of_ne (hne c' a' hm) _ _⟩
      · rintro ⟨hm, hpage⟩
        rcases List.mem_cons.mp hm with he | hm
        · cases he
          rw [Function.update_self] at hpage
          exact absurd hpage.symm hq
        · rw [Function.update_of_ne (hne c' a' hm)] at hpage
          exact ⟨hm, hpage⟩
  · intro c' a' hm
    rcases List.mem_cons.mp hm with he | hm
    · cases he
      exact hc
    · exact S.cache_mem c' a' hm
  · intro c' a' hm hk
    rcases List.mem_cons.mp hm with he | hm
    · cases he
      rw [Function.update_self]
      exact haddr hk
    · rw [Function.update_of_ne (hne c' a' hm)]
      exact S.meta_addr c' a' hm hk

theorem SlabsOk.remove (S : SlabsOk use page slabs caches) (hs : (c, a) ∈ slabs) {u : PageUse}
    (hu : ∀ c a, u ≠ .slab c a) :
    SlabsOk (assign use [page a] u) page (slabs.erase (c, a)) caches := by
  have hmem : ∀ x, x ∈ slabs.erase (c, a) ↔ x ≠ (c, a) ∧ x ∈ slabs := fun x =>
    S.nodup.mem_erase_iff
  constructor
  · exact S.nodup.erase _
  · intro q c' a'
    rw [hmem]
    by_cases hq : q = page a
    · subst hq
      rw [assign_of_mem (by simp)]
      constructor
      · exact fun he => absurd he (hu c' a')
      · rintro ⟨⟨hne, hm⟩, hpage⟩
        have he := (S.use_iff (page a) c a).mpr ⟨hs, rfl⟩
        rw [(S.use_iff (page a) c' a').mpr ⟨hm, hpage⟩] at he
        cases he
        exact absurd rfl hne
    · rw [assign_of_not_mem (by simpa using hq), S.use_iff]
      constructor
      · rintro ⟨hm, rfl⟩
        refine ⟨⟨?_, hm⟩, rfl⟩
        intro he
        cases he
        exact hq rfl
      · rintro ⟨⟨-, hm⟩, hpage⟩
        exact ⟨hm, hpage⟩
  · exact fun c' a' hm => S.cache_mem c' a' ((hmem _).mp hm).2
  · exact fun c' a' hm => S.meta_addr c' a' ((hmem _).mp hm).2

theorem HeadersOk.add {slab : Nat → SlabRec} (H : HeadersOk slab page live slabs)
    (hfresh : ∀ c, (c, a) ∉ slabs) {r : SlabRec} (hd : c.kind ≠ .metaSlab → r.dataPage = .pg p)
    (hr : c.kind.Rep r ∅) :
    HeadersOk (Function.update slab a r) (Function.update page a p) (Function.update live a ∅)
      ((c, a) :: slabs) := by
  have hne : ∀ c' a', (c', a') ∈ slabs → a' ≠ a := by
    rintro c' a' hs rfl
    exact hfresh c' hs
  constructor
  · intro c' a' hm hk
    rcases List.mem_cons.mp hm with he | hm
    · cases he
      rw [Function.update_self, Function.update_self]
      exact hd hk
    · rw [Function.update_of_ne (hne c' a' hm), Function.update_of_ne (hne c' a' hm)]
      exact H.data_page c' a' hm hk
  · intro c' a' hm
    rcases List.mem_cons.mp hm with he | hm
    · cases he
      rw [Function.update_self, Function.update_self]
      exact hr
    · rw [Function.update_of_ne (hne c' a' hm), Function.update_of_ne (hne c' a' hm)]
      exact H.rep c' a' hm

theorem HeadersOk.remove {slab : Nat → SlabRec} (H : HeadersOk slab page live slabs)
    (x : CacheRef × Nat) : HeadersOk slab page live (slabs.erase x) :=
  ⟨fun c a hm => H.data_page c a (List.mem_of_mem_erase hm),
    fun c a hm => H.rep c a (List.mem_of_mem_erase hm)⟩

/-- A slab without live slots adds no heads but its own. -/
theorem listHeads_cons_subset (hk : c.kind ≠ .metaSlab) :
    listHeads caches ((c, a) :: slabs) ⊆ listHeads caches slabs := by
  intro hd hh
  match hd, hh with
  | .queue _ _, hh => exact hh
  | .freeSlab m, ⟨c', hm, hk'⟩ =>
      rcases List.mem_cons.mp hm with he | hm
      · cases he
        exact absurd hk' hk
      · exact ⟨c', hm, hk'⟩

theorem listHeads_cons_subset_insert :
    listHeads caches ((c, a) :: slabs) ⊆ insert (.freeSlab a) (listHeads caches slabs) := by
  intro hd hh
  match hd, hh with
  | .queue _ _, hh => exact Or.inr hh
  | .freeSlab m, ⟨c', hm, hk'⟩ =>
      rcases List.mem_cons.mp hm with he | hm
      · cases he
        exact Or.inl rfl
      · exact Or.inr ⟨c', hm, hk'⟩

theorem listHeads_erase_subset (x : CacheRef × Nat) :
    listHeads caches (slabs.erase x) ⊆ listHeads caches slabs := by
  intro hd hh
  match hd, hh with
  | .queue _ _, hh => exact hh
  | .freeSlab m, ⟨c', hm, hk'⟩ => exact ⟨c', List.mem_of_mem_erase hm, hk'⟩

theorem QueuesOk.add {nodes nodes' : Links NodeRef} {seq seq' : NodeRef → List Nat}
    (Q : QueuesOk nodes seq live none slabs caches) (hfresh : ∀ c, (c, a) ∉ slabs)
    (hrings : Rings nodes' (listHeads caches ((c, a) :: slabs)) fun hd => (seq' hd).map .node)
    (hq : ∀ c q, seq' (.queue c q) = seq (.queue c q))
    (hf : ∀ m, m ≠ a → seq' (.freeSlab m) = seq (.freeSlab m)) (hc : c ∈ caches)
    (ha : c.kind = .metaSlab → ∀ x, x ∈ seq' (.freeSlab a) ↔
      ∃ i, 1 ≤ i ∧ i < 64 ∧ x = a + 64 * i) :
    QueuesOk nodes' seq' (Function.update live a ∅) (some (c, a)) ((c, a) :: slabs) caches := by
  have hne : ∀ c' a', (c', a') ∈ slabs → a' ≠ a := by
    rintro c' a' hs rfl
    exact hfresh c' hs
  constructor
  · exact hrings
  · intro c' a' q hm
    rw [hq]
    rcases List.mem_cons.mp hm with he | hm
    · cases he
      refine ⟨fun hmem => absurd (Q.queue_mem c a q hc hmem) (hfresh c), ?_⟩
      exact fun hh => absurd rfl hh.1
    · have hdiff : some (c, a) ≠ some (c', a') := by
        intro he
        cases he
        exact hfresh c hm
      rw [Q.placed c' a' q hm, Function.update_of_ne (hne c' a' hm)]
      simp [hdiff]
  · intro c' a' q hc' hm
    rw [hq] at hm
    exact List.mem_cons_of_mem _ (Q.queue_mem c' a' q hc' hm)
  · intro c' m x hm hk
    rcases List.mem_cons.mp hm with he | hm
    · cases he
      rw [ha hk, Function.update_self]
      simp
    · rw [hf m (hne c' m hm), Function.update_of_ne (hne c' m hm)]
      exact Q.header_iff c' m x hm hk
  · intro c' a' he
    cases he
    simp

theorem QueuesOk.remove {nodes : Links NodeRef} {seq : NodeRef → List Nat}
    (Q : QueuesOk nodes seq live (some (c, a)) slabs caches) (hnd : slabs.Nodup) :
    QueuesOk nodes seq live none (slabs.erase (c, a)) caches := by
  have hmem : ∀ x, x ∈ slabs.erase (c, a) ↔ x ≠ (c, a) ∧ x ∈ slabs := fun x =>
    hnd.mem_erase_iff
  constructor
  · exact Q.rings.mono (listHeads_erase_subset _)
  · intro c' a' q hm
    obtain ⟨hne, hm⟩ := (hmem _).mp hm
    rw [Q.placed c' a' q hm]
    simp [Ne.symm hne]
  · intro c' a' q hc' hm
    have hs := Q.queue_mem c' a' q hc' hm
    refine (hmem _).mpr ⟨?_, hs⟩
    intro he
    cases he
    exact ((Q.placed c a q hs).mp hm).1 rfl
  · exact fun c' m x hm => Q.header_iff c' m x ((hmem _).mp hm).2
  · exact fun c' a' he => absurd he (by simp)

theorem liveAt_add (hfresh : ∀ c, (c, a) ∉ slabs) :
    LiveAt (Function.update page a p) (Function.update live a ∅) ((c, a) :: slabs) c' o ↔
      LiveAt page live slabs c' o := by
  have hne : ∀ c' a', (c', a') ∈ slabs → a' ≠ a := by
    rintro c' a' hs rfl
    exact hfresh c' hs
  constructor
  · rintro ⟨a', i, hm, hi, he⟩
    rcases List.mem_cons.mp hm with hx | hm
    · cases hx
      simp at hi
    · rw [Function.update_of_ne (hne c' a' hm)] at hi
      rw [slotAddr, Function.update_of_ne (hne c' a' hm)] at he
      exact ⟨a', i, hm, hi, he⟩
  · rintro ⟨a', i, hm, hi, he⟩
    refine ⟨a', i, List.mem_cons_of_mem _ hm, ?_, ?_⟩
    · rwa [Function.update_of_ne (hne c' a' hm)]
    · rw [slotAddr, Function.update_of_ne (hne c' a' hm)]
      exact he

theorem liveAt_remove (hnd : slabs.Nodup) (hempty : live a = ∅) :
    LiveAt page live (slabs.erase (c, a)) c' o ↔ LiveAt page live slabs c' o := by
  constructor
  · rintro ⟨a', i, hm, hi, he⟩
    exact ⟨a', i, List.mem_of_mem_erase hm, hi, he⟩
  · rintro ⟨a', i, hm, hi, he⟩
    refine ⟨a', i, hnd.mem_erase_iff.mpr ⟨?_, hm⟩, hi, he⟩
    intro hx
    cases hx
    simp [hempty] at hi

/-- Pages outside multi-page blocks may change their use. -/
theorem BlocksOk.reassign (B : BlocksOk use page live slabs blocks caches) {s : List Nat}
    {u : PageUse} (hs : ∀ p ∈ s, ∀ t n, use p ≠ .big t n) (hu : ∀ t n, u ≠ .big t n) :
    BlocksOk (assign use s u) page live slabs blocks caches := by
  refine ⟨B.nodup, B.held_iff, B.not_header, ?_, ?_, B.globals, B.site⟩
  · intro t n hm
    obtain ⟨hn, huse⟩ := B.big_use t n hm
    refine ⟨hn, fun q h₁ h₂ => ?_⟩
    have hbig := huse q h₁ h₂
    rwa [assign_of_not_mem fun hq => hs q hq t n hbig]
  · intro q t n hq
    by_cases hm : q ∈ s
    · rw [assign_of_mem hm] at hq
      exact absurd hq (hu t n)
    · rw [assign_of_not_mem hm] at hq
      exact B.of_big q t n hq

/-- A held header becomes a slab. -/
theorem BlocksOk.addData (B : BlocksOk use page live slabs blocks caches)
    (hb : .obj BaseSlab.metaSlabCache a ∈ blocks) (hk : c.kind ≠ .metaSlab)
    (hfresh : ∀ c, (c, a) ∉ slabs) :
    BlocksOk use (Function.update page a p) (Function.update live a ∅) ((c, a) :: slabs)
      (blocks.erase (.obj BaseSlab.metaSlabCache a)) caches := by
  have hmem : ∀ b, b ∈ blocks.erase (.obj BaseSlab.metaSlabCache a) ↔
      b ≠ .obj BaseSlab.metaSlabCache a ∧ b ∈ blocks := fun b => B.nodup.mem_erase_iff
  constructor
  · exact B.nodup.erase _
  · intro c' o
    rw [liveAt_add hfresh, ← B.held_iff]
    constructor
    · rintro (hm | ⟨rfl, c₁, hk₁, hm⟩)
      · exact Or.inl ((hmem _).mp hm).2
      · rcases List.mem_cons.mp hm with he | hm
        · cases he
          exact Or.inl hb
        · exact Or.inr ⟨rfl, c₁, hk₁, hm⟩
    · rintro (hm | ⟨rfl, c₁, hk₁, hm⟩)
      · by_cases he : Block.obj c' o = .obj BaseSlab.metaSlabCache a
        · cases he
          exact Or.inr ⟨rfl, c, hk, by simp⟩
        · exact Or.inl ((hmem _).mpr ⟨he, hm⟩)
      · exact Or.inr ⟨rfl, c₁, hk₁, List.mem_cons_of_mem _ hm⟩
  · intro o hm c' hk' hs
    obtain ⟨hne, hm⟩ := (hmem _).mp hm
    rcases List.mem_cons.mp hs with he | hs
    · cases he
      exact hne rfl
    · exact B.not_header o hm c' hk' hs
  · exact fun s n hm => B.big_use s n ((hmem _).mp hm).2
  · intro q s n hq
    obtain ⟨h₁, h₂⟩ := B.of_big q s n hq
    exact ⟨(hmem _).mpr ⟨by simp, h₁⟩, h₂⟩
  · exact B.globals
  · intro c' hc' o ho
    exact (hmem _).mpr ⟨by simp [BaseSlab.metaSlabCache, CacheRef.global], B.site c' hc' o ho⟩

/-- The blocks stay as they are when the slabs with a separate header and the live
slots do. -/
theorem BlocksOk.congr {page' : Nat → Nat} {live' : Nat → Finset Nat}
    {slabs' : List (CacheRef × Nat)} (B : BlocksOk use page live slabs blocks caches)
    (hdata : ∀ c' o, c'.kind ≠ .metaSlab → ((c', o) ∈ slabs' ↔ (c', o) ∈ slabs))
    (hlive : ∀ c' o, LiveAt page' live' slabs' c' o ↔ LiveAt page live slabs c' o) :
    BlocksOk use page' live' slabs' blocks caches := by
  refine ⟨B.nodup, ?_, ?_, B.big_use, B.of_big, B.globals, B.site⟩
  · intro c' o
    rw [hlive, ← B.held_iff]
    refine or_congr Iff.rfl (and_congr Iff.rfl (exists_congr fun c₁ => ?_))
    exact and_congr_right fun hk₁ => hdata c₁ o hk₁
  · intro o hm c' hk'
    rw [hdata c' o hk']
    exact B.not_header o hm c' hk'

theorem BlocksOk.addMeta (B : BlocksOk use page live slabs blocks caches)
    (hk : c.kind = .metaSlab) (hfresh : ∀ c, (c, a) ∉ slabs) :
    BlocksOk use (Function.update page a p) (Function.update live a ∅) ((c, a) :: slabs)
      blocks caches := by
  refine B.congr (fun c' o hk' => ?_) fun c' o => liveAt_add hfresh
  rw [List.mem_cons, or_iff_right]
  intro he
  cases he
  exact hk' hk

/-- A slab that goes leaves its header held. -/
theorem BlocksOk.removeData (B : BlocksOk use page live slabs blocks caches)
    (hs : (c, a) ∈ slabs) (hk : c.kind ≠ .metaSlab) (hnd : slabs.Nodup)
    (huniq : ∀ c', (c', a) ∈ slabs → c' = c) (hempty : live a = ∅) :
    BlocksOk use page live (slabs.erase (c, a)) (.obj BaseSlab.metaSlabCache a :: blocks)
      caches := by
  have hmem : ∀ x, x ∈ slabs.erase (c, a) ↔ x ≠ (c, a) ∧ x ∈ slabs := fun x =>
    hnd.mem_erase_iff
  constructor
  · refine List.nodup_cons.mpr ⟨fun hb => ?_, B.nodup⟩
    exact B.not_header a hb c hk hs
  · intro c' o
    rw [liveAt_remove hnd hempty, ← B.held_iff]
    constructor
    · rintro (hm | ⟨rfl, c₁, hk₁, hm⟩)
      · rcases List.mem_cons.mp hm with he | hm
        · cases he
          exact Or.inr ⟨rfl, c, hk, hs⟩
        · exact Or.inl hm
      · exact Or.inr ⟨rfl, c₁, hk₁, ((hmem _).mp hm).2⟩
    · rintro (hm | ⟨rfl, c₁, hk₁, hm⟩)
      · exact Or.inl (List.mem_cons_of_mem _ hm)
      · by_cases he : (c₁, o) = (c, a)
        · cases he
          exact Or.inl (by simp)
        · exact Or.inr ⟨rfl, c₁, hk₁, (hmem _).mpr ⟨he, hm⟩⟩
  · intro o hm c' hk' hs'
    obtain ⟨hne, hs'⟩ := (hmem _).mp hs'
    rcases List.mem_cons.mp hm with he | hm
    · cases he
      exact hne (by rw [huniq c' hs'])
    · exact B.not_header o hm c' hk' hs'
  · exact fun s n hm => B.big_use s n (by simpa using hm)
  · intro q s n hq
    obtain ⟨h₁, h₂⟩ := B.of_big q s n hq
    exact ⟨List.mem_cons_of_mem _ h₁, h₂⟩
  · exact B.globals
  · exact fun c' hc' o ho => List.mem_cons_of_mem _ (B.site c' hc' o ho)

theorem BlocksOk.removeMeta (B : BlocksOk use page live slabs blocks caches)
    (hk : c.kind = .metaSlab) (hnd : slabs.Nodup) (hempty : live a = ∅) :
    BlocksOk use page live (slabs.erase (c, a)) blocks caches := by
  refine B.congr (fun c' o hk' => ?_) fun c' o => liveAt_remove hnd hempty
  rw [hnd.mem_erase_iff, and_iff_right]
  intro he
  cases he
  exact hk' hk

variable {stat : CacheRef → Stat}

/-- The counters when a slab comes: the number of separate headers and the
number of held objects together stay as they are. -/
theorem StatsOk.add (T : StatsOk stat slabs blocks caches) {blocks' : List Block}
    (hcount : ∀ c' ∈ caches, (blocks'.countP (·.isObj c') + if c' = BaseSlab.metaSlabCache then
        ((c, a) :: slabs).countP (·.1.kind ≠ .metaSlab) else 0) =
      blocks.countP (·.isObj c') + if c' = BaseSlab.metaSlabCache then
        slabs.countP (·.1.kind ≠ .metaSlab) else 0) :
    StatsOk (Function.update stat c { stat c with slabPg := (stat c).slabPg + 1 })
      ((c, a) :: slabs) blocks' caches := by
  constructor
  · intro c' hc'
    have hold := T.slabPg c' hc'
    by_cases he : c' = c
    · subst he
      rw [Function.update_self, List.countP_cons_of_pos (by simp), ← hold]
    · rw [Function.update_of_ne he, List.countP_cons_of_neg (by simpa using Ne.symm he)]
      exact hold
  · intro c' hc'
    have hold := T.allocated c' hc'
    rw [hcount c' hc', ← hold]
    by_cases he : c' = c
    · subst he
      rw [Function.update_self]
    · rw [Function.update_of_ne he]

theorem StatsOk.remove (T : StatsOk stat slabs blocks caches) (hs : (c, a) ∈ slabs)
    {blocks' : List Block}
    (hcount : ∀ c' ∈ caches, (blocks'.countP (·.isObj c') + if c' = BaseSlab.metaSlabCache then
        (slabs.erase (c, a)).countP (·.1.kind ≠ .metaSlab) else 0) =
      blocks.countP (·.isObj c') + if c' = BaseSlab.metaSlabCache then
        slabs.countP (·.1.kind ≠ .metaSlab) else 0) :
    StatsOk (Function.update stat c { stat c with slabPg := (stat c).slabPg - 1 })
      (slabs.erase (c, a)) blocks' caches := by
  constructor
  · intro c' hc'
    have hold := T.slabPg c' hc'
    rw [List.countP_erase]
    by_cases he : c' = c
    · subst he
      rw [Function.update_self, if_pos ⟨hs, by simp⟩, ← hold]
    · rw [Function.update_of_ne he, if_neg (by simp [Ne.symm he])]
      exact hold
  · intro c' hc'
    have hold := T.allocated c' hc'
    rw [hcount c' hc', ← hold]
    by_cases he : c' = c
    · subst he
      rw [Function.update_self]
    · rw [Function.update_of_ne he]

/-- A held header and a separate header count the same. -/
theorem count_addData (hb : .obj BaseSlab.metaSlabCache a ∈ blocks) (hk : c.kind ≠ .metaSlab)
    (c' : CacheRef) :
    ((blocks.erase (.obj BaseSlab.metaSlabCache a)).countP (·.isObj c') +
        if c' = BaseSlab.metaSlabCache then
          ((c, a) :: slabs).countP (·.1.kind ≠ .metaSlab) else 0) =
      blocks.countP (·.isObj c') + if c' = BaseSlab.metaSlabCache then
        slabs.countP (·.1.kind ≠ .metaSlab) else 0 := by
  rw [List.countP_erase]
  by_cases he : c' = BaseSlab.metaSlabCache
  · subst he
    have hpos : 0 < blocks.countP (·.isObj BaseSlab.metaSlabCache) :=
      List.countP_pos_iff.mpr ⟨_, hb, by simp [Block.isObj]⟩
    rw [if_pos ⟨hb, by simp [Block.isObj]⟩, if_pos rfl, if_pos rfl,
      List.countP_cons_of_pos (by simpa using hk)]
    omega
  · rw [if_neg (by simp [Block.isObj, Ne.symm he]), if_neg he, if_neg he]
    rfl

theorem count_removeData (hs : (c, a) ∈ slabs) (hk : c.kind ≠ .metaSlab) (c' : CacheRef) :
    ((.obj BaseSlab.metaSlabCache a :: blocks).countP (·.isObj c') +
        if c' = BaseSlab.metaSlabCache then
          (slabs.erase (c, a)).countP (·.1.kind ≠ .metaSlab) else 0) =
      blocks.countP (·.isObj c') + if c' = BaseSlab.metaSlabCache then
        slabs.countP (·.1.kind ≠ .metaSlab) else 0 := by
  by_cases he : c' = BaseSlab.metaSlabCache
  · subst he
    have hpos : 0 < slabs.countP (·.1.kind ≠ .metaSlab) :=
      List.countP_pos_iff.mpr ⟨_, hs, by simpa using hk⟩
    rw [List.countP_cons_of_pos (by simp [Block.isObj]), if_pos rfl, if_pos rfl,
      List.countP_erase, if_pos ⟨hs, by simpa using hk⟩]
    omega
  · rw [List.countP_cons_of_neg (by simpa [Block.isObj] using Ne.symm he), if_neg he, if_neg he]

end Parts

/-- The loop of `MetaSlab::Init` links every header into the free list. -/
theorem pushHeaders_rings {nodes : Links NodeRef} {heads : Set NodeRef}
    {seq : NodeRef → List Nat} {a : Nat} (count i : Nat)
    (R : Rings nodes heads fun hd => (seq hd).map .node) (hhd : .freeSlab a ∈ heads)
    (hl : ∀ j, i ≤ j → j < i + count →
      Loose heads (fun hd => (seq hd).map .node) (.node (a + 64 * j))) :
    ∃ l, (∀ x, x ∈ l ↔ x ∈ seq (.freeSlab a) ∨ ∃ j, i ≤ j ∧ j < i + count ∧ x = a + 64 * j) ∧
      Rings (MetaSlab.pushHeaders a count i nodes) heads fun hd =>
        (Function.update seq (.freeSlab a) l hd).map .node := by
  induction count generalizing i nodes seq with
  | zero =>
      refine ⟨seq (.freeSlab a), ?_, ?_⟩
      · intro x
        refine ⟨Or.inl, ?_⟩
        rintro (hx | ⟨j, h₁, h₂, -⟩)
        · exact hx
        · omega
      · rw [Function.update_eq_self]
        exact R
  | succ count ih =>
      have hpush := R.push hhd (hl i le_rfl (by omega))
      rw [← List.map_cons, ← map_node_update] at hpush
      obtain ⟨l, hmem, hrings⟩ := ih (i := i + 1) hpush (by
        intro j h₁ h₂ hd hh hm
        refine hl j (by omega) (by omega) hd hh ?_
        by_cases he : hd = .freeSlab a
        · subst he
          simp only [Function.update_self, List.map_cons, List.mem_cons] at hm ⊢
          rcases hm with h | h | h
          · exact Or.inl h
          · exact absurd (NodeRef.node.inj h) (by omega)
          · exact Or.inr h
        · simpa only [Function.update_of_ne he] using hm)
      refine ⟨l, ?_, ?_⟩
      · intro x
        rw [hmem, Function.update_self, List.mem_cons]
        constructor
        · rintro ((rfl | hx) | ⟨j, h₁, h₂, rfl⟩)
          · exact Or.inr ⟨i, le_rfl, by omega, rfl⟩
          · exact Or.inl hx
          · exact Or.inr ⟨j, by omega, by omega, rfl⟩
        · rintro (hx | ⟨j, h₁, h₂, rfl⟩)
          · exact Or.inl (Or.inr hx)
          · by_cases he : j = i
            · exact Or.inl (Or.inl (by rw [he]))
            · exact Or.inr ⟨j, by omega, by omega, rfl⟩
      · rw [Function.update_idem] at hrings
        exact hrings

namespace HeapInv

variable {G : Ghost} {h : Heap} {caches : List CacheRef} {blocks : List Block}
variable {c c' : CacheRef} {a p i q : Nat} {t : List Nat}

theorem free_use (I : HeapInv G h caches blocks) (hfree : G.free = p :: t) :
    G.use p = .free :=
  (I.pages.free_iff p).mpr (by simp [hfree])

theorem header_div (hi : i < 64) : (pageSize * p + 64 * i) / pageSize = p := by
  rw [pageSize]
  omega

/-- No header lies in a page outside the meta slabs. -/
theorem header_not_in (I : HeapInv G h caches blocks) (hp : ∀ c a, G.use p ≠ .slab c a)
    (hi : i < 64) : (c, pageSize * p + 64 * i) ∉ h.slabs := by
  intro hs
  obtain ⟨c₁, m, j, hm, hk, ha, hj, -⟩ := I.header_slot hs
  have hpage := I.header_page hm hk hj
  rw [← ha, header_div hi] at hpage
  exact hp c₁ m (hpage ▸ I.use_page hm)

/-- A held object of `meta_slab_cache` is no slab. -/
theorem held_header_fresh (I : HeapInv G h caches blocks)
    (hb : .obj BaseSlab.metaSlabCache a ∈ blocks) (c : CacheRef) : (c, a) ∉ h.slabs := by
  intro hs
  by_cases hk : c.kind = .metaSlab
  · obtain ⟨m, i, hm, hi, ha⟩ := I.block_live hb
    obtain ⟨h1, h64⟩ := (I.headers.rep _ m hm).2 i hi
    have haddr := I.slabs.meta_addr _ m hm rfl
    have haddr' := I.slabs.meta_addr c a hs hk
    simp only [slotAddr, BaseSlab.metaSlabCache, CacheRef.global, CacheKind.objSize,
      pageSize] at ha haddr'
    omega
  · exact I.blocks.not_header a hb c hk hs

/-- The ghost after a page became an empty slab, in hand. -/
def newSlab (G : Ghost) (c : CacheRef) (a p : Nat) (t : List Nat)
    (seq : NodeRef → List Nat) : Ghost where
  use := assign G.use [p] (.slab c a)
  free := t
  page := Function.update G.page a p
  live := Function.update G.live a ∅
  seq := seq
  hand := some (c, a)

theorem openSlab_eq {S : SlabClass} {sz : Nat} {h₂ : Heap}
    (hinit : S.init a (pageSize / sz) { h with slabs := (c, a) :: h.slabs } = .ok h₂) :
    MemCache.openSlab S sz c a h =
      .ok (h₂.setStat c { h₂.stat c with slabPg := (h₂.stat c).slabPg + 1 }) := by
  simp only [MemCache.openSlab, hinit, ok_bind]
  rfl

/-- The places for headers in a page outside the slabs are on no list. -/
theorem header_loose (I : HeapInv G h caches blocks) (hp : ∀ c a, G.use p ≠ .slab c a)
    (hi : i < 64) :
    Loose (listHeads caches h.slabs) (fun hd => (G.seq hd).map .node)
      (.node (pageSize * p + 64 * i)) := by
  intro hd hh hm
  rcases List.mem_cons.mp hm with he | hm
  · subst he
    exact hh
  · obtain ⟨y, hy, he⟩ := List.mem_map.mp hm
    cases he
    match hd, hh with
    | .queue c' q', hc' => exact I.header_not_in hp hi (I.queues.queue_mem c' _ q' hc' hy)
    | .freeSlab m, ⟨c', hs, hk'⟩ =>
        obtain ⟨j, -, hj64, -, hmj⟩ := (I.queues.header_iff c' m _ hs hk').mp hy
        have hpage := I.header_page hs hk' hj64
        rw [← hmj, header_div hi] at hpage
        exact hp c' m (hpage ▸ I.use_page hs)

/-- `MetaSlab::Init` strings the 63 headers of such a page together. -/
theorem newHeaders_rings (I : HeapInv G h caches blocks) (hp : ∀ c a, G.use p ≠ .slab c a) :
    ∃ l, (∀ x, x ∈ l ↔ ∃ j, 1 ≤ j ∧ j < 1 + 63 ∧ x = pageSize * p + 64 * j) ∧
      Rings (MetaSlab.pushHeaders (pageSize * p) 63 1
          (h.nodes.initHead (.freeSlab (pageSize * p))))
        (insert (.freeSlab (pageSize * p)) (listHeads caches h.slabs))
        fun hd => (Function.update G.seq (.freeSlab (pageSize * p)) l hd).map .node := by
  have hhead : Loose (listHeads caches h.slabs) (fun hd => (G.seq hd).map .node)
      (.freeSlab (pageSize * p)) := by
    intro hd hh hm
    rcases List.mem_cons.mp hm with he | hm
    · subst he
      obtain ⟨c', hs, -⟩ := hh
      exact I.header_not_in hp (i := 0) (by omega) hs
    · obtain ⟨y, -, he⟩ := List.mem_map.mp hm
      cases he
  have R := I.queues.rings.initHead hhead
  have hnil :
      Function.update (fun hd => (G.seq hd).map NodeRef.node) (.freeSlab (pageSize * p)) [] =
      fun hd => (Function.update G.seq (.freeSlab (pageSize * p)) [] hd).map NodeRef.node :=
    (map_node_update G.seq (.freeSlab (pageSize * p)) []).symm
  rw [hnil] at R
  obtain ⟨l, hl, R'⟩ := pushHeaders_rings (a := pageSize * p) 63 1 R (by simp) (by
    intro j hj1 hj64 hd hh hm
    by_cases he : hd = .freeSlab (pageSize * p)
    · subst he
      simp at hm
    · simp only [Function.update_of_ne he] at hm
      exact I.header_loose hp (by omega) hd (hh.resolve_left he) hm)
  rw [Function.update_idem] at R'
  refine ⟨l, fun x => ?_, R'⟩
  rw [hl, Function.update_self]
  simp

/-- A held header and a free page make a slab. -/
theorem addData (I : HeapInv G h caches blocks) (hh : G.hand = none)
    (hb : .obj BaseSlab.metaSlabCache a ∈ blocks) (hc : c ∈ caches)
    (hk : c.kind ≠ .metaSlab) (hfree : G.free = p :: q :: t) :
    ∃ h₁ h', BaseSlab.attachPage a c.kind.objSize h = .ok h₁ ∧
      MemCache.openSlab c.kind.slabClass c.kind.objSize c a h₁ = .ok h' ∧
      HeapInv (newSlab G c a p (q :: t) G.seq) h' caches
        (blocks.erase (.obj BaseSlab.metaSlabCache a)) ∧
      h'.stat = Function.update h.stat c { h.stat c with slabPg := (h.stat c).slabPg + 1 } := by
  have hfresh := I.held_header_fresh hb
  have huse := I.free_use hfree
  obtain ⟨m', hal, P⟩ := (hfree ▸ I.pages).allocPage
  have P' := P.own (p := p) (by simp) c a
  rw [assign_assign] at P'
  obtain ⟨h₁, hattach, hpages, hslab, hnodes, hstat, hslabs⟩ : ∃ h₁,
      BaseSlab.attachPage a c.kind.objSize h = .ok h₁ ∧
      h₁.pages = m'.setPage (.pg p)
        { m'.page (.pg p) with slabPtr := a, slabObjSize := c.kind.objSize } ∧
      h₁.slab = Function.update h.slab a { h.slab a with dataPage := .pg p } ∧
      h₁.nodes = h.nodes ∧ h₁.stat = h.stat ∧ h₁.slabs = h.slabs := by
    refine ⟨((h.setPages m').setSlab a { h.slab a with dataPage := .pg p }).setOwner (.pg p) a
      c.kind.objSize, ?_, rfl, rfl, rfl, rfl, rfl⟩
    have hderef : m'.deref (.pg p) = .ok () := P.deref (by simp)
    simp only [BaseSlab.attachPage, hal, ok_bind, Heap.setPages, Heap.setSlab, hderef]
    rfl
  obtain ⟨r, hinit, hd, hrep⟩ := CacheKind.Rep.init hk { h₁ with slabs := (c, a) :: h₁.slabs } a
  have hd' : r.dataPage = .pg p := by
    rw [hd, hslab]
    simp
  refine ⟨h₁, _, hattach, openSlab_eq hinit, ⟨?_, ?_, ?_, ?_, ?_, ?_⟩, ?_⟩
  · change PagesOk h₁.pages _ _
    rw [hpages]
    exact P'
  · change SlabsOk _ _ ((c, a) :: h₁.slabs) _
    rw [hslabs]
    exact I.slabs.add (by simp [huse]) hfresh hc fun hm => absurd hm hk
  · change HeadersOk (Function.update h₁.slab a r) _ _ ((c, a) :: h₁.slabs)
    rw [hslabs, hslab, Function.update_idem]
    exact I.headers.add hfresh (fun _ => hd') hrep
  · change QueuesOk h₁.nodes G.seq _ _ ((c, a) :: h₁.slabs) _
    rw [hslabs, hnodes]
    exact (hh ▸ I.queues).add hfresh (I.queues.rings.mono (listHeads_cons_subset hk))
      (fun _ _ => rfl) (fun _ _ => rfl) hc fun hm => absurd hm hk
  · change StatsOk (Function.update h₁.stat c { h₁.stat c with
      slabPg := (h₁.stat c).slabPg + 1 }) ((c, a) :: h₁.slabs) _ _
    rw [hslabs, hstat]
    exact I.stats.add fun c' _ => count_addData hb hk c'
  · change BlocksOk _ _ _ ((c, a) :: h₁.slabs) _ _
    rw [hslabs]
    refine (I.blocks.addData hb hk hfresh).reassign ?_ (by simp)
    simp [huse]
  · rw [← hstat]
    rfl

/-- A free page becomes a meta slab with 63 free headers. -/
theorem addMeta (I : HeapInv G h caches blocks) (hh : G.hand = none) (hc : c ∈ caches)
    (hk : c.kind = .metaSlab) (hfree : G.free = p :: q :: t) :
    ∃ h₁ h' l, MetaSlab.allocSlab c.kind.objSize h = .ok (pageSize * p, h₁) ∧
      MemCache.openSlab c.kind.slabClass c.kind.objSize c (pageSize * p) h₁ = .ok h' ∧
      HeapInv (newSlab G c (pageSize * p) p (q :: t)
        (Function.update G.seq (.freeSlab (pageSize * p)) l)) h' caches blocks ∧
      h'.stat = Function.update h.stat c { h.stat c with slabPg := (h.stat c).slabPg + 1 } := by
  have huse := I.free_use hfree
  obtain ⟨l, hl, R⟩ := I.newHeaders_rings (p := p) (by simp [huse])
  have hfresh : ∀ c, (c, pageSize * p) ∉ h.slabs := fun c =>
    I.header_not_in (by simp [huse]) (i := 0) (by omega)
  obtain ⟨a, ha⟩ : ∃ a, a = pageSize * p := ⟨_, rfl⟩
  rw [← ha] at hl R hfresh ⊢
  obtain ⟨m', hal, P⟩ := (hfree ▸ I.pages).allocPage
  have P' := P.own (p := p) (by simp) c a
  rw [assign_assign] at P'
  obtain ⟨h₁, hattach, hpages, hslab, hnodes, hstat, hslabs⟩ : ∃ h₁,
      MetaSlab.allocSlab c.kind.objSize h = .ok (a, h₁) ∧
      h₁.pages = m'.setPage (.pg p)
        { m'.page (.pg p) with slabPtr := a, slabObjSize := c.kind.objSize } ∧
      h₁.slab = h.slab ∧ h₁.nodes = h.nodes ∧ h₁.stat = h.stat ∧ h₁.slabs = h.slabs := by
    refine ⟨(h.setPages m').setOwner (.pg p) a c.kind.objSize, ?_, rfl, rfl, rfl, rfl, rfl⟩
    obtain ⟨hlt, hphy⟩ := P.managed p (by simp)
    simp only [MetaSlab.allocSlab, hal, ok_bind, Heap.setPages, Heap.physicalAddress,
      MemPages.deref_pg hlt, hphy, ← ha]
    rfl
  have hinit : c.kind.slabClass.init a (pageSize / c.kind.objSize)
      { h₁ with slabs := (c, a) :: h₁.slabs } =
      .ok { h₁ with
        slabs := (c, a) :: h₁.slabs
        slab := Function.update h₁.slab a { h₁.slab a with nrFreeSlab := 63 }
        nodes := MetaSlab.pushHeaders a 63 1 (h₁.nodes.initHead (.freeSlab a)) } := by
    rw [hk]
    rfl
  refine ⟨h₁, _, l, hattach, openSlab_eq hinit, ⟨?_, ?_, ?_, ?_, ?_, ?_⟩, ?_⟩
  · change PagesOk h₁.pages _ _
    rw [hpages]
    exact P'
  · change SlabsOk _ _ ((c, a) :: h₁.slabs) _
    rw [hslabs]
    exact I.slabs.add (by simp [huse]) hfresh hc fun _ => ha
  · change HeadersOk (Function.update h₁.slab a _) _ _ ((c, a) :: h₁.slabs)
    rw [hslabs, hslab]
    refine I.headers.add hfresh (fun hm => absurd hk hm) ?_
    rw [hk]
    exact ⟨by simp, by simp⟩
  · change QueuesOk (MetaSlab.pushHeaders a 63 1 (h₁.nodes.initHead (.freeSlab a)))
      (Function.update G.seq (.freeSlab a) l) _ _ ((c, a) :: h₁.slabs) _
    rw [hslabs, hnodes]
    refine (hh ▸ I.queues).add hfresh (R.mono listHeads_cons_subset_insert) ?_ ?_ hc ?_
    · exact fun c' q' => Function.update_of_ne (by simp) _ _
    · exact fun m hm => Function.update_of_ne (by simpa using hm) _ _
    · intro _ x
      rw [Function.update_self, hl]
  · change StatsOk (Function.update h₁.stat c { h₁.stat c with
      slabPg := (h₁.stat c).slabPg + 1 }) ((c, a) :: h₁.slabs) _ _
    rw [hslabs, hstat]
    refine I.stats.add fun c' _ => ?_
    rw [List.countP_cons_of_neg (by simp [hk])]
  · change BlocksOk _ _ _ ((c, a) :: h₁.slabs) _ _
    rw [hslabs]
    refine (I.blocks.addMeta hk hfresh).reassign ?_ (by simp)
    simp [huse]
  · rw [← hstat]
    rfl

/-- The heap when `ReclaimEmptySlab` calls `FreeSlab`. -/
def dropSlab (h : Heap) (c : CacheRef) (a : Nat) : Heap :=
  { h.setStat c { h.stat c with slabPg := (h.stat c).slabPg - 1 } with
    slabs := h.slabs.erase (c, a) }

/-- `MetaSlab::FreeSlab` gives the page back. -/
theorem removeMeta (I : HeapInv G h caches blocks) (hh : G.hand = some (c, a))
    (hk : c.kind = .metaSlab) (hempty : G.live a = ∅) :
    ∃ h', MetaSlab.freeSlab a (dropSlab h c a) = .ok h' ∧
      HeapInv { G with
          use := assign G.use [G.page a] .free
          free := G.page a :: G.free
          hand := none } h' caches blocks ∧
      h'.stat = Function.update h.stat c { h.stat c with slabPg := (h.stat c).slabPg - 1 } := by
  have hs := I.queues.hand_mem c a hh
  have huse := I.use_page hs
  have hpage : MemPages.pageOf a = .pg (G.page a) := by
    have h0 := I.header_page hs hk (i := 0) (by omega)
    rw [MemPages.pageOf, pgnum]
    simpa using h0
  have P := I.pages.lose (s := [G.page a]) (by simp [huse])
  obtain ⟨m', hfr, P', -⟩ := P.freePage (p := G.page a) (by simp)
  rw [assign_assign] at P'
  refine ⟨(dropSlab h c a).setPages m', ?_, ⟨P', ?_, ?_, ?_, ?_, ?_⟩, ?_⟩
  · change (h.pages.freePage (MemPages.pageOf a) >>= _) = _
    rw [hpage, hfr]
    rfl
  · exact I.slabs.remove hs (by simp)
  · exact I.headers.remove _
  · exact (hh ▸ I.queues).remove I.slabs.nodup
  · refine I.stats.remove hs fun c' _ => ?_
    have hcount : (h.slabs.erase (c, a)).countP (·.1.kind ≠ .metaSlab) =
        h.slabs.countP (·.1.kind ≠ .metaSlab) := by
      rw [List.countP_erase]
      simp [hk]
    rw [hcount]
  · refine (I.blocks.removeMeta hk I.slabs.nodup hempty).reassign ?_ (by simp)
    simp [huse]
  · rfl

/-- The slab is gone, its header is held and its page is lost. -/
theorem removeData (I : HeapInv G h caches blocks) (hh : G.hand = some (c, a))
    (hk : c.kind ≠ .metaSlab) (hempty : G.live a = ∅) :
    HeapInv { G with use := assign G.use [G.page a] .lost, hand := none } (dropSlab h c a) caches
      (.obj BaseSlab.metaSlabCache a :: blocks) := by
  have hs := I.queues.hand_mem c a hh
  have huse := I.use_page hs
  refine ⟨I.pages.lose (by simp [huse]), I.slabs.remove hs (by simp), I.headers.remove _,
    (hh ▸ I.queues).remove I.slabs.nodup, ?_, ?_⟩
  · exact I.stats.remove hs fun c' _ => count_removeData hs hk c'
  · refine (I.blocks.removeData hs hk I.slabs.nodup ?_ hempty).reassign ?_ (by simp)
    · exact fun c' hs' => I.cache_unique hs' hs
    · simp [huse]

end HeapInv

end Chestnut
