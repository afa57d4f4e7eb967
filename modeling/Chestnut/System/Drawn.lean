import Chestnut.Paging.MapPage
import Chestnut.Slab.PageUse

/-!
# Pages that the page tables take

`Allocate` of a page-table entry is the only place where the page-table code
calls the page allocator, and it never gives a page back. So a call of that
code takes pages off the front of the free list, and every one of them has
become a table of the tree.
-/

namespace Chestnut

open Lib

namespace MemPages

/-- What `Allocate` asks of the page allocator: a page that it can follow. -/
def drawPage (m : MemPages) (_ : Unit) : Except Fault MemPages := do
  let (p, m) ← m.allocPage
  m.deref p
  return m

/-- The allocators that such calls lead to. -/
def Drawn (m : MemPages) : MemPages → Prop := Reach drawPage (fun _ _ => True) m

/-- A page drawn off a well-formed list is its first one, and it is not the last. -/
theorem FreeList.drawPage {m m' : MemPages} {free : List Nat} (F : FreeList m free)
    (h : m.drawPage () = .ok m') :
    ∃ p t, free = p :: t ∧ t ≠ [] ∧ FreeList m' t ∧ Flagged m m' [p] false := by
  obtain ⟨⟨q, m₁⟩, halloc, h⟩ := bind_ok h
  match free, F with
  | [], F | [_], F =>
      rw [F.allocPage_null (by simp)] at halloc
      cases halloc
      cases h
  | p :: p' :: t, F =>
      obtain ⟨m₂, hpop, F', hf⟩ := F.allocPage_pop
      cases hpop.symm.trans halloc
      obtain ⟨-, -, h⟩ := bind_ok h
      cases h
      exact ⟨p, p' :: t, rfl, by simp, F', hf⟩

theorem FreeList.drawn {m m' : MemPages} {free : List Nat} (F : FreeList m free)
    (h : Drawn m m') : ∃ free', FreeList m' free' ∧ (∀ p ∈ free', p ∈ free) ∧
      m'.nrPageStructs = m.nrPageStructs := by
  refine h.inv (I := fun m' => ∃ free', FreeList m' free' ∧ (∀ p ∈ free', p ∈ free) ∧
    m'.nrPageStructs = m.nrPageStructs) ⟨free, F, fun _ hp => hp, rfl⟩ ?_
  rintro m₁ ⟨⟩ m₂ ⟨free₁, F₁, hsub, hnr⟩ - hs
  obtain ⟨p, t, rfl, -, F₂, hf⟩ := F₁.drawPage hs
  exact ⟨t, F₂, fun q hq => hsub q (List.mem_cons_of_mem p hq), hf.nr_eq.trans hnr⟩

/-- Two chains from one node: one of them goes on where the other ends. -/
theorem Forward.compare {f : PageRef → PageRef} {l l' : List Nat} {start : PageRef}
    (h : Forward f (start :: l.map .pg)) (h' : Forward f (start :: l'.map .pg)) :
    l <+: l' ∨ l' <+: l := by
  induction l generalizing l' start with
  | nil => exact .inl List.nil_prefix
  | cons i t ih =>
      cases l' with
      | nil => exact .inr List.nil_prefix
      | cons j t' =>
          obtain ⟨hi, ht⟩ := List.isChain_cons_cons.mp h
          obtain ⟨hj, ht'⟩ := List.isChain_cons_cons.mp h'
          cases hi.symm.trans hj
          exact (ih ht ht').imp (List.prefix_cons_inj i).mpr (List.prefix_cons_inj i).mpr

/-- A chain without repetitions has no proper initial piece with the same end. -/
theorem eq_of_prefix_of_getLast {l l' : List Nat} (hpre : l <+: l') (hnd : l'.Nodup)
    (hl : l ≠ []) (hl' : l' ≠ []) (he : l.getLast hl = l'.getLast hl') : l = l' := by
  obtain ⟨r, rfl⟩ := hpre
  cases r with
  | nil => simp
  | cons x r =>
      have hmem : l.getLast hl ∈ x :: r := by
        rw [he, List.getLast_append_of_ne_nil _ (List.cons_ne_nil x r)]
        exact List.getLast_mem _
      exact absurd hmem (List.disjoint_of_nodup_append hnd (List.getLast_mem hl))

theorem Supply.prev_head_eq {m : MemPages} {free : List Nat} (S : Supply m free)
    (hne : free ≠ []) : m.links.prev .head = .pg (free.getLast hne) := by
  rw [S.prev_head, List.getLast_cons (by simpa using hne), List.getLast_map]

/-- With two free pages or more there is only one chain. -/
theorem FreeList.supply_unique {m : MemPages} {free free' : List Nat} (F : FreeList m free)
    (hlen : 2 ≤ free.length) (S : Supply m free') : free' = free := by
  have hne : free ≠ [] := List.ne_nil_of_length_pos (by omega)
  have hlast := F.supply.prev_head_eq hne
  have hne' : free' ≠ [] := by
    rintro rfl
    have heq : m.links.next .head = m.links.prev .head := S.prev_head.symm
    match free, F, hlen with
    | i :: j :: t, F, _ =>
        have hnext := (List.isChain_cons_cons.mp F.supply.forward).1
        rw [hnext, hlast, PageRef.pg.injEq, List.getLast_cons (List.cons_ne_nil j t)] at heq
        exact (List.nodup_cons.mp F.nodup).1 (heq ▸ List.getLast_mem _)
  have he : free'.getLast hne' = free.getLast hne :=
    PageRef.pg.inj ((S.prev_head_eq hne').symm.trans hlast)
  rcases S.forward.compare F.supply.forward with h | h
  · exact eq_of_prefix_of_getLast h F.nodup hne' hne he
  · exact (eq_of_prefix_of_getLast h S.nodup hne hne' he.symm).symm

end MemPages

namespace PagesOk

variable {m m' : MemPages} {use : Nat → PageUse} {p : Nat}

/-- The page that is drawn leaves the pages of the heap. -/
theorem drawPage {free : List Nat} (P : PagesOk m use free) (h : m.drawPage () = .ok m') :
    ∃ p t, free = p :: t ∧ t ≠ [] ∧ PagesOk m' (assign use [p] .unmanaged) t := by
  obtain ⟨p, t, rfl, ht, F, hf⟩ := P.list.drawPage h
  refine ⟨p, t, rfl, ht, P.reassign F hf (by simp) (by simp) ?_ ?_⟩
  · intro q hq
    rw [List.mem_singleton] at hq
    subst hq
    exact P.managed_of_mem List.mem_cons_self
  · intro q
    have hnot : p ∉ t := (List.nodup_cons.mp P.list.nodup).1
    by_cases hq : q = p
    · subst hq
      simp [hnot]
    · simp [hq, P.free_iff]

end PagesOk

theorem assign_cons (use : Nat → PageUse) (p : Nat) (s : List Nat) (u : PageUse) :
    assign (assign use [p] u) s u = assign use (p :: s) u := by
  funext q
  by_cases hs : q ∈ s
  · simp [assign, hs]
  · by_cases hp : q = p <;> simp [assign, hs, hp]

namespace Paging

variable {s s' : Paging} {r r' : EntryRef}

theorem store_pages {e : Entry} (h : s.store r e = .ok s') : s'.pages = s.pages := by
  obtain ⟨r₁, -, h⟩ := bind_ok h
  cases h
  exact write_pages s r₁ e

theorem clearPage_pages {a : Nat} (h : s.clearPage a = .ok s') : s'.pages = s.pages := by
  obtain ⟨base, -, h⟩ := bind_ok h
  cases h
  rfl

theorem allocate_drawn (h : s.allocate r = .ok s') : s.pages.drawPage () = .ok s'.pages := by
  obtain ⟨⟨p, m⟩, halloc, h⟩ := bind_ok h
  obtain ⟨⟨⟩, hderef, h⟩ := bind_ok h
  obtain ⟨s₁, h₁, h⟩ := bind_ok h
  obtain ⟨_, -, h⟩ := bind_ok h
  obtain ⟨s₂, h₂, h⟩ := bind_ok h
  obtain ⟨_, -, h⟩ := bind_ok h
  obtain ⟨s₃, h₃, h⟩ := bind_ok h
  obtain ⟨_, -, h⟩ := bind_ok h
  have hpages : s'.pages = m :=
    calc s'.pages = s₃.pages := store_pages h
      _ = s₂.pages := store_pages h₃
      _ = s₁.pages := clearPage_pages h₂
      _ = m := store_pages h₁
  rw [hpages, MemPages.drawPage, halloc, ok_bind]
  simp only [hderef, ok_bind]
  rfl

theorem child_drawn {level vaddr : Nat} (h : child level vaddr r s = .ok (r', s')) :
    MemPages.Drawn s.pages s'.pages := by
  obtain ⟨s₁, halloc, h⟩ := bind_ok h
  obtain ⟨r₁, -, h⟩ := bind_ok h
  cases h
  obtain ⟨e, -, halloc⟩ := bind_ok halloc
  split at halloc
  · exact .next .start trivial (allocate_drawn halloc)
  · cases halloc
    exact .start

theorem mapSmall_drawn {vaddr : Nat} {e : Entry} (h : s.mapSmall vaddr e = .ok s') :
    MemPages.Drawn s.pages s'.pages := by
  obtain ⟨⟨r₂, s₂⟩, h₂, h⟩ := bind_ok h
  obtain ⟨⟨r₁, s₁⟩, h₁, h⟩ := bind_ok h
  obtain ⟨⟨r₀, s₀⟩, h₀, h⟩ := bind_ok h
  rw [store_pages h]
  exact ((child_drawn h₂).trans (child_drawn h₁)).trans (child_drawn h₀)

theorem mapLarge_drawn {vaddr : Nat} {e : Entry} (h : s.mapLarge vaddr e = .ok s') :
    MemPages.Drawn s.pages s'.pages := by
  obtain ⟨⟨r₂, s₂⟩, h₂, h⟩ := bind_ok h
  obtain ⟨⟨r₁, s₁⟩, h₁, h⟩ := bind_ok h
  rw [store_pages h]
  exact (child_drawn h₂).trans (child_drawn h₁)

theorem mapHuge_drawn {vaddr : Nat} {e : Entry} (h : s.mapHuge vaddr e = .ok s') :
    MemPages.Drawn s.pages s'.pages := by
  obtain ⟨⟨r₂, s₂⟩, h₂, h⟩ := bind_ok h
  rw [store_pages h]
  exact child_drawn h₂

theorem mapLoop_drawn {skip wt : Bool} {stop steps addr : Nat}
    (h : mapLoop skip wt stop steps addr s = .ok s') : MemPages.Drawn s.pages s'.pages := by
  induction steps generalizing addr s with
  | zero =>
      cases h
      exact .start
  | succ steps ih =>
      rw [mapLoop] at h
      split at h
      · split at h
        · obtain ⟨s₁, hone, h⟩ := bind_ok h
          exact (mapHuge_drawn hone).trans (ih h)
        · split at h
          · obtain ⟨s₁, hone, h⟩ := bind_ok h
            exact (mapLarge_drawn hone).trans (ih h)
          · obtain ⟨s₁, hone, h⟩ := bind_ok h
            exact (mapSmall_drawn hone).trans (ih h)
      · cases h
        exact .start

theorem mapEntries_drawn {es : List MmapEntry} (h : mapEntries es s = .ok s') :
    MemPages.Drawn s.pages s'.pages := by
  induction es generalizing s with
  | nil =>
      cases h
      exact .start
  | cons e es ih =>
      rw [mapEntries] at h
      split at h
      · exact ih h
      · obtain ⟨s₁, hone, h⟩ := bind_ok h
        have hfirst : MemPages.Drawn s.pages s₁.pages := by
          rw [mapEntry] at hone
          split at hone <;> exact mapLoop_drawn hone
        exact hfirst.trans (ih h)

theorem setRoot_pages {vaddr : Nat} {e : Entry} (h : s.setRoot vaddr e = .ok s') :
    s'.pages = s.pages := by
  obtain ⟨r, -, h⟩ := bind_ok h
  exact store_pages h

/-- `InitKernelPageTable` only takes pages off the allocator. -/
theorem initKernelPageTable_drawn {es : List MmapEntry}
    (h : initKernelPageTable es s = .ok s') : MemPages.Drawn s.pages s'.pages := by
  rw [initKernelPageTable] at h
  split at h
  · cases h
  · obtain ⟨s₁, hmap, h⟩ := bind_ok h
    obtain ⟨s₂, h₂, h⟩ := bind_ok h
    obtain ⟨s₃, h₃, h⟩ := bind_ok h
    cases h
    have hdrawn := mapEntries_drawn hmap
    change MemPages.Drawn s.pages s₃.pages
    rw [setRoot_pages h₃, setRoot_pages h₂]
    exact hdrawn

variable {root : Nat} {T T' : PageTree} {free taken free' : List Nat} {l y vaddr p : Nat}

/-- What a descent leaves behind, page by page: `taken` are the new tables. -/
structure Grew (root : Nat) (T T' : PageTree) (free taken free' : List Nat)
    (s s' : Paging) : Prop extends Took (kernSlot root) T T' free taken free' s s' where
  installed : Installed root T' free' s'
  leaves : ∀ k x c, T' k x = .leaf c ↔ T k x = .leaf c
  pages : ∀ use, PagesOk s.pages use free → PagesOk s'.pages (assign use taken .unmanaged) free'

theorem Grew.refl (I : Installed root T free s) : Grew root T T free [] free s s :=
  ⟨.refl (kernSlot root) T free s, I, fun _ _ _ => Iff.rfl, fun _ P => P⟩

/-- The descent goes on behind a table that it has just hung into the tree. -/
theorem Grew.behind_new {t : List Nat} {m : MemPages}
    (G : Grew root (T.set l (y / 512 ^ l) (.table p)) T' t taken free' (s.hang m r p) s')
    (hr : Slot (kernSlot root) T l y r) (hn : T l (y / 512 ^ l) = .empty)
    (hal : s.allocate r = .ok (s.hang m r p)) :
    Grew root T T' (p :: t) (p :: taken) free' s s' := by
  refine ⟨(Took.table hr p t m).trans G.toTook, G.installed, fun k x c => ?_, fun use P => ?_⟩
  · exact (G.leaves k x c).trans (Radix.set_table_eq_leaf_iff p hn)
  · obtain ⟨q, t', he, -, P'⟩ := P.drawPage (allocate_drawn hal)
    cases he
    rw [← assign_cons]
    exact G.pages _ P'

/-- A descent that arrives, and the store at its end, have taken the pages of the new
tables. -/
theorem Installed.descend_grew (I : Installed root T free s) (hr : Slot (kernSlot root) T l y r)
    (hl : l ≤ 3) (hy : y < 2 ^ 27) (hoff : ∀ k < 3, offset (k + 1) vaddr = y / 512 ^ k % 512)
    (hnl : ∀ k ≤ l, 0 < k → ∀ c, T k (y / 512 ^ k) ≠ .leaf c) {e : Entry}
    (hok : (descend vaddr l r s >>= fun (r, s) => s.store r e) = .ok s') :
    ∃ T' taken free' r' s₁, Grew root T T' free taken free' s s₁ ∧
      Slot (kernSlot root) T' 0 y r' ∧ s' = s₁.write r' e := by
  induction l generalizing r s T free with
  | zero =>
      rcases I.slot_seen_or_blind hr with hs | hb
      · cases (I.sees.store hs e).symm.trans hok
        exact ⟨T, [], free, r, s, .refl I, hr, rfl⟩
      · cases (I.sees.store_blind hb e).symm.trans hok
  | succ l ih =>
      rcases I.slot_seen_or_blind hr with hs | hb
      · cases hn : T (l + 1) (y / 512 ^ (l + 1)) with
        | leaf c => exact absurd hn (hnl (l + 1) le_rfl (by omega) c)
        | table p =>
            obtain ⟨r₁, hr₁, -, hrun, -⟩ :=
              I.descend_table hr hs (by omega) hy hn (hoff l (by omega))
            rw [hrun] at hok
            exact ih I hr₁ (by omega) (fun k hk => hnl k (by omega)) hok
        | empty =>
            rcases I.descend_empty hr hs (by omega) hy hn (hoff l (by omega)) with
              ⟨-, hfail⟩ | ⟨p, t, m, r₁, rfl, -, -, hal, I₁, hr₁, -, hrun, -⟩
            · rcases hfail.bind fun (r, s) => s.store r e with he | he <;>
                cases he.symm.trans hok
            · rw [hrun] at hok
              obtain ⟨T', taken, free', r', s₁, G, hr', heq⟩ :=
                ih I₁ hr₁ (by omega) (fun k hk hpos c => by
                  rw [Radix.set_of_ne _ (by omega)]
                  exact hnl k (by omega) hpos c) hok
              exact ⟨T', p :: taken, free', r', s₁, G.behind_new hr hn hal, hr', heq⟩
      · rw [descend, I.sees.child_blind hb] at hok
        cases hok

/-- A call of `MapPage` that returns: its new tables are pages it has taken, outside
the tables memory is as before, and every page that was mapped still is. -/
theorem Installed.mapPage_grew (I : Installed root T free s) {c : MapCall} (ha : c.Allowed s)
    (h : s.mapPage c.paddr c.writeThrough c.cacheDisabled = .ok s') :
    ∃ T' taken free', Took (kernSlot root) T T' free taken free' s s' ∧
      Installed root T' free' s' ∧ (∀ p, Visible T p → Visible T' p) ∧
      ∀ use, PagesOk s.pages use free →
        PagesOk s'.pages (assign use taken .unmanaged) free' := by
  have hlarge := I.not_underLarge ha h
  obtain ⟨hal, hp, hhuge⟩ := ha
  rw [I.mapPage_eq_descend hp] at h
  obtain ⟨T', taken, free', r', s₁, G, hr', rfl⟩ := I.descend_grew (.inl ⟨rfl, rfl⟩) le_rfl
    (page_lt hp) (offset_page hp) (I.no_large_leaf hp hhuge hlarge) h
  have hnt : ∀ q, T' 0 (c.paddr / pageSize / 512 ^ 0) ≠ .table q :=
    (G.installed.holds.fits 0 _).1 rfl
  have K := G.toTook.trans (.leaf hr' free' ⟨c.writeThrough, c.cacheDisabled⟩
    (Entry.setCacheDisabled c.cacheDisabled
      (Entry.setWriteThrough c.writeThrough (Entry.ofPaddr c.paddr))))
  rw [List.append_nil] at K
  refine ⟨_, taken, free', K, ⟨?_, ?_, I.root_lt⟩, ?_, fun use P => ?_⟩
  · rw [leaf_word_cached hal]
    exact G.installed.holds.put hr' (by omega) (page_lt hp) hnt _ ⟨nofun, nofun⟩ nofun
  · rw [write_cr3, G.installed.cr3_eq]
  · rintro q ⟨hq, c', k, hk⟩
    refine ⟨hq, ?_⟩
    by_cases hsame : k = 0 ∧ q / 512 ^ k = c.paddr / pageSize / 512 ^ 0
    · obtain ⟨rfl, hq⟩ := hsame
      exact ⟨_, 0, by rw [hq, Radix.set_self]⟩
    · exact ⟨c', k, by rw [Radix.set_of_ne _ hsame, G.leaves, hk]⟩
  · rw [write_pages]
    exact G.pages use P

end Paging

end Chestnut
