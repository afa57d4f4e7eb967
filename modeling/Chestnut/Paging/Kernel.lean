import Chestnut.Pages.Requests
import Chestnut.Paging.Mapping

/-!
# The kernel page table

`InitKernelPageTable` on a memory map of disjoint entries: every aligned entry
is mapped page by page, no two entries meet in a page, and the finished tree
is hung into the top-level table under `KERN_OFFSET`. The call returns exactly if
`AllocPage` supplies its tables from the first gigabyte, which is all that is
mapped while it runs.
-/

namespace Chestnut

open Lib

namespace MmapEntry

/-- Some address of the page `y` belongs to the entry. -/
def Meets (e : MmapEntry) (y : Nat) : Prop := ∃ a, a / pageSize = y ∧ e.Covers a

/-- An aligned entry meets a page exactly when it covers its first byte. -/
theorem meets_iff {e : MmapEntry} (ha : e.addr % pageSize = 0) (y : Nat) :
    e.Meets y ↔ e.Covers (pageSize * y) := by
  simp only [Meets, Covers, pageSize] at ha ⊢
  constructor
  · rintro ⟨a, rfl, h⟩
    omega
  · intro h
    exact ⟨4096 * y, by omega, h⟩

end MmapEntry

/-- Entries below 512 GiB, of which no two share an address. -/
structure LowMap (es : List MmapEntry) : Prop where
  disjoint : es.Pairwise fun e e' => ∀ a, e.Covers a → ¬ e'.Covers a
  low : ∀ e ∈ es, e.addr + e.len ≤ kernMaxMemory

/-- The page `y` meets an aligned entry; memory that is not available is
write-through. -/
def MappedBy (es : List MmapEntry) (y : Nat) (c : Caching) : Prop :=
  ∃ e ∈ es, e.addr % pageSize = 0 ∧ e.Meets y ∧ c = ⟨!e.available, false⟩

namespace LowMap

variable {e : MmapEntry} {es : List MmapEntry}

theorem tail (h : LowMap (e :: es)) : LowMap es :=
  ⟨(List.pairwise_cons.mp h.disjoint).2, fun e' he' => h.low e' (List.mem_cons_of_mem _ he')⟩

theorem stop_eq (h : LowMap es) (he : e ∈ es) : e.stop = e.addr + e.len := by
  have hlow := h.low e he
  rw [MmapEntry.stop, Nat.mod_eq_of_lt]
  rw [kernMaxMemory] at hlow
  rw [u64Size]
  omega

end LowMap

namespace Paging

variable {s : Paging} {root : Nat} {D : Nat → Caching → Prop}
variable {t : BootTables} {F : Finset (Nat × Nat)} {free₀ : List Nat} {s₀ : Paging}

/-- The tables that one entry of the memory map needs. -/
def entryTables (e : MmapEntry) : Finset (Nat × Nat) :=
  rangeTables e.available e.stop (pageSteps e.addr e.stop) e.addr

/-- The tables that the memory map needs. -/
def tablesOf : List MmapEntry → Finset (Nat × Nat)
  | [] => ∅
  | e :: es => if e.addr % pageSize ≠ 0 then tablesOf es else entryTables e ∪ tablesOf es

/-- The number of pages that `InitKernelPageTable` takes. -/
def tableCount (es : List MmapEntry) : Nat := (tablesOf es).card

/-- `MapPagesToPageTable` maps the pages an aligned entry meets. -/
theorem mapPagesToPageTable_spec {e : MmapEntry} (ha : e.addr % pageSize = 0)
    (hlow : e.addr + e.len ≤ kernMaxMemory) (hstop : e.stop = e.addr + e.len) (skip wt : Bool)
    (M : MapsFrom t free₀ s₀ F D s) (hun : ∀ y v, e.Meets y → ¬ D y v) :
    Mapping t free₀ s₀ (F ∪ rangeTables skip e.stop (pageSteps e.addr e.stop) e.addr)
      (fun y v => D y v ∨ e.Meets y ∧ v = ⟨wt, false⟩) (mapPagesToPageTable e skip wt s) := by
  obtain ⟨y, hy⟩ : ∃ y, e.addr = pageSize * y :=
    ⟨e.addr / pageSize, (Nat.mul_div_cancel' (Nat.dvd_of_mod_eq_zero ha)).symm⟩
  have hmeets : ∀ y', e.Meets y' ↔ y ≤ y' ∧ pageSize * y' < e.stop := by
    intro y'
    rw [MmapEntry.meets_iff ha, MmapEntry.Covers, hstop, hy, pageSize]
    omega
  have h := mapLoop_spec (y := y) (hstop ▸ hlow) skip wt M
    (fun y' v h₁ h₂ => hun y' v ((hmeets y').mpr ⟨h₁, h₂⟩)) le_rfl
  rw [← hy] at h
  refine h.imp_right ?_
  rintro ⟨s', hs', M'⟩
  exact ⟨s', hs', M'.congr fun y' v => by rw [WithRange, hmeets]⟩

/-- One entry of the memory map. -/
theorem mapEntry_spec {e : MmapEntry} {es : List MmapEntry} (h : LowMap (e :: es))
    (ha : e.addr % pageSize = 0) (M : MapsFrom t free₀ s₀ F D s)
    (hun : ∀ y v w, MappedBy (e :: es) y w → ¬ D y v) :
    Mapping t free₀ s₀ (F ∪ entryTables e)
      (fun y v => D y v ∨ e.Meets y ∧ v = ⟨!e.available, false⟩) (mapEntry e s) := by
  have hmem : e ∈ e :: es := List.mem_cons_self
  have hnew : ∀ y v, e.Meets y → ¬ D y v :=
    fun y v hm => hun y v ⟨!e.available, false⟩ ⟨e, hmem, ha, hm, rfl⟩
  rw [mapEntry, entryTables]
  cases hav : e.available with
  | true => exact mapPagesToPageTable_spec ha (h.low e hmem) (h.stop_eq hmem) true false M hnew
  | false => exact mapPagesToPageTable_spec ha (h.low e hmem) (h.stop_eq hmem) false true M hnew

/-- The entries behind an entry are still unmapped when it is done. -/
theorem unmapped_tail {e : MmapEntry} {es : List MmapEntry} (h : LowMap (e :: es))
    (ha : e.addr % pageSize = 0) (hun : ∀ y v w, MappedBy (e :: es) y w → ¬ D y v) :
    ∀ y v w, MappedBy es y w → ¬ (D y v ∨ e.Meets y ∧ v = ⟨!e.available, false⟩) := by
  rintro y v w ⟨e', he', ha', hm', -⟩ (hd | ⟨hm, -⟩)
  · exact hun y v ⟨!e'.available, false⟩ ⟨e', List.mem_cons_of_mem _ he', ha', hm', rfl⟩ hd
  · rw [MmapEntry.meets_iff ha] at hm
    rw [MmapEntry.meets_iff ha'] at hm'
    exact (List.pairwise_cons.mp h.disjoint).1 e' he' _ hm hm'

theorem unmapped_skip {e : MmapEntry} {es : List MmapEntry}
    (hun : ∀ y v w, MappedBy (e :: es) y w → ¬ D y v) :
    ∀ y v w, MappedBy es y w → ¬ D y v := by
  rintro y v w ⟨e', he', hrest⟩
  exact hun y v w ⟨e', List.mem_cons_of_mem _ he', hrest⟩

/-- The loop over the memory map. -/
theorem mapEntries_spec {es : List MmapEntry} (h : LowMap es) (M : MapsFrom t free₀ s₀ F D s)
    (hun : ∀ y v w, MappedBy es y w → ¬ D y v) :
    Mapping t free₀ s₀ (F ∪ tablesOf es) (fun y v => D y v ∨ MappedBy es y v)
      (mapEntries es s) := by
  induction es generalizing s D F with
  | nil =>
      refine .inr ⟨s, rfl, ?_⟩
      rw [tablesOf, Finset.union_empty]
      exact M.congr fun y v => by simp [MappedBy]
  | cons e es ih =>
      by_cases ha : e.addr % pageSize = 0
      · rw [mapEntries, if_neg (not_not.mpr ha), tablesOf, if_neg (not_not.mpr ha),
          ← Finset.union_assoc]
        refine ((mapEntry_spec h ha M hun).bind Finset.subset_union_left fun s' M' =>
          ih h.tail M' (unmapped_tail h ha hun)).imp_right ?_
        rintro ⟨s', hs', M'⟩
        refine ⟨s', hs', M'.congr fun y v => ?_⟩
        simp only [MappedBy, List.exists_mem_cons_iff, ha, true_and, or_assoc]
      · rw [mapEntries, if_pos ha, tablesOf, if_pos ha]
        refine (ih h.tail M (unmapped_skip hun)).imp_right ?_
        rintro ⟨s', hs', M'⟩
        refine ⟨s', hs', M'.congr fun y v => ?_⟩
        simp only [MappedBy, List.exists_mem_cons_iff, ha, false_and, false_or]

/-- The entry of the top-level table under which the kernel is mapped. -/
def kernSlot (root : Nat) : EntryRef := .slot (pageSize * root + 8 * 510)

/-- Storing into the top-level table, which is mapped. -/
theorem setRoot_eq {W B : Nat → Prop} {f : Nat} (V : Sees W B s) (hseen : W root)
    (hroot : root < 2 ^ 52) (hf : f < 512) (hpgt : s.pgt = Entry.word root f) {vaddr i : Nat}
    (hi : i < 512) (hoff : offset 4 vaddr = i) (e : Entry) :
    s.setRoot vaddr e = .ok (s.write (.slot (pageSize * root + 8 * i)) e) := by
  have hload : s.load .pgt = .ok (Entry.word root f) := congrArg Except.ok hpgt
  rw [setRoot, index_word 4 (by norm_num) hroot hf hload hoff hi, ok_bind]
  refine V.store ?_ e
  rwa [EntryRef.Seen, pgnum_slot root hi]

/-- A store into the top-level table leaves the tables below it alone. -/
theorem Holds.setRoot {T : PageTree} {free : List Nat} (H : Holds root .kern T free s) {i : Nat}
    (hi : i < 512) (e : Entry) :
    Holds root .kern T free (s.write (.slot (pageSize * root + 8 * i)) e) := by
  refine ⟨H.rooted, H.fits, H.inside, H.supply, H.nr_le, H.top_site, H.top_eq, ?_, H.inj, H.fresh,
    H.root_used, H.pgt_eq⟩
  intro l x p hp k hk
  rw [mem_write_of_not_inPage _ hk, H.words hp k hk]
  rintro ⟨j, hj, h⟩
  exact (H.fresh hp).2.1 (slot_inj hi hj (EntryRef.slot.inj h)).1.symm

/-- The tree under `kern_entry` hangs in the top-level table once the entry is
copied there. -/
theorem Holds.install {T : PageTree} {free : List Nat} (H : Holds root .kern T free s) :
    Holds root (kernSlot root) T free (s.write (kernSlot root) s.kern) := by
  have H' := H.setRoot (i := 510) (by norm_num) s.kern
  refine ⟨H'.rooted, H'.fits, H'.inside, H'.supply, H'.nr_le, .inr ⟨510, by norm_num, rfl⟩, ?_,
    H'.words, H'.inj, H'.fresh, H'.root_used, H'.pgt_eq⟩
  rw [read_write]
  exact H.top_eq

/-- The first entry of the top-level table is not needed at kernel addresses. -/
theorem BootView.clear_first {k : Nat} (V : BootView t k s) (hk : k ≤ 512) :
    BootView t k (s.write (.slot (pageSize * t.pml4 + 8 * 0)) 0#64) := by
  obtain ⟨h₁, h₂, -⟩ := t.distinct
  have hother : ∀ {q i}, i < 512 → ¬ (q = t.pml4 ∧ i = 0) →
      (s.write (.slot (pageSize * t.pml4 + 8 * 0)) 0#64).mem (pageSize * q + 8 * i) =
        s.mem (pageSize * q + 8 * i) := by
    intro q i hi hne
    refine write_mem_of_ne fun he => hne ?_
    obtain ⟨hq, h0⟩ := slot_inj (by norm_num) hi (EntryRef.slot.inj he)
    exact ⟨hq.symm, h0.symm⟩
  refine ⟨V.cr3_eq, ?_, fun i hi => ?_, fun i hi => ?_⟩
  · rw [hother (by norm_num) (by omega), V.kern_eq]
  · rw [hother hi (by omega), V.dirs i hi]
  · rw [hother (by omega) (by omega), V.leaves i hi]

/-- What `InitKernelPageTable` starts from: the boot tables are installed, and they
are not free. The pages lie below the gigabyte that the boot tables map to the first. -/
structure Ready (t : BootTables) (free : List Nat) (s : Paging) : Prop where
  boot : BootHeld t 512 s
  supply : MemPages.Supply s.pages free
  max_le : s.pages.maxPhy ≤ kernMaxMemory
  nr_le : s.pages.nrPageStructs ≤ 510 * 2 ^ 18
  apart : ∀ q ∈ t.pages, q ∉ free

theorem booted_ready {m : MemPages} {free : List Nat} (S : MemPages.Supply m free)
    (hmax : m.maxPhy ≤ kernMaxMemory) (hnr : m.nrPageStructs ≤ 510 * 2 ^ 18)
    (hapart : ∀ q ∈ bootTables.pages, q ∉ free) : Ready bootTables free (booted m) :=
  ⟨booted_held m, S, hmax, hnr, hapart⟩

/-- `InitKernelPageTable` has mapped exactly the pages that meet an aligned entry.
Its tables are the first free pages, and of the words in other pages it has changed
the first entry of the top-level table and the kernel's. -/
structure Built (t : BootTables) (es : List MmapEntry) (free : List Nat) (s s' : Paging)
    (T : PageTree) (taken free' : List Nat) : Prop where
  holds : Holds t.pml4 (kernSlot t.pml4) T free' s'
  inhabited : T.Inhabited 512 fun y => ∃ v, T.Mapped 512 y v
  mapped : ∀ y v, T.Mapped 512 y v ↔ MappedBy es y v
  cr3_eq : s'.cr3 = s'.pgt
  split : free = taken ++ free'
  tables : ∀ k x q, T k x = .table q → q ∈ taken
  low : ∀ p ∈ taken, BootView.Low p
  count : taken.length = tableCount es
  room : taken = [] ∨ free' ≠ []
  first : s'.mem (pageSize * t.pml4) = 0#64
  frame : ∀ a, pgnum a ∉ taken → a ≠ pageSize * t.pml4 → kernSlot t.pml4 ≠ .slot a →
    s'.mem a = s.mem a

/-- The loop starts with no table. -/
theorem Ready.start {free : List Nat} (R : Ready t free s) :
    MapsFrom t free { s with kern := 0#64 } ∅ (fun _ _ => False) { s with kern := 0#64 } := by
  have hpml4 : t.pml4 ∈ t.pages := List.mem_cons_self
  refine ⟨fun _ _ => .empty, [], free, ?_, nofun, fun y v => by simp [Radix.Mapped]⟩
  exact
    { holds := ⟨⟨fun h => absurd rfl h, fun h => absurd rfl h⟩, fun _ _ => ⟨nofun, nofun⟩,
        fun h => absurd rfl h, R.supply, R.nr_le.trans (by norm_num), .inl rfl, rfl, nofun, nofun,
        nofun, R.apart _ hpml4, ⟨0, by norm_num, R.boot.pgt_eq⟩⟩
      view := R.boot.toBootView.congr le_rfl rfl fun _ _ _ _ => rfl
      took := .refl _ _ _ _
      apart := R.apart
      bounded := fun p hp => (R.supply.bounded p hp).trans_le R.nr_le
      low := nofun
      nodes := by simp
      count := rfl
      room := .inl rfl }

/-- Behind the loop the first entry of the top-level table is cleared and the tree is hung under
`KERN_OFFSET`; the boot tables still map the top-level table for both writes. -/
theorem Building.setRoots {free₀ : List Nat} {s₀ : Paging} {T : PageTree} {taken free : List Nat}
    (U : Building t free₀ s₀ F T taken free s) :
    ∃ s', (s.setRoot 0 0#64 >>= fun s => s.setRoot kernOffset s.kern) = .ok s' ∧
      Holds t.pml4 (kernSlot t.pml4) T free s' ∧ s'.mem (pageSize * t.pml4) = 0#64 ∧
      ∀ a, a ≠ pageSize * t.pml4 → kernSlot t.pml4 ≠ .slot a → s'.mem a = s.mem a := by
  have hlow : BootView.Low t.pml4 := t.low.1.trans (by norm_num)
  have hroot : t.pml4 < 2 ^ 52 := t.low.1.trans (by norm_num)
  obtain ⟨f, hf, hpgt⟩ := U.holds.pgt_eq
  obtain ⟨s₁, h₁, H₁, V₁, hpgt₁, hmem₁⟩ : ∃ s₁, s.setRoot 0 0#64 = .ok s₁ ∧
      Holds t.pml4 .kern T free s₁ ∧ BootView t 512 s₁ ∧ s₁.pgt = Entry.word t.pml4 f ∧
      s₁.mem = (s.write (.slot (pageSize * t.pml4)) 0#64).mem :=
    ⟨_, setRoot_eq U.view.sees hlow hroot hf hpgt (i := 0) (by norm_num) (by decide) 0#64,
      U.holds.setRoot (by norm_num) 0#64, U.view.clear_first le_rfl, hpgt, rfl⟩
  have h₂ : s₁.setRoot kernOffset s₁.kern = .ok (s₁.write (kernSlot t.pml4) s₁.kern) :=
    setRoot_eq V₁.sees hlow hroot hf hpgt₁ (i := 510) (by norm_num) (by decide) s₁.kern
  refine ⟨_, by rw [h₁, ok_bind, h₂], H₁.install, ?_, fun a hfirst hkern => ?_⟩
  · have hne : kernSlot t.pml4 ≠ .slot (pageSize * t.pml4) := by
      rw [kernSlot, ne_eq, EntryRef.slot.injEq]
      omega
    calc (s₁.write (kernSlot t.pml4) s₁.kern).mem (pageSize * t.pml4)
        = s₁.mem (pageSize * t.pml4) := write_mem_of_ne hne
      _ = 0#64 := by
          rw [hmem₁]
          exact Function.update_self _ _ _
  · calc (s₁.write (kernSlot t.pml4) s₁.kern).mem a = s₁.mem a := write_mem_of_ne hkern
      _ = s.mem a := by
          rw [hmem₁, write_mem_of_ne]
          exact fun he => hfirst (EntryRef.slot.inj he).symm

theorem initKernelPageTable_from {es : List MmapEntry} (h : LowMap es) {free : List Nat}
    (R : Ready t free s) :
    Stopped free (tablesOf es) (initKernelPageTable es s) ∨
      ∃ s' T taken free', initKernelPageTable es s = .ok s' ∧
        Built t es free s s' T taken free' := by
  have hlim : ¬ s.pages.maxPhy > kernMaxMemory := Nat.not_lt.mpr R.max_le
  have hrun := mapEntries_spec h R.start fun _ _ _ _ => id
  rw [Finset.empty_union] at hrun
  have heq : initKernelPageTable es s = mapEntries es { s with kern := 0#64 } >>= fun s =>
      (s.setRoot 0 0#64 >>= fun s => s.setRoot kernOffset s.kern) >>= fun s =>
        .ok { s with cr3 := s.pgt } := by
    simp only [initKernelPageTable, hlim, if_false, bind_assoc]
    rfl
  rcases hrun with hstop | ⟨s₁, hok, T, taken, free₁, U, hin, hD⟩
  · left
    rw [heq]
    exact hstop.bind (Finset.Subset.refl _) _
  · right
    obtain ⟨s₂, h₂, H, hfirst, hmem⟩ := U.setRoots
    refine ⟨{ s₂ with cr3 := s₂.pgt }, T, taken, free₁, ?_, ?_⟩
    · rw [heq, hok, ok_bind, h₂, ok_bind]
    · exact
        { holds := ⟨H.rooted, H.fits, H.inside, H.supply, H.nr_le, H.top_site, H.top_eq,
            H.words, H.inj, H.fresh, H.root_used, H.pgt_eq⟩
          inhabited := hin
          mapped := fun y v => by rw [hD]; simp
          cr3_eq := rfl
          split := U.took.split
          tables := fun _ _ _ => U.mem_taken
          low := U.low
          count := U.count
          room := U.room
          first := hfirst
          frame := fun a ha h₀ hk =>
            (hmem a h₀ hk).trans (U.took.frame a ⟨nofun, fun _ _ => nofun⟩ ha) }

/-- What a call that returns has built. -/
theorem built_of_ok {es : List MmapEntry} (h : LowMap es) {free : List Nat} (R : Ready t free s)
    {s' : Paging} (hok : initKernelPageTable es s = .ok s') :
    ∃ T taken free', Built t es free s s' T taken free' := by
  rcases initKernelPageTable_from h R with hstop | ⟨s₁, T, taken, free', hs₁, K⟩
  · exact absurd hok (hstop.ne_ok s')
  · cases hs₁.symm.trans hok
    exact ⟨T, taken, free', K⟩

/-- A call that stops lacks a page of the first gigabyte. -/
theorem Stopped.not_supplies {α : Type} {free : List Nat} {m : MemPages} {out : Except Fault α}
    (h : Stopped free F out) (S : MemPages.Supply m free) :
    ¬ m.Supplies BootView.Low F.card := by
  rw [S.supplies_iff]
  rintro ⟨hlen, hlow⟩
  rcases h with ⟨-, hpos, hshort⟩ | ⟨-, p, hp, hhigh⟩
  · omega
  · exact hhigh (hlow p hp)

theorem Built.supplies {es : List MmapEntry} {free taken free' : List Nat} {s' : Paging}
    {T : PageTree} (K : Built t es free s s' T taken free') {m : MemPages}
    (S : MemPages.Supply m free) : m.Supplies BootView.Low (tableCount es) := by
  rw [S.supplies_iff, ← K.count, K.split, List.take_left, List.length_append]
  refine ⟨?_, K.low⟩
  rcases K.room with h | h
  · exact .inl (by rw [h]; rfl)
  · have := List.length_pos_of_ne_nil h
    omega

/-- `InitKernelPageTable` returns exactly if `AllocPage` supplies its tables from the
first gigabyte. -/
theorem initKernelPageTable_spec {es : List MmapEntry} (h : LowMap es) {free : List Nat}
    (R : Ready t free s) :
    ¬ s.pages.Supplies BootView.Low (tableCount es) ∧
        (∀ s', initKernelPageTable es s ≠ .ok s') ∨
      s.pages.Supplies BootView.Low (tableCount es) ∧
        ∃ s', initKernelPageTable es s = .ok s' ∧
          Maps t.pml4 (kernSlot t.pml4) (MappedBy es) s' ∧ s'.cr3 = s'.pgt := by
  rcases initKernelPageTable_from h R with hstop | ⟨s', T, taken, free', hok, K⟩
  · exact .inl ⟨hstop.not_supplies R.supply, hstop.ne_ok⟩
  · exact .inr ⟨K.supplies R.supply, s', hok, ⟨T, free', K.holds, K.inhabited, K.mapped⟩, K.cr3_eq⟩

end Paging

end Chestnut
