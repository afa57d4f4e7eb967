import Chestnut.Paging.Agree
import Chestnut.Paging.PageArray
import Chestnut.System.Memory

/-!
# The page tables over whole runs

From the boot on, heap calls, calls of `MapPage` and stores of callers may come
in any order. The tables stay apart from everything the heap hands out or keeps
free, a kernel address translates as the boot map and the `MapPage` calls say and
nothing else, and a block keeps what its owner stored. Only `MapPage` under a 1 GiB
leaf is left out, where the call overwrites memory.
-/

namespace Chestnut

open Lib

/-- The page lies in the kernel image, and that below 512 GiB. -/
structure KernelImage.HoldsPage (img : KernelImage) (p : Nat) : Prop where
  first : img.kstartPg ≤ pageSize * p
  last : pageSize * p < img.bssEnd
  low : img.bssEnd ≤ kernMaxMemory

namespace MemPages

variable {img : KernelImage} {es : List MmapEntry} {m : MemPages} {p : Nat}

/-- The image ends where the boot loader's pages start, or before. -/
theorem bssEnd_le_pgAlign (hpos : 0 < img.bssEnd) (hlow : img.bssEnd ≤ kernMaxMemory) :
    img.bssEnd ≤ pgAlign img.bssEnd ∧ img.kendPg = pgAlign img.bssEnd + 128 * pageSize := by
  have hmod : (img.bssEnd + u64Size - 1) % u64Size = img.bssEnd - 1 := by
    rw [kernMaxMemory] at hlow
    rw [u64Size]
    omega
  have halign : pgAlign img.bssEnd = (img.bssEnd - 1) / pageSize * pageSize + pageSize := by
    rw [pgAlign, hmod]
    simp only [pageSize, u64Size, kernMaxMemory] at hlow ⊢
    omega
  rw [KernelImage.kendPg, KernelImage.kBootLoaderSkipPages, halign]
  simp only [pageSize, u64Size, kernMaxMemory] at hlow ⊢
  omega

/-- Pages of the kernel image, and those behind it that are left to the boot loader, are not
free. -/
theorem init_reserved_not_free (hal : AlignedMap es) (hlow : LowMap es)
    (hbss : img.bssEnd ≤ kernMaxMemory) (hfirst : img.kstartPg ≤ pageSize * p)
    (hlast : pageSize * p < img.kendPg) (hinit : init img es {} = .ok m) : ¬ m.OnFreeList p := by
  obtain ⟨last, S, -, hnr, -⟩ := init_strung hinit
  rw [S.onFreeList_iff]
  intro hm
  obtain ⟨a, ha, hres, rfl⟩ := mem_freed.mp ((mem_foldl_restring hm).resolve_left List.not_mem_nil)
  have haddr : a = pageSize * pgnum a := by
    obtain ⟨e, he, hc, hv⟩ := mem_visits.mp ha
    obtain ⟨k, hk, -⟩ := MmapEntry.mem_visits.mp hv
    rw [MmapEntry.collected, Bool.and_eq_true] at hc
    have hstart := (hal.aligned e he hc.1).1
    rw [pgnum, pageSize] at *
    omega
  have hnr' : m.nrPageStructs ≤ kernMaxMemory / pageSize := by
    rw [hnr]
    exact Nat.div_le_div_right ((maxKernMem_le_maxStop es).trans (maxStop_le hlow))
  have hend : img.kendPg ≤ (img.kendPg + m.structTotSz) % u64Size := by
    have hkend := kendPg_le hbss
    have hsize : m.structTotSz ≤ sizeofPage * m.nrPageStructs := Nat.mod_le _ _
    simp only [sizeofPage, pageSize, u64Size, kernMaxMemory] at *
    omega
  rw [kernelReserved, Bool.and_eq_false_iff, decide_eq_false_iff_not,
    decide_eq_false_iff_not] at hres
  omega

/-- Pages of the kernel image are not free. -/
theorem init_image_not_free (hal : AlignedMap es) (hlow : LowMap es)
    (hp : img.HoldsPage p) (hinit : init img es {} = .ok m) : ¬ m.OnFreeList p := by
  obtain ⟨hbss, hkend⟩ := bssEnd_le_pgAlign (Nat.zero_lt_of_lt hp.last) hp.low
  refine init_reserved_not_free hal hlow hp.low hp.first ?_ hinit
  have := hp.last
  omega

end MemPages

namespace KernelWorld

variable {img : KernelImage} {es : List MmapEntry} {nodes : Links NodeRef}
variable {slab : Nat → SlabRec} {t : BootTables} {s : Paging} {root : Nat} {w₀ w w' : KernelWorld}
variable {calls : List Paging.MapCall}

/-- What the boot needs: whole pages in the available memory, disjoint entries below
512 GiB, the boot tables in the kernel image and installed, and a page array in the
gigabyte that they map. -/
structure Bootable (img : KernelImage) (es : List MmapEntry) (t : BootTables) (s : Paging) :
    Prop where
  aligned : AlignedMap es
  low : LowMap es
  tables : Paging.BootHeld t 512 s
  image : ∀ q ∈ t.pages, img.HoldsPage q
  array : img.kendPg + sizeofPage * (MemPages.maxKernMem es / pageSize) ≤ 2 ^ 30

/-- The allocator has a page left to hand out. -/
def PageLeft (w : KernelWorld) : Prop := ∃ p m, w.paging.pages.allocPage = .ok (.pg p, m)

/-- After `Init` the kernel page table can be built. -/
theorem Bootable.ready (B : Bootable img es t s) {m : MemPages}
    (hinit : MemPages.init img es {} = .ok m) :
    ∃ free, Paging.Ready t free { s with pages := m } ∧ ∀ p, m.OnFreeList p ↔ p ∈ free := by
  obtain ⟨-, -, -, hnr, -⟩ := MemPages.init_strung hinit
  refine Paging.ready_of_init (s := { s with pages := m }) B.low hinit (B.tables.withPages m) ?_ ?_
  · exact hnr ▸ B.array
  · exact fun q hq => MemPages.init_image_not_free B.aligned B.low (B.image q hq) hinit

/-- The pages that `Init` leaves are all mapped afterwards. -/
theorem Bootable.visible (B : Bootable img es t s) {m : MemPages} {free taken free' : List Nat}
    {s' : Paging} {T : PageTree} (hinit : MemPages.init img es {} = .ok m)
    (hon : ∀ p, m.OnFreeList p ↔ p ∈ free)
    (K : Paging.Built t es free { s with pages := m } s' T taken free') {p : Nat}
    (hp : p ∈ free') : Paging.Visible T p := by
  have hfree : m.OnFreeList p := (hon p).mpr (by
    rw [K.split]
    exact List.mem_append_right _ hp)
  obtain ⟨e, he, hal, hm⟩ := Paging.freeAligned_of_aligned hinit (fun e he hc => by
    rw [MmapEntry.collected, Bool.and_eq_true] at hc
    exact (B.aligned.aligned e he hc.1).1) p hfree
  exact ⟨(K.holds.supply.bounded p hp).trans_le K.holds.nr_le, _,
    (K.mapped p ⟨!e.available, false⟩).mpr ⟨e, he, hal, hm, rfl⟩⟩

/-- The boot establishes the invariant, with the tables of the memory map. -/
theorem boot_inv (B : Bootable img es t s) (hboot : boot img es nodes slab s = .ok w₀)
    (hleft : w₀.PageLeft) :
    ∃ G T, KernelInv t.pml4 G T w₀ ∧ ∀ y c, T.Mapped 512 y c ↔ MappedBy es y c := by
  obtain ⟨m, hinit, hboot⟩ := bind_ok hboot
  obtain ⟨s₁, htab, hret⟩ := bind_ok hboot
  cases hret
  obtain ⟨p₁, m₁, halloc⟩ := hleft
  have hdrawn := Paging.initKernelPageTable_drawn htab
  obtain ⟨free, F⟩ : ∃ free, MemPages.FreeList m free := by
    refine (MemPages.init_booted hinit (MemPages.visits_pages_nodup B.aligned)).resolve_right ?_
    intro hbare
    have hsame : s₁.pages = m := by
      refine hdrawn.inv (I := fun m' => m' = m) rfl ?_
      rintro m₂ ⟨⟩ m₃ rfl - hs
      rw [MemPages.drawPage, hbare.allocPage_eq] at hs
      cases hs
    have hnull : s₁.pages.allocPage = .ok (.null, s₁.pages) := by
      rw [hsame]
      exact hbare.allocPage_eq
    cases hnull.symm.trans halloc
  obtain ⟨free', F', -, -⟩ := F.drawn hdrawn
  have hlen : 2 ≤ free'.length := by
    by_contra hlt
    cases (F'.allocPage_null (by omega)).symm.trans halloc
  obtain ⟨free₀, R, hon⟩ := B.ready hinit
  obtain ⟨T, taken, free₁, K⟩ := Paging.built_of_ok B.low R htab
  obtain rfl := F'.supply_unique hlen K.holds.supply
  refine ⟨Ghost.initial free₁, T, ⟨?_, rfl, K.installed, ?_, ?_, fun p hp => ?_⟩, K.mapped⟩
  · exact (initSlab_inv F' nodes slab).1
  · refine if_neg fun hm => R.apart t.pml4 List.mem_cons_self ?_
    rw [K.split]
    exact List.mem_append_right _ hm
  · exact fun hp => if_neg (K.holds.fresh hp).1
  · refine B.visible hinit hon K ?_
    by_contra hnot
    exact hp (if_neg hnot)

/-- The worlds that allowed, completed steps lead to. -/
def Reachable (w₀ : KernelWorld) : KernelWorld → Prop := Reach step Allowed w₀

theorem Reachable.inv (hrun : Reachable w₀ w) (h : ∃ G T, KernelInv root G T w₀) :
    ∃ G T, KernelInv root G T w :=
  Reach.inv (I := fun w => ∃ G T, KernelInv root G T w) h
    (fun _ _ _ ⟨_, _, I⟩ ha hs => I.step ha hs) hrun

/-- A page of tables is apart from what the heap uses or may still hand out. -/
structure TablesApart (w : KernelWorld) : Prop where
  blocks : ∀ q, w.paging.TablePage q → ∀ b ∈ w.heap.blocks,
    Apart b.addr b.size (pageSize * q) pageSize
  records : ∀ q, w.paging.TablePage q → ∀ x, w.heap.Record x → pgnum x ≠ q
  free : ∀ q, w.paging.TablePage q → ¬ w.paging.pages.OnFreeList q

/-- What the heap uses is mapped at its kernel address. -/
structure HeapMapped (w : KernelWorld) : Prop where
  blocks : ∀ b ∈ w.heap.blocks, ∀ x, b.Covers x → w.paging.translate x = .ok x
  records : ∀ x, w.heap.Record x → w.paging.translate x = .ok x

/-- A page of tables is not a page of the heap. -/
theorem use_of_tablePage {G : Ghost} {T : PageTree} (I : KernelInv root G T w) {q : Nat}
    (hq : w.paging.TablePage q) : G.use q = .unmanaged := by
  rcases I.tables.table_of_tablePage hq with rfl | ⟨k, x, hk⟩
  · exact I.root_use
  · exact I.table_use hk

theorem tablesApart_of_inv {G : Ghost} {T : PageTree} (I : KernelInv root G T w) :
    w.TablesApart := by
  refine ⟨fun q hq b hb => ?_, fun q hq x hx he => ?_, fun q hq hfree => ?_⟩
  · refine apart_of_no_common (HeapWorld.size_pos I.heap hb) (by decide) fun x h₁ h₂ h₃ h₄ => ?_
    have he : pgnum x = q := by
      rw [pgnum]
      simp only [pageSize] at *
      omega
    exact (I.use_of_covers hb ⟨h₁, h₂⟩).1 (he ▸ use_of_tablePage I hq)
  · exact I.use_of_record hx (he ▸ use_of_tablePage I hq)
  · have hm : q ∈ G.free := (I.heap.pages.list.onFreeList_iff q).mp hfree
    rw [← I.heap.pages.free_iff, use_of_tablePage I hq] at hm
    cases hm

theorem heapMapped_of_inv {G : Ghost} {T : PageTree} (I : KernelInv root G T w) :
    w.HeapMapped :=
  ⟨fun _ hb _ hx => I.translate_eq (I.use_of_covers hb hx).1,
    fun _ hx => I.translate_eq (I.use_of_record hx)⟩

/-- Fourteen available pages, and the boot tables in memory that is mapped, too. -/
def smallMap : List MmapEntry := [.ofWords 0x1000 0xE000 1, .ofWords 0x102000 0x3000 2]

/-- A machine with this memory, whose kernel image starts at 1 MiB. -/
def smallBoot : Except Fault KernelWorld :=
  boot Paging.highImage smallMap ⟨fun x => x, fun x => x⟩ (fun _ => {}) (Paging.booted {})

theorem smallBoot_bootable :
    Bootable Paging.highImage smallMap Paging.bootTables (Paging.booted {}) := by
  have hlow : LowMap smallMap := ⟨MmapEntry.disjoint_of_bounds (by decide), by decide⟩
  refine ⟨⟨by decide, hlow.disjoint.sublist List.filter_sublist⟩, hlow, Paging.booted_held _, ?_,
    by decide⟩
  intro q hq
  simp only [BootTables.pages, Paging.bootTables, List.mem_cons, List.not_mem_nil, or_false] at hq
  rcases hq with rfl | rfl | rfl <;> exact ⟨by decide, by decide, by decide⟩

/-- The first block of 128 bytes on that machine. -/
def smallBlock : Block := .obj (.global .chunk128) 24448

/-- On that machine: a call of `MapPage` for a page of no memory, a request for 100
bytes, and a store to the block. -/
theorem smallBoot_run : ∃ w₀ w₁ w₂ w₃, smallBoot = .ok w₀ ∧ w₀.PageLeft ∧
    Steps step Allowed w₀ [(w₀, .mapPage ⟨0x10000, true, true⟩)] w₁ ∧
    Steps step Allowed w₁ [(w₁, .heap (.alloc 100) fun _ => 7#64)] w₂ ∧ w₂.heap.Held smallBlock ∧
    Steps step Allowed w₂ [(w₂, .store 24448 42#64)] w₃ ∧ w₃.heap.Held smallBlock := by
  obtain ⟨w₀, hboot, hrun⟩ := exists_of_okAnd (x := smallBoot)
    (p := fun w₀ => (okAnd w₀.paging.pages.allocPage fun r => r.1 == .pg 4) &&
      w₀.paging.leafOf 0x10000 == none &&
      okAnd (w₀.step (.mapPage ⟨0x10000, true, true⟩)) fun w₁ =>
        okAnd (w₁.heap.step (.alloc 100)) fun h => h.blocks == [smallBlock] &&
          decide (h.NoCacheAt 24448)) (by decide +kernel)
  simp only [Bool.and_eq_true, beq_iff_eq] at hrun
  obtain ⟨⟨hleft, hleaf⟩, hrun⟩ := hrun
  obtain ⟨⟨p, m⟩, halloc, hp⟩ := exists_of_okAnd hleft
  obtain rfl := beq_iff_eq.mp hp
  obtain ⟨w₁, hs₁, hrun⟩ := exists_of_okAnd hrun
  obtain ⟨h, hs₂, hrun⟩ := exists_of_okAnd hrun
  simp only [Bool.and_eq_true, beq_iff_eq, decide_eq_true_eq] at hrun
  obtain ⟨hblocks, hsite⟩ := hrun
  have hheld : h.Held smallBlock := ⟨by rw [hblocks]; exact List.mem_cons_self, hsite⟩
  have ha₁ : w₀.Allowed (.mapPage ⟨0x10000, true, true⟩) := by
    refine ⟨by decide, by decide, ?_⟩
    rintro ⟨e, he⟩
    rw [hleaf] at he
    cases he
  have h₁ : Steps step Allowed w₀ _ w₁ := .next .start ha₁ hs₁
  have ha₂ : w₁.Allowed (.heap (.alloc 100) fun _ => 7#64) :=
    ⟨by decide, by decide, fun h => by omega⟩
  obtain ⟨w₂, hw₂, hheap⟩ : ∃ w₂, w₁.step (.heap (.alloc 100) fun _ => 7#64) = .ok w₂ ∧
      w₂.heap = h := by
    rw [step, hs₂]
    exact ⟨_, rfl, rfl⟩
  rw [← hheap] at hheld
  have h₂ : Steps step Allowed w₁ _ w₂ := .next .start ha₂ hw₂
  obtain ⟨G, T, I, -⟩ := boot_inv smallBoot_bootable hboot ⟨4, m, halloc⟩
  obtain ⟨G', T', I'⟩ := Reachable.inv (h₁.trans h₂).reach ⟨G, T, I⟩
  have ha₃ : w₂.Allowed (.store 24448 42#64) :=
    ⟨by decide, smallBlock, hheld, by decide, by decide⟩
  exact ⟨w₀, w₁, w₂, _, hboot, ⟨4, m, halloc⟩, h₁, h₂, hheld,
    .next .start ha₃ (I'.store_ok ha₃).1, hheld⟩

/-- After the boot, in every world that heap calls, `MapPage` calls and stores lead
to, the heap is safe, the page tables are apart from every block, every record of the
heap and every free page, and they map every block and record. -/
theorem tables_apart_of_reachable (B : Bootable img es t s)
    (hboot : boot img es nodes slab s = .ok w₀) (hleft : w₀.PageLeft)
    (hrun : Reachable w₀ w) : w.heap.Safe ∧ w.TablesApart ∧ w.HeapMapped := by
  obtain ⟨G, T, I, -⟩ := boot_inv B hboot hleft
  obtain ⟨G', T', I'⟩ := hrun.inv ⟨G, T, I⟩
  exact ⟨HeapWorld.safe_of_inv I'.heap, tablesApart_of_inv I', heapMapped_of_inv I'⟩

theorem tables_apart_of_reachable_small :
    ∃ w₀ w : KernelWorld, smallBoot = .ok w₀ ∧ Reachable w₀ w ∧ w.heap.Held smallBlock ∧
      w.heap.Safe ∧ w.TablesApart ∧ w.HeapMapped := by
  obtain ⟨w₀, w₁, w₂, -, hboot, hleft, h₁, h₂, hheld, -⟩ := smallBoot_run
  have hrun := (h₁.trans h₂).reach
  exact ⟨w₀, w₂, hboot, hrun, hheld,
    tables_apart_of_reachable smallBoot_bootable hboot hleft hrun⟩

/-- The pages that are mapped after some `MapPage` calls, latest first, and their
caching flags: a later call replaces an earlier one and the boot map. -/
def mappedAfter (es : List MmapEntry) : List Paging.MapCall → Nat → Caching → Prop
  | [], y, c => MappedBy es y c
  | call :: calls, y, c =>
      if call.paddr / pageSize = y then c = ⟨call.writeThrough, call.cacheDisabled⟩
      else mappedAfter es calls y c

/-- The kernel addresses translate as `D` says. -/
structure Shows (D : Nat → Caching → Prop) (s : Paging) : Prop where
  walk_iff : ∀ a < 2 ^ 39, ∀ t, Paging.walk s.mem s.cr3 (kernOffset + a) = some t ↔
    ∃ c, D (a / pageSize) c ∧ t = ⟨a, true, c.wt⟩
  cacheDisabled : ∀ a < 2 ^ 39, ∀ c, D (a / pageSize) c →
    ∃ l e, s.leafOf a = some (l, e) ∧ e.getLsbD 4 = c.cd

namespace Shows

variable {D : Nat → Caching → Prop} {s s' : Paging} {T : PageTree} {free free' : List Nat}

/-- The tables show what the tree maps. -/
theorem of_installed (I : Paging.Installed root T free s)
    (hD : ∀ y c, T.Mapped 512 y c ↔ D y c) : Shows D s := by
  refine ⟨fun a ha t => ?_, fun a ha c hc => ?_⟩
  · rw [I.holds.walk_eq_some_iff I.cr3_eq ha]
    simp only [hD]
  · obtain ⟨l, hl⟩ := (hD _ c).mpr hc
    exact ⟨l, _, (I.holds.leafOf_eq_some_iff I.cr3_eq ha l _).mpr ⟨c, hl, rfl⟩,
      (Paging.leaf_bits l _ c).2.2.2.1⟩

/-- Where every kernel address translates as before, the same is shown. -/
theorem congr (h : Shows D s) (hsame : ∀ a < 2 ^ 39,
    Paging.walk s'.mem s'.cr3 (kernOffset + a) = Paging.walk s.mem s.cr3 (kernOffset + a) ∧
      s'.leafOf a = s.leafOf a) : Shows D s' := by
  refine ⟨fun a ha t => ?_, fun a ha c hc => ?_⟩
  · rw [(hsame a ha).1]
    exact h.walk_iff a ha t
  · rw [(hsame a ha).2]
    exact h.cacheDisabled a ha c hc

/-- A call of `MapPage` replaces what is shown of its page. -/
theorem mapPage (h : Shows (mappedAfter es calls) s) {call : Paging.MapCall}
    (M : Paging.MapsPage s s' call.paddr call.writeThrough call.cacheDisabled) :
    Shows (mappedAfter es (call :: calls)) s' := by
  constructor
  · intro a ha t
    by_cases hy : call.paddr / pageSize = a / pageSize
    · obtain ⟨hwalk, -⟩ := M.target a ha hy.symm
      simp only [mappedAfter, if_pos hy, exists_eq_left, hwalk, Option.some.injEq]
      exact eq_comm
    · simp only [mappedAfter, if_neg hy, (M.others a ha (Ne.symm hy)).1]
      exact h.walk_iff a ha t
  · intro a ha c hc
    by_cases hy : call.paddr / pageSize = a / pageSize
    · rw [mappedAfter, if_pos hy] at hc
      subst hc
      exact (M.target a ha hy.symm).2
    · rw [mappedAfter, if_neg hy] at hc
      rw [(M.others a ha (Ne.symm hy)).2]
      exact h.cacheDisabled a ha c hc

end Shows

/-- The `MapPage` calls of a history. -/
def mapCalls (tr : List (KernelWorld × KernelOp)) : List Paging.MapCall :=
  tr.filterMap fun e => e.2.mapCall

/-- What is shown after one more step. -/
theorem shows_step {G : Ghost} {T : PageTree} {calls : List Paging.MapCall} {op : KernelOp}
    (I : KernelInv root G T w) (h : Shows (mappedAfter es calls) w.paging) (ha : w.Allowed op)
    (hs : w.step op = .ok w') :
    Shows (mappedAfter es (op.mapCall.toList ++ calls)) w'.paging := by
  cases op with
  | heap op words =>
      obtain ⟨G', I', -⟩ := I.heap_step ha hs
      exact h.congr fun a ha => I.tables.translation_congr I'.tables ha fun _ _ => Iff.rfl
  | mapPage c =>
      obtain ⟨s, hmap, hret⟩ := bind_ok hs
      cases hret
      exact h.mapPage (I.tables.mapPage_ok ha hmap).2
  | store addr v =>
      obtain ⟨hok, I'⟩ := I.store_ok ha
      cases hok.symm.trans hs
      exact h.congr fun a ha => I.tables.translation_congr I'.tables ha fun _ _ => Iff.rfl

/-- After the boot and any run, a kernel address translates as the boot map says,
overwritten page by page by the `MapPage` calls of the run in their order. Heap
calls and stores do not matter. -/
theorem translation_of_run (B : Bootable img es t s)
    (hboot : boot img es nodes slab s = .ok w₀) (hleft : w₀.PageLeft)
    {tr : List (KernelWorld × KernelOp)} (hrun : Steps step Allowed w₀ tr w) :
    Shows (mappedAfter es (mapCalls tr)) w.paging := by
  obtain ⟨G, T, I, hmap⟩ := boot_inv B hboot hleft
  refine (hrun.inv (I := fun tr w => (∃ G T, KernelInv t.pml4 G T w) ∧
    Shows (mappedAfter es (mapCalls tr)) w.paging)
    ⟨⟨G, T, I⟩, .of_installed I.tables hmap⟩ ?_).2
  rintro tr w op w' ⟨⟨G, T, I⟩, h⟩ ha hs
  refine ⟨I.step ha hs, ?_⟩
  have hstep := shows_step I h ha hs
  cases op <;> exact hstep

/-- The page of no memory is mapped by the call, uncached and write-through. -/
theorem translation_of_run_small :
    ∃ w₀ w : KernelWorld, smallBoot = .ok w₀ ∧ Reachable w₀ w ∧
      Paging.walk w.mem w.cr3 (kernOffset + 0x10123) = some ⟨0x10123, true, true⟩ := by
  obtain ⟨w₀, w₁, w₂, w₃, hboot, hleft, h₁, h₂, -, h₃, -⟩ := smallBoot_run
  have hrun := (h₁.trans h₂).trans h₃
  have hshow := translation_of_run smallBoot_bootable hboot hleft hrun
  refine ⟨w₀, w₃, hboot, hrun.reach,
    (hshow.walk_iff 0x10123 (by decide) _).mpr ⟨⟨true, true⟩, ?_, rfl⟩⟩
  have hpage : 0x10000 / pageSize = 0x10123 / pageSize := by decide
  exact (if_pos hpage).mpr rfl

/-- The value a word has after a history, latest step first, if only stores to it
change it. -/
def lastStore (a : Nat) (v : Entry) : List (KernelWorld × KernelOp) → Entry
  | [] => v
  | (_, .store a' v') :: tr => if a' = a then v' else lastStore a v tr
  | _ :: tr => lastStore a v tr

/-- One step changes a word of a block, held before and after it, only by a store to
the word. -/
theorem mem_step {G : Ghost} {T : PageTree} {b : Block} {op : KernelOp} {a : Nat}
    (I : KernelInv root G T w) (hb : w.heap.Held b) (hin : b.Covers a) (ha : w.Allowed op)
    (hs : w.step op = .ok w') (hb' : w'.heap.Held b) :
    w'.mem a = lastStore a (w.mem a) [(w, op)] := by
  cases op with
  | heap op words =>
      obtain ⟨G', I', hmem⟩ := I.heap_step ha hs
      exact hmem a (fun hrec => HeapWorld.not_covers_of_record I.heap hb hrec hin)
        fun hrec => HeapWorld.not_covers_of_record I'.heap hb' hrec hin
  | mapPage c =>
      obtain ⟨hne, hnf⟩ := I.use_of_covers hb.1 hin
      obtain ⟨G', T', taken, -, K⟩ := I.mapPage_step ha hs
      refine K.frame a (I.offTables hne) fun hm => hnf ?_
      rw [I.heap.pages.free_iff, K.split]
      exact List.mem_append_left _ hm
  | store addr v =>
      cases (I.store_ok ha).1.symm.trans hs
      by_cases he : addr = a
      · subst he
        simp [lastStore]
      · simp [lastStore, he, Function.update_of_ne (Ne.symm he)]

/-- While a caller holds a block, every word of it has the value that was stored
there last, whatever heap calls, `MapPage` calls and other stores come in between. -/
theorem block_keeps_stores (B : Bootable img es t s)
    (hboot : boot img es nodes slab s = .ok w₀) (hleft : w₀.PageLeft)
    {w₁ : KernelWorld} (hw₁ : Reachable w₀ w₁) {tr : List (KernelWorld × KernelOp)}
    (hrun : Steps step Allowed w₁ tr w) {b : Block} (hheld : ∀ e ∈ tr, e.1.heap.Held b)
    (hend : w.heap.Held b) {a : Nat} (hin : b.Covers a) :
    w.mem a = lastStore a (w₁.mem a) tr ∧ w.paging.translate a = .ok a := by
  obtain ⟨G, T, I, -⟩ := boot_inv B hboot hleft
  have hinv := hw₁.inv ⟨G, T, I⟩
  obtain ⟨G', T', I'⟩ := Reachable.inv hrun.reach hinv
  refine ⟨?_, I'.translate_eq (I'.use_of_covers hend.1 hin).1⟩
  have h := hrun.inv (I := fun tr w => (∃ G T, KernelInv t.pml4 G T w) ∧
    ((∀ e ∈ tr, e.1.heap.Held b) → w.heap.Held b → w.mem a = lastStore a (w₁.mem a) tr))
    ⟨hinv, fun _ _ => rfl⟩ ?_
  · exact h.2 hheld hend
  · rintro tr w op w' ⟨⟨G, T, I⟩, ih⟩ ha hs
    refine ⟨I.step ha hs, fun hheld hend => ?_⟩
    have hb := hheld _ List.mem_cons_self
    rw [mem_step I hb hin ha hs hend, ih (fun e he => hheld e (List.mem_cons_of_mem _ he)) hb]
    cases op <;> rfl

theorem block_keeps_stores_small :
    ∃ w₀ w : KernelWorld, smallBoot = .ok w₀ ∧ Reachable w₀ w ∧ w.mem 24448 = 42#64 := by
  obtain ⟨w₀, w₁, w₂, w₃, hboot, hleft, h₁, h₂, hb₂, h₃, hb₃⟩ := smallBoot_run
  have hrun := h₁.trans h₂
  have hkeep := block_keeps_stores smallBoot_bootable hboot hleft hrun.reach h₃ (b := smallBlock)
    (by simpa using hb₂) hb₃ (a := 24448) ⟨by decide, by decide⟩
  exact ⟨w₀, w₃, hboot, (hrun.trans h₃).reach, hkeep.1⟩

end KernelWorld

end Chestnut
