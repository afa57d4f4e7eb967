import Chestnut.Pages.Boot
import Chestnut.Paging.Kernel

/-!
# The processor's view of the kernel page table

What the four-level walk of x86-64 yields on the tables that
`InitKernelPageTable` builds, if it returns.
-/

namespace Chestnut

open Lib

namespace Paging

theorem leafFlags_lt (l : Nat) (c : Caching) : leafFlags l c < 512 := by
  rw [leafFlags]
  split <;> split <;> split <;> norm_num

/-- The bits of a leaf: present, writable, its caching flags, and huge above level 0. -/
theorem leaf_bits (l x : Nat) (c : Caching) :
    (encode l x (.leaf c)).getLsbD 0 = true ∧ (encode l x (.leaf c)).getLsbD 1 = true ∧
      (encode l x (.leaf c)).getLsbD 3 = c.wt ∧ (encode l x (.leaf c)).getLsbD 4 = c.cd ∧
      (encode l x (.leaf c)).getLsbD 7 = decide (l ≠ 0) := by
  have hbit : ∀ j < 12, (encode l x (.leaf c)).getLsbD j = (leafFlags l c).testBit j := by
    intro j hj
    rw [encode, Entry.word_getLsbD ((leafFlags_lt l c).trans (by norm_num)), if_pos hj,
      decide_eq_true (by omega), Bool.true_and]
  rw [hbit 0 (by norm_num), hbit 1 (by norm_num), hbit 3 (by norm_num), hbit 4 (by norm_num),
    hbit 7 (by norm_num), leafFlags]
  obtain ⟨wt, cd⟩ := c
  by_cases hl : l = 0 <;> cases wt <;> cases cd <;> simp only [hl, ne_eq] <;> decide

/-- A leaf of the tree translates the kernel addresses over its pages. -/
theorem leafAt_encode {l a : Nat} (hl : l < 3) (ha : a < 2 ^ 39) (c : Caching) :
    leafAt l (kernOffset + a) (encode l (a / pageSize / 512 ^ l) (.leaf c)) =
      ⟨a, true, c.wt⟩ := by
  have hf : leafFlags l c < 4096 := (leafFlags_lt l c).trans (by norm_num)
  have hle : a / pageSize / 512 ^ l * 512 ^ l ≤ a / pageSize := Nat.div_mul_le_self _ _
  have hlt : a / pageSize < 2 ^ 40 := by
    rw [pageSize]
    omega
  obtain ⟨-, hw, hwt, -⟩ := leaf_bits l (a / pageSize / 512 ^ l) c
  rw [leafAt, hw, hwt, encode, frame_word hl (by omega) hf]
  simp only [Translation.mk.injEq, and_true]
  rw [kernOffset, pageSize]
  obtain rfl | rfl | rfl : l = 0 ∨ l = 1 ∨ l = 2 := by omega
  all_goals
    norm_num
    omega

variable {s : Paging} {root : Nat} {top : EntryRef} {T : PageTree} {free : List Nat}

/-- The walk follows the tree. -/
theorem Holds.walkFrom_eq (H : Holds root top T free s) {a : Nat} (ha : a < 2 ^ 39) (l : Nat)
    (hl : l ≤ 3) :
    walkFrom s.mem (kernOffset + a) l
        (encode l (a / pageSize / 512 ^ l) (T l (a / pageSize / 512 ^ l))) =
      (T.find 512 (a / pageSize) l).map fun c => ⟨a, true, c.wt⟩ := by
  induction l with
  | zero =>
      rw [walkFrom, Radix.find]
      cases hn : T 0 (a / pageSize / 512 ^ 0) with
      | empty => simp [encode]
      | table p => exact absurd hn ((H.fits 0 _).1 rfl p)
      | leaf c =>
          rw [(leaf_bits _ _ c).1, if_pos rfl, leafAt_encode (by omega) ha]
          rfl
  | succ l ih =>
      rw [walkFrom, Radix.find]
      cases hn : T (l + 1) (a / pageSize / 512 ^ (l + 1)) with
      | empty => simp [encode]
      | leaf c =>
          have hlt : l < 2 := by
            by_contra hge
            exact (H.fits (l + 1) _).2 (by omega) c hn
          obtain ⟨hpres, -, -, -, hhuge⟩ := leaf_bits (l + 1) (a / pageSize / 512 ^ (l + 1)) c
          rw [hpres, hhuge, leafAt_encode (by omega) ha]
          simp [hlt]
      | table p =>
          have hp : p < 2 ^ 40 := (H.fresh hn).2.2.trans (by norm_num)
          have hword := H.words hn (a / pageSize / 512 ^ l % 512) (Nat.mod_lt _ (by norm_num))
          rw [Radix.div_pow_succ, Nat.div_add_mod] at hword
          have h₀ : (Entry.word p 3).getLsbD 0 = true := Entry.word_getLsbD (by norm_num) 0
          have h₁ : (Entry.word p 3).getLsbD 1 = true := Entry.word_getLsbD (by norm_num) 1
          have h₇ : (Entry.word p 3).getLsbD 7 = false := Entry.word_getLsbD (by norm_num) 7
          simp only [encode_table, h₀, h₁, h₇, frame_page hp (by norm_num : 3 < 4096),
            slotOf_kern (by omega : l < 3), hword, ih (by omega), Bool.not_true, Bool.false_and,
            Bool.false_eq_true, if_false, Bool.and_true, Option.map_id']

/-- A kernel address is canonical, and the walk starts in the table of the kernel. -/
theorem Holds.walk_root (H : Holds root (kernSlot root) T free s)
    (hcr3 : frame 0 s.cr3 = pageSize * root) {a : Nat} (ha : a < 2 ^ 39) :
    s.mem (frame 0 s.cr3 + 8 * slotOf 3 (kernOffset + a)) =
      encode 3 (a / pageSize / 512 ^ 3) (T 3 (a / pageSize / 512 ^ 3)) := by
  have hzero : a / pageSize / 512 ^ 3 = 0 := by
    rw [pageSize]
    omega
  rw [hcr3, slotOf_root ha, hzero]
  exact H.top_eq

/-- The walk of a kernel address yields the leaf over its page. -/
theorem Holds.walk_eq_some_iff (H : Holds root (kernSlot root) T free s)
    (hcr3 : frame 0 s.cr3 = pageSize * root) {a : Nat} (ha : a < 2 ^ 39) (t : Translation) :
    walk s.mem s.cr3 (kernOffset + a) = some t ↔
      ∃ c, T.Mapped 512 (a / pageSize) c ∧ t = ⟨a, true, c.wt⟩ := by
  rw [walk, if_pos (canonical (by omega)), H.walk_root hcr3 ha, H.walkFrom_eq ha 3 le_rfl,
    Option.map_eq_some_iff]
  constructor
  · rintro ⟨c, hfind, rfl⟩
    exact ⟨c, H.rooted.find_eq_some_iff.mp hfind, rfl⟩
  · rintro ⟨c, hm, rfl⟩
    exact ⟨c, H.rooted.find_eq_some_iff.mpr hm, rfl⟩

/-- The table in `pgt` starts at its page. -/
theorem Holds.frame_pgt (H : Holds root top T free s) (hroot : root < 2 ^ 40) :
    frame 0 s.pgt = pageSize * root := by
  obtain ⟨f, hf, hpgt⟩ := H.pgt_eq
  rw [hpgt, frame_page hroot (by omega)]

/-- The walk of a kernel address yields the mapping of its page. -/
theorem Maps.walk_eq_some_iff {D : Nat → Caching → Prop} (M : Maps root (kernSlot root) D s)
    (hroot : root < 2 ^ 40) (hcr3 : s.cr3 = s.pgt) {a : Nat} (ha : a < 2 ^ 39)
    (t : Translation) :
    walk s.mem s.cr3 (kernOffset + a) = some t ↔
      ∃ c, D (a / pageSize) c ∧ t = ⟨a, true, c.wt⟩ := by
  obtain ⟨T, free, H, -, hD⟩ := M
  rw [H.walk_eq_some_iff (hcr3 ▸ H.frame_pgt hroot) ha]
  simp only [hD]

/-- `InitKernelPageTable` returns exactly if `AllocPage` supplies its tables from the
first gigabyte; otherwise it follows the null page or faults. When it returns, a
kernel address translates to its physical address, writable, exactly when its page
meets an aligned entry of the map; it is write-through when that entry is not
available memory. -/
theorem walk_of_initKernelPageTable {es : List MmapEntry} {t : BootTables} (h : LowMap es)
    (R : Ready t free s) :
    (s.pages.Supplies BootView.Low (tableCount es) →
      ∃ s', initKernelPageTable es s = .ok s' ∧ ∀ a < 2 ^ 39,
        (∀ e ∈ es, e.addr % pageSize = 0 → e.Meets (a / pageSize) →
          walk s'.mem s'.cr3 (kernOffset + a) = some ⟨a, true, !e.available⟩) ∧
        ((∀ e ∈ es, e.addr % pageSize = 0 → ¬ e.Meets (a / pageSize)) →
          walk s'.mem s'.cr3 (kernOffset + a) = none)) ∧
    (¬ s.pages.Supplies BootView.Low (tableCount es) →
      initKernelPageTable es s = .error .nullDeref ∨
        initKernelPageTable es s = .error .pageFault) := by
  have hroot : t.pml4 < 2 ^ 40 := t.low.1.trans (by norm_num)
  rcases initKernelPageTable_from h R with hstop | ⟨s', T, taken, free', hok, K⟩
  · refine ⟨fun hsup => absurd hsup (hstop.not_supplies R.supply), fun _ => ?_⟩
    exact hstop.imp And.left And.left
  · refine ⟨fun _ => ⟨s', hok, fun a ha => ?_⟩, fun hno => absurd (K.supplies R.supply) hno⟩
    have M : Maps t.pml4 (kernSlot t.pml4) (MappedBy es) s' :=
      ⟨T, free', K.holds, K.inhabited, K.mapped⟩
    constructor
    · intro e he hal hm
      exact (M.walk_eq_some_iff hroot K.cr3_eq ha _).mpr
        ⟨⟨!e.available, false⟩, ⟨e, he, hal, hm, rfl⟩, rfl⟩
    · intro hno
      rw [Option.eq_none_iff_forall_ne_some]
      intro tr htr
      obtain ⟨wt, ⟨e, he, hal, hm, -⟩, -⟩ := (M.walk_eq_some_iff hroot K.cr3_eq ha tr).mp htr
      exact hno e he hal hm

/-- Available memory that takes a 2 MiB leaf and a 4 KiB one, a reserved part
of a page, and available memory that starts inside a page. -/
def mixedMap : List MmapEntry :=
  [.ofWords 0x200000 0x201000 1, .ofWords 0x1000 0x800 2, .ofWords 0x2800 0x1000 1]

theorem mixedMap_low : LowMap mixedMap := ⟨MmapEntry.disjoint_of_bounds (by decide), by decide⟩

theorem walk_of_initKernelPageTable_mixedMap :
    ∃ s', initKernelPageTable mixedMap (booted (MemPages.line 6)) = .ok s' ∧
      walk s'.mem s'.cr3 (kernOffset + 0x3ABCDE) = some ⟨0x3ABCDE, true, false⟩ ∧
      walk s'.mem s'.cr3 (kernOffset + 0x1900) = some ⟨0x1900, true, true⟩ ∧
      walk s'.mem s'.cr3 (kernOffset + 0x2800) = none := by
  have R := booted_ready (MemPages.line_freeList (n := 6) (by decide)).supply (by decide +kernel)
    (by decide +kernel) (by decide)
  have hcount : tableCount mixedMap = 4 := by decide +kernel
  obtain ⟨s', hs', hwalk⟩ := (walk_of_initKernelPageTable mixedMap_low R).1
    (by rw [hcount, R.supply.supplies_iff]; exact ⟨by decide, by decide⟩)
  refine ⟨s', hs', ?_, ?_, ?_⟩
  · exact (hwalk _ (by decide)).1 _ (List.mem_cons_self) (by decide) ⟨0x3ABCDE, rfl, by decide⟩
  · exact (hwalk _ (by decide)).1 (.ofWords 0x1000 0x800 2) (by decide) (by decide)
      ⟨0x1000, rfl, by decide⟩
  · refine (hwalk _ (by decide)).2 fun e he hal => ?_
    rw [MmapEntry.meets_iff hal]
    revert e
    decide

/-- Memory at 1 GiB, and then 13 MiB with the kernel and the page array in it. -/
def highMap : List MmapEntry := [.ofWords 0x40000000 0x4000 1, .ofWords 0x100000 0xD00000 1]

theorem highMap_low : LowMap highMap := ⟨MmapEntry.disjoint_of_bounds (by decide), by decide⟩

theorem highMap_aligned : AlignedMap highMap := by
  refine ⟨by decide, ?_⟩
  rw [List.filter_eq_self.mpr (by decide)]
  exact highMap_low.disjoint

/-- The free list of `highMap` starts with the pages of its first entry. -/
theorem highMap_freed (m : MemPages) (h : m.nrPageStructs = 0x40004) :
    ∃ rest, (MemPages.freed ⟨0x100000, 0x110000⟩ m (MemPages.visits highMap)).foldl
      MemPages.restring [] = 0x40000 :: rest ∧ 8 ≤ rest.length := by
  have hlist : ((MemPages.freed ⟨0x100000, 0x110000⟩ { nrPageStructs := 0x40004 }
      (MemPages.visits highMap)).foldl MemPages.restring []).take 9 =
        [0x40000, 0x40001, 0x40002, 0x40003, 0xD91, 0xD92, 0xD93, 0xD94, 0xD95] := by
    decide +kernel
  have hsame : MemPages.freed ⟨0x100000, 0x110000⟩ m (MemPages.visits highMap) =
      MemPages.freed ⟨0x100000, 0x110000⟩ { nrPageStructs := 0x40004 } (MemPages.visits highMap) :=
    MemPages.freed_congr h _ _
  rw [← hsame] at hlist
  obtain ⟨free, hfree⟩ : ∃ free, free = (MemPages.freed ⟨0x100000, 0x110000⟩ m
    (MemPages.visits highMap)).foldl MemPages.restring [] := ⟨_, rfl⟩
  rw [← hfree] at hlist ⊢
  have hlen := congrArg List.length hlist
  rw [List.length_take] at hlen
  cases free with
  | nil => cases hlist
  | cons p rest =>
      rw [List.take_succ_cons, List.cons.injEq] at hlist
      refine ⟨rest, by rw [hlist.1], ?_⟩
      simp only [List.length_cons, List.length_nil] at hlen
      omega

/-- With pages enough, but the first of them at 1 GiB, the call faults when it clears
its first table. -/
theorem initKernelPageTable_faults :
    LowMap highMap ∧ ∃ m, MemPages.init ⟨0x100000, 0x110000⟩ highMap {} = .ok m ∧
      m.Supplies (fun _ => True) (tableCount highMap) ∧
      initKernelPageTable highMap (booted m) = .error .pageFault := by
  refine ⟨highMap_low, ?_⟩
  obtain ⟨m, -, -, hinit, -, -⟩ := MemPages.init_aligned ⟨0x100000, 0x110000⟩ highMap_aligned
  obtain ⟨last, S, -, hnr, hmax⟩ := MemPages.init_strung hinit
  have hnr' : m.nrPageStructs = 0x40004 := hnr.trans (by decide)
  have hcount : tableCount highMap = 5 := by decide +kernel
  obtain ⟨rest, hfree, hlen⟩ := highMap_freed m hnr'
  rw [hfree] at S
  have R : Ready bootTables (0x40000 :: rest) (booted m) := by
    refine booted_ready S.supply (hmax.trans_le (by decide)) (by rw [hnr']; decide) ?_
    intro q hq hmem
    rw [← hfree] at hmem
    obtain ⟨a, -, hres, rfl⟩ := MemPages.mem_freed.mp
      ((MemPages.mem_foldl_restring hmem).resolve_left List.not_mem_nil)
    have hrange : 0x102 ≤ pgnum a ∧ pgnum a ≤ 0x104 := by
      have hbounds : ∀ q ∈ bootTables.pages, 0x102 ≤ q ∧ q ≤ 0x104 := by decide
      exact hbounds _ hq
    have hend : (KernelImage.kendPg ⟨0x100000, 0x110000⟩ + m.structTotSz) % u64Size = 0xD900C0 := by
      rw [MemPages.structTotSz, hnr']
      decide
    rw [MemPages.kernelReserved, hend, Bool.and_eq_false_iff, decide_eq_false_iff_not,
      decide_eq_false_iff_not] at hres
    have hstart : KernelImage.kstartPg ⟨0x100000, 0x110000⟩ = 0x100000 := by decide
    rw [hstart] at hres
    rw [pgnum, pageSize] at hrange
    omega
  refine ⟨m, hinit, ?_, ?_⟩
  · rw [S.supply.supplies_iff, hcount]
    exact ⟨.inr (by rw [List.length_cons]; omega), fun _ _ => trivial⟩
  · rcases initKernelPageTable_from highMap_low R with hstop | ⟨s', T, taken, free', hok, K⟩
    · rcases hstop with ⟨-, -, hshort⟩ | ⟨hfault, -⟩
      · rw [← tableCount, hcount, List.length_cons] at hshort
        omega
      · exact hfault
    · have hsup := K.supplies R.supply
      rw [R.supply.supplies_iff, hcount, List.take_succ_cons, List.forall_mem_cons] at hsup
      exact absurd hsup.2.1 (by decide)

end Paging

end Chestnut
