import Chestnut.Paging.Agree

/-!
# The address space after boot

`boot.asm` maps the first gigabyte twice, at its own address and at the kernel's,
so that the code survives the switch to paging. `InitKernelPageTable` hangs new
tables under the kernel's entry and clears the entry of the low half. From then on
the kernel window is all there is: a null pointer, or any other address outside it,
no longer translates.
-/

namespace Chestnut

open Lib

namespace Paging

variable {t : BootTables} {s s₁ s₂ : Paging} {es : List MmapEntry} {m : MemPages}
variable {img : KernelImage}

/-- Under the boot tables the first gigabyte is mapped at its own address, too. -/
theorem BootHeld.walk_low (B : BootHeld t 512 s) {a : Nat} (ha : a < 2 ^ 30) :
    walk s.mem s.cr3 a = some ⟨a, false, false⟩ := by
  obtain ⟨hp4, hp3, hp2⟩ := t.low
  have hroot : slotOf 3 a = 0 := by
    rw [slotOf]
    norm_num
    omega
  have hdir : slotOf 2 a = 0 := by
    rw [slotOf]
    norm_num
    omega
  have hleaf : slotOf 1 a = a / 2 ^ 21 := by
    rw [slotOf]
    norm_num
    omega
  have haddr : 2 ^ 21 * (a / 2 ^ 21) + a % 2 ^ 21 = a := Nat.div_add_mod a (2 ^ 21)
  rw [walk, if_pos (.inl (by omega)), B.cr3_eq, frame_page (by omega) (by norm_num), hroot,
    B.roots 0 (by norm_num), if_pos (.inl rfl), walkFrom_table _ _ _ (by omega), hdir,
    B.dirs 0 (by norm_num), if_pos (.inl rfl), walkFrom_table _ _ _ (by omega), hleaf,
    B.leaves _ (by omega), walkFrom_large _ _ (by omega), haddr]
  rfl

/-- An address of the kernel window, by its entry of the top-level table. -/
theorem slotOf_root_eq_iff {va : Nat} (hva : va < 2 ^ 47 ∨ 2 ^ 64 - 2 ^ 47 ≤ va ∧ va < 2 ^ 64) :
    slotOf 3 va = 510 ↔ ∃ a < 2 ^ 39, va = kernOffset + a := by
  rw [slotOf, kernOffset]
  constructor
  · intro h
    refine ⟨va - 0xFFFFFF0000000000, ?_, ?_⟩ <;> norm_num at h ⊢ <;> omega
  · rintro ⟨a, ha, rfl⟩
    norm_num
    omega

/-- From the boot code to `InitKernelPageTable`: before, the first gigabyte is mapped
at its own address; afterwards an address translates exactly if it is the kernel
address of a page that meets an aligned entry of the memory map. -/
theorem walk_iff_kernel_address (hz : Unset t s) (h : LowMap es)
    (hboot : initBootPageTable (setupPaging t s) = .ok s₁)
    (hinit : MemPages.init img es {} = .ok m)
    (harray : img.kendPg + sizeofPage * m.nrPageStructs ≤ 2 ^ 30)
    (hfree : ∀ q ∈ t.pages, ¬ m.OnFreeList q)
    (hkern : initKernelPageTable es { s₁ with pages := m } = .ok s₂) :
    (∀ a < 2 ^ 30, walk s₁.mem s₁.cr3 a = some ⟨a, false, false⟩) ∧
      ∀ va < 2 ^ 64, ∀ tr, walk s₂.mem s₂.cr3 va = some tr ↔
        ∃ a < 2 ^ 39, va = kernOffset + a ∧
          ∃ c, MappedBy es (a / pageSize) c ∧ tr = ⟨a, true, c.wt⟩ := by
  obtain ⟨s', hs', B, -⟩ := initBootPageTable_held hz
  cases hs'.symm.trans hboot
  refine ⟨fun a ha => B.walk_low ha, fun va hva tr => ?_⟩
  obtain ⟨free, R, -⟩ := ready_of_init (s := { s₁ with pages := m }) h hinit (B.withPages m) harray
    hfree
  obtain ⟨T, taken, free', K⟩ := built_of_ok h R hkern
  have hroot : t.pml4 < 2 ^ 40 := t.low.1.trans (by norm_num)
  have hcr : frame 0 s₂.cr3 = pageSize * t.pml4 := K.cr3_eq ▸ K.holds.frame_pgt hroot
  by_cases hcanon : va < 2 ^ 47 ∨ 2 ^ 64 - 2 ^ 47 ≤ va ∧ va < 2 ^ 64
  · by_cases hwin : slotOf 3 va = 510
    · obtain ⟨a, ha, rfl⟩ := (slotOf_root_eq_iff hcanon).mp hwin
      rw [K.holds.walk_eq_some_iff hcr ha]
      simp only [K.mapped, Nat.add_left_cancel_iff]
      constructor
      · exact fun hc => ⟨a, ha, rfl, hc⟩
      · rintro ⟨a', -, rfl, hc⟩
        exact hc
    · -- every other entry of the top-level table is clear
      have hlt : slotOf 3 va < 512 := Nat.mod_lt _ (by norm_num)
      have hclear : s₂.mem (pageSize * t.pml4 + 8 * slotOf 3 va) = 0#64 := by
        by_cases h0 : slotOf 3 va = 0
        · rw [h0]
          exact K.first
        · refine (K.frame _ ?_ (by omega) ?_).trans ?_
          · rw [pgnum_slot _ hlt]
            intro hm
            refine R.apart t.pml4 List.mem_cons_self ?_
            rw [K.split]
            exact List.mem_append_left _ hm
          · rw [kernSlot, ne_eq, EntryRef.slot.injEq]
            omega
          · have := B.roots _ hlt
            rwa [if_neg (by omega)] at this
      rw [walk, if_pos hcanon, hcr, hclear, walkFrom_zero]
      refine iff_of_false (by simp) ?_
      rintro ⟨a, ha, rfl, -⟩
      exact hwin (slotOf_root ha)
  · rw [walk, if_neg hcanon]
    refine iff_of_false (by simp) ?_
    rintro ⟨a, ha, rfl, -⟩
    exact hcanon (canonical (by omega))

/-- With six free pages, address 0 is mapped before and no longer afterwards. -/
theorem walk_iff_kernel_address_alignedMap :
    ∃ m s₁ s₂, MemPages.init highImage alignedMap {} = .ok m ∧
      initBootPageTable (setupPaging bootTables blank) = .ok s₁ ∧
      initKernelPageTable alignedMap { s₁ with pages := m } = .ok s₂ ∧
      walk s₁.mem s₁.cr3 0 = some ⟨0, false, false⟩ ∧ walk s₂.mem s₂.cr3 0 = none := by
  have hz : Unset bootTables blank := fun _ _ _ _ => rfl
  obtain ⟨s₁, hboot, B, -⟩ := initBootPageTable_held hz
  obtain ⟨m, hinit, hnr, hfree, hsup⟩ := alignedMap_init
  obtain ⟨free, R, -⟩ := ready_of_init (s := { s₁ with pages := m }) alignedMap_low hinit
    (B.withPages m) hnr hfree
  obtain ⟨-, s₂, hkern, -⟩ := (initKernelPageTable_spec alignedMap_low R).resolve_left
    fun h => h.1 hsup
  obtain ⟨hlow, hiff⟩ := walk_iff_kernel_address hz alignedMap_low hboot hinit hnr hfree hkern
  refine ⟨m, s₁, s₂, hinit, hboot, hkern, hlow 0 (by decide), ?_⟩
  rw [Option.eq_none_iff_forall_ne_some]
  intro tr htr
  obtain ⟨a, -, ha, -⟩ := (hiff 0 (by decide) tr).mp htr
  rw [kernOffset] at ha
  omega

end Paging

end Chestnut
