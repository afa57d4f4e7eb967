import Chestnut.Paging.Sight

/-!
# The boot page table

`boot.asm` leaves three tables behind that map the first 8 MiB, and
`InitBootPageTable` fills the last of them with 512 leaves of 2 MiB. A kernel
address then translates to its physical address exactly below 1 GiB.
-/

namespace Chestnut

open Lib

/-- The pages of the three tables of `boot.asm`, as the linker places them: in the
8 MiB that `boot.asm` maps. -/
structure BootTables where
  pml4 : Nat
  pdpt : Nat
  pd : Nat
  low : pml4 < 2 ^ 11 ∧ pdpt < 2 ^ 11 ∧ pd < 2 ^ 11
  distinct : pml4 ≠ pdpt ∧ pml4 ≠ pd ∧ pdpt ≠ pd

def BootTables.pages (t : BootTables) : List Nat := [t.pml4, t.pdpt, t.pd]

namespace Paging

/-- One 64-bit store of `SetupPagingAndLongMode`, to entry `i` of the page `p`.
Paging is still off. -/
def storeEntry (p i : Nat) (e : Entry) (s : Paging) : Paging :=
  s.write (.slot (pageSize * p + 8 * i)) e

/-- `SetupPagingAndLongMode`. -/
def setupPaging (t : BootTables) (s : Paging) : Paging :=
  let table (p : Nat) : Entry := Entry.setPresent true (BitVec.ofNat 64 (pageSize * p))
  let s := storeEntry t.pml4 0 (table t.pdpt) s
  let s := storeEntry t.pml4 510 (table t.pdpt) s
  let s := storeEntry t.pdpt 0 (table t.pd) s
  let s := storeEntry t.pdpt 510 (table t.pd) s
  let s := storeEntry t.pd 0 0x000083#64 s
  let s := storeEntry t.pd 1 0x200083#64 s
  let s := storeEntry t.pd 2 0x400083#64 s
  let s := storeEntry t.pd 3 0x600083#64 s
  { s with cr3 := BitVec.ofNat 64 (pageSize * t.pml4) }

/-- The loop of `InitBootPageTable`, with `steps` passes to go. No level is
allocated: the tables are those of `boot.asm`. -/
def bootLoop : (steps baseAddr : Nat) → Paging → Except Fault Paging
  | 0, _, s => .ok s
  | steps + 1, baseAddr, s => do
      let vaddr := (kernOffset + baseAddr) % u64Size
      let entry := Entry.setHuge true (Entry.ofPaddr baseAddr)
      let entry := Entry.setReadWrite true (Entry.setPresent true entry)
      let r ← s.index 4 .pgt vaddr
      let r ← s.index 3 r vaddr
      let r ← s.index 2 r vaddr
      let s ← s.store r entry
      bootLoop steps (baseAddr + largePageSize) s

/-- `InitBootPageTable`: the constructor of `PageTable` reads `cr3`. -/
def initBootPageTable (s : Paging) : Except Fault Paging :=
  bootLoop 512 0 { s with pgt := s.cr3 }

/-- The tables hold no entry yet. -/
def Unset (t : BootTables) (s : Paging) : Prop :=
  ∀ p ∈ [t.pml4, t.pdpt], ∀ i < 512, s.mem (pageSize * p + 8 * i) = 0#64

/-- The tables of `boot.asm` are installed at kernel addresses, with `k` leaves. -/
structure BootView (t : BootTables) (k : Nat) (s : Paging) : Prop where
  cr3_eq : s.cr3 = Entry.word t.pml4 0
  kern_eq : s.mem (pageSize * t.pml4 + 8 * 510) = Entry.word t.pdpt 1
  dirs : ∀ i < 512, s.mem (pageSize * t.pdpt + 8 * i) =
    if i = 0 ∨ i = 510 then Entry.word t.pd 1 else 0#64
  leaves : ∀ i < k, s.mem (pageSize * t.pd + 8 * i) = Entry.word (512 * i) 0x83

/-- Besides, `kernel_pgt` is their top-level table, which has one other entry. -/
structure BootHeld (t : BootTables) (k : Nat) (s : Paging) : Prop extends BootView t k s where
  pgt_eq : s.pgt = Entry.word t.pml4 0
  roots : ∀ i < 512, s.mem (pageSize * t.pml4 + 8 * i) =
    if i = 0 ∨ i = 510 then Entry.word t.pdpt 1 else 0#64

section Walk

variable {t : BootTables} {s s' : Paging} {p q i j k : Nat} {e : Entry}

theorem walkFrom_zero (mem : Nat → Entry) (va l : Nat) : walkFrom mem va l 0#64 = none := by
  cases l <;> rfl

/-- A table of `boot.asm` is followed; its entry does not allow writes. -/
theorem walkFrom_table (mem : Nat → Entry) (va l : Nat) (hp : p < 2 ^ 40) :
    walkFrom mem va (l + 1) (Entry.word p 1) =
      (walkFrom mem va l (mem (pageSize * p + 8 * slotOf l va))).map fun t =>
        { t with writable := false } := by
  have h₀ : (Entry.word p 1).getLsbD 0 = true := Entry.word_getLsbD (by norm_num) 0
  have h₁ : (Entry.word p 1).getLsbD 1 = false := Entry.word_getLsbD (by norm_num) 1
  have h₇ : (Entry.word p 1).getLsbD 7 = false := Entry.word_getLsbD (by norm_num) 7
  simp only [walkFrom, h₀, h₁, h₇, frame_page hp (by norm_num : 1 < 4096), Bool.not_true,
    Bool.false_and, Bool.and_false, Bool.false_eq_true, if_false]

/-- A leaf of `InitBootPageTable` ends the walk. -/
theorem walkFrom_large (mem : Nat → Entry) (va : Nat) (hi : i < 512) :
    walkFrom mem va 1 (Entry.word (512 * i) 0x83) =
      some ⟨2 ^ 21 * i + va % 2 ^ 21, true, false⟩ := by
  have hbit : ∀ j < 12, (Entry.word (512 * i) 0x83).getLsbD j = (0x83).testBit j := by
    intro j hj
    rw [Entry.word_getLsbD (by norm_num), if_pos hj, decide_eq_true (by omega), Bool.true_and]
  have hframe : frame 1 (Entry.word (512 * i) 0x83) = 2 ^ 21 * i := by
    have h := frame_word (l := 1) (x := i) (f := 0x83) (by norm_num) (by omega) (by norm_num)
    rw [pow_one, Nat.mul_comm i, pageSize] at h
    rw [h]
    omega
  simp only [walkFrom, leafAt, hbit 0 (by norm_num), hbit 1 (by norm_num), hbit 3 (by norm_num),
    hbit 7 (by norm_num), hframe]
  rfl

theorem canonical {a : Nat} (ha : a < 2 ^ 40) :
    kernOffset + a < 2 ^ 47 ∨ 2 ^ 64 - 2 ^ 47 ≤ kernOffset + a ∧ kernOffset + a < 2 ^ 64 := by
  rw [kernOffset]
  omega

namespace BootView

/-- Under the boot tables a kernel address leads into the first gigabyte or
nowhere: two entries of the second level share the leaves. -/
theorem walk_eq (V : BootView t k s) {a : Nat} (ha : a < 2 ^ 39) (hk : a / 2 ^ 21 % 512 < k) :
    walk s.mem s.cr3 (kernOffset + a) =
      if a / 2 ^ 30 = 0 ∨ a / 2 ^ 30 = 510 then some ⟨a % 2 ^ 30, false, false⟩ else none := by
  obtain ⟨hp4, hp3, hp2⟩ := t.low
  have hdir : slotOf 2 (kernOffset + a) = a / 2 ^ 30 := by
    rw [slotOf_kern (by norm_num), pageSize]
    omega
  have hleaf : slotOf 1 (kernOffset + a) = a / 2 ^ 21 % 512 := by
    rw [slotOf_kern (by norm_num), pageSize]
    omega
  rw [walk, if_pos (canonical (by omega)), V.cr3_eq, frame_page (by omega) (by norm_num),
    slotOf_root ha, V.kern_eq, walkFrom_table _ _ _ (by omega), hdir, V.dirs _ (by omega)]
  split
  · have haddr : 2 ^ 21 * (a / 2 ^ 21 % 512) + (kernOffset + a) % 2 ^ 21 = a % 2 ^ 30 := by
      rw [kernOffset]
      norm_num
      omega
    rw [walkFrom_table _ _ _ (by omega), hleaf, V.leaves _ hk, walkFrom_large _ _ (by omega), haddr]
    rfl
  · rw [walkFrom_zero]
    rfl

/-- The leaves map what is below their end. -/
theorem translate_low (V : BootView t k s) (hk : k ≤ 512) {a : Nat} (ha : a < 2 ^ 21 * k) :
    s.translate a = .ok a := by
  have hw := V.walk_eq (a := a) (by omega) (by omega)
  rw [if_pos (by omega), Nat.mod_eq_of_lt (by omega), ← kernel_address (by omega)] at hw
  exact translate_of_walk hw

/-- The tables of `boot.asm` are mapped by their own leaves. -/
theorem sees_low (V : BootView t k s) (h4 : 4 ≤ k) (hk : k ≤ 512) :
    Sees (· < 2 ^ 11) (fun _ => False) s := by
  refine ⟨fun a ha => V.translate_low hk ?_, nofun⟩
  rw [pgnum, pageSize] at ha
  omega

/-- A page of the first gigabyte. -/
def Low (p : Nat) : Prop := p < 2 ^ 18

instance : DecidablePred Low := fun p => inferInstanceAs (Decidable (p < 2 ^ 18))

/-- A page above it. The 510th gigabyte is left out, which shares the leaves of the
first. -/
def High (p : Nat) : Prop := 2 ^ 18 ≤ p ∧ p < 510 * 2 ^ 18

/-- The boot tables map exactly the first gigabyte. -/
theorem sees (V : BootView t 512 s) : Sees Low High s := by
  refine ⟨fun a ha => V.translate_low le_rfl ?_, fun a ha => ?_⟩
  · rw [Low, pgnum, pageSize] at ha
    omega
  · rw [High, pgnum, pageSize] at ha
    have hw := V.walk_eq (a := a) (by omega) (by omega)
    rw [if_neg (by omega), ← kernel_address (by omega)] at hw
    exact translate_of_walk_none hw

/-- Only the tables themselves matter. -/
theorem congr (V : BootView t k s) (hk : k ≤ 512) (hcr3 : s'.cr3 = s.cr3)
    (h : ∀ q ∈ t.pages, ∀ i < 512, s'.mem (pageSize * q + 8 * i) = s.mem (pageSize * q + 8 * i)) :
    BootView t k s' := by
  have hpages : t.pml4 ∈ t.pages ∧ t.pdpt ∈ t.pages ∧ t.pd ∈ t.pages := by
    simp [BootTables.pages]
  obtain ⟨h₄, h₃, h₂⟩ := hpages
  refine ⟨hcr3.trans V.cr3_eq, ?_, fun i hi => ?_, fun i hi => ?_⟩
  · rw [h _ h₄ _ (by norm_num), V.kern_eq]
  · rw [h _ h₃ _ hi, V.dirs i hi]
  · rw [h _ h₂ _ (by omega), V.leaves i hi]

theorem write (V : BootView t k s) (hk : k ≤ 512) {r : EntryRef}
    (hr : ∀ q ∈ t.pages, ¬ r.InPage q) (e : Entry) : BootView t k (s.write r e) :=
  V.congr hk (write_cr3 s r e) fun q hq _ hi => mem_write_of_not_inPage (hr q hq) hi

theorem clear (V : BootView t k s) (hk : k ≤ 512) (hp : p ∉ t.pages) :
    BootView t k (s.clear (pageSize * p)) :=
  V.congr hk rfl fun _ hq _ hi => clear_mem_of_ne hi fun h => hp (h ▸ hq)

/-- Hanging a table elsewhere does not concern the boot tables. -/
theorem hangs (V : BootView t 512 s) {r : EntryRef} (hr : ∀ q ∈ t.pages, ¬ r.InPage q)
    (hp : p ∉ t.pages) : Hangs Low High s r p where
  named := (V.write le_rfl hr _).sees
  cleared := ((V.write le_rfl hr _).clear le_rfl hp).sees
  present := ((V.clear le_rfl hp).write le_rfl hr _).sees
  hung := ((V.clear le_rfl hp).write le_rfl hr _).sees

theorem hang (V : BootView t 512 s) {r : EntryRef} (hr : ∀ q ∈ t.pages, ¬ r.InPage q)
    (hp : p ∉ t.pages) (m : MemPages) : BootView t 512 (s.hang m r p) := by
  have V' : BootView t 512 ({ s with pages := m }.clear (pageSize * p)) :=
    (V.clear le_rfl hp).congr le_rfl rfl fun _ _ _ _ => rfl
  exact V'.write le_rfl hr _

end BootView

/-- A physical address can be reached at its kernel address. -/
def Reached (s : Paging) (a : Nat) : Prop :=
  ∃ t, walk s.mem s.cr3 (kernOffset + a) = some t ∧ t.paddr = a

theorem reached_iff_map (s : Paging) (a : Nat) :
    Reached s a ↔ (walk s.mem s.cr3 (kernOffset + a)).map Translation.paddr = some a :=
  Option.map_eq_some_iff.symm

instance (s : Paging) (a : Nat) : Decidable (Reached s a) :=
  decidable_of_iff' _ (reached_iff_map s a)

/-- The boot tables map exactly the first gigabyte. -/
theorem BootHeld.reached_iff (B : BootHeld t 512 s) {a : Nat} (ha : a < 2 ^ 40) :
    Reached s a ↔ a < 2 ^ 30 := by
  by_cases hlow : a < 2 ^ 39
  · rw [Reached, B.walk_eq hlow (by omega)]
    split
    · constructor
      · rintro ⟨tr, htr, hpa⟩
        cases htr
        have : a % 2 ^ 30 = a := hpa
        omega
      · intro h
        exact ⟨_, rfl, Nat.mod_eq_of_lt h⟩
    · refine iff_of_false ?_ (by omega)
      rintro ⟨tr, htr, -⟩
      cases htr
  · -- the last entry of the top-level table is empty
    have hroot : slotOf 3 (kernOffset + a) = 511 := by
      rw [slotOf, kernOffset]
      norm_num
      omega
    have hlast : s.mem (pageSize * t.pml4 + 8 * 511) = 0#64 := B.roots 511 (by norm_num)
    have hp := t.low.1
    refine iff_of_false ?_ (by omega)
    rintro ⟨tr, htr, -⟩
    rw [walk, if_pos (canonical ha), B.cr3_eq, frame_page (by omega) (by norm_num), hroot, hlast,
      walkFrom_zero] at htr
    cases htr

theorem BootHeld.withPages (B : BootHeld t k s) (m : MemPages) :
    BootHeld t k { s with pages := m } :=
  ⟨⟨B.cr3_eq, B.kern_eq, B.dirs, B.leaves⟩, B.pgt_eq, B.roots⟩

end Walk

section Tables

variable {t : BootTables} {s : Paging} {p q i j k n : Nat} {e : Entry}

theorem storeEntry_mem (hi : i < 512) (hj : j < 512) :
    (storeEntry p i e s).mem (pageSize * q + 8 * j) =
      if q = p ∧ j = i then e else s.mem (pageSize * q + 8 * j) := by
  by_cases h : q = p ∧ j = i
  · obtain ⟨rfl, rfl⟩ := h
    rw [if_pos ⟨rfl, rfl⟩]
    exact Function.update_self _ _ _
  · rw [if_neg h]
    refine Function.update_of_ne ?_ _ _
    exact fun heq => h (slot_inj hj hi heq)

/-- A store to a table leaves the other pages alone. -/
theorem storeEntry_frame (hi : i < 512) {a : Nat} (ha : pgnum a ≠ p) :
    (storeEntry p i e s).mem a = s.mem a := by
  refine write_mem_of_ne fun he => ha ?_
  rw [← EntryRef.slot.inj he, pgnum_slot p hi]

theorem setupPaging_frame {a : Nat} (ha : pgnum a ∉ t.pages) :
    (setupPaging t s).mem a = s.mem a := by
  simp only [BootTables.pages, List.mem_cons, List.not_mem_nil, or_false, not_or] at ha
  obtain ⟨h₄, h₃, h₂⟩ := ha
  simp only [setupPaging, storeEntry_frame, Nat.reduceLT, h₄, h₃, h₂, ne_eq, not_false_eq_true]

/-- What `InitBootPageTable` starts from. -/
theorem setupPaging_held (hz : Unset t s) :
    BootHeld t 4 { setupPaging t s with pgt := (setupPaging t s).cr3 } := by
  have htable : ∀ p, Entry.setPresent true (BitVec.ofNat 64 (pageSize * p)) = Entry.word p 1 :=
    fun p => Entry.setFlag_true_word (p := p) (f := 0) (by norm_num) (by norm_num)
  obtain ⟨h₁, h₂, h₃⟩ := t.distinct
  have hroots : ∀ i < 512, (setupPaging t s).mem (pageSize * t.pml4 + 8 * i) =
      if i = 0 ∨ i = 510 then Entry.word t.pdpt 1 else 0#64 := by
    intro i hi
    simp only [or_comm (a := i = 0)]
    simp [setupPaging, storeEntry_mem, hi, htable, h₁, h₂, hz t.pml4, ite_or]
  refine ⟨⟨rfl, hroots 510 (by norm_num), fun i hi => ?_, fun i hi => ?_⟩, rfl, hroots⟩
  · simp only [or_comm (a := i = 0)]
    simp [setupPaging, storeEntry_mem, hi, htable, h₁.symm, h₃, hz t.pdpt, ite_or]
  · have hi' : i < 512 := by omega
    simp only [setupPaging, storeEntry_mem, hi', Nat.reduceLT, true_and]
    obtain rfl | rfl | rfl | rfl : i = 0 ∨ i = 1 ∨ i = 2 ∨ i = 3 := by omega
    all_goals rfl

/-- One pass of the loop. -/
theorem BootHeld.step (B : BootHeld t n s) (h4 : 4 ≤ n) (hn : n ≤ 512) (hk : k < 512)
    (hkn : k ≤ n) (steps : Nat) :
    ∃ s', BootHeld t (max n (k + 1)) s' ∧ (∀ a, pgnum a ≠ t.pd → s'.mem a = s.mem a) ∧
      bootLoop (steps + 1) (largePageSize * k) s =
        bootLoop steps (largePageSize * (k + 1)) s' := by
  obtain ⟨hp4, hp3, hp2⟩ := t.low
  obtain ⟨h₁, h₂, h₃⟩ := t.distinct
  have V := B.sees_low h4 hn
  have hbase : largePageSize * k = pageSize * (512 * k) := by
    rw [largePageSize, pageSize]
    omega
  have hentry : Entry.setReadWrite true (Entry.setPresent true
      (Entry.setHuge true (Entry.ofPaddr (largePageSize * k)))) = Entry.word (512 * k) 0x83 := by
    have hhuge : Entry.setHuge true (Entry.word (512 * k) 3) = Entry.word (512 * k) 0x83 :=
      Entry.setFlag_true_word (by norm_num) (by norm_num)
    have hpres : Entry.setPresent true (Entry.word (512 * k) 0x83) = Entry.word (512 * k) 0x83 :=
      Entry.setFlag_true_word (by norm_num) (by norm_num)
    have hrw : Entry.setReadWrite true (Entry.word (512 * k) 0x83) = Entry.word (512 * k) 0x83 :=
      Entry.setFlag_true_word (by norm_num) (by norm_num)
    rw [hbase, Entry.ofPaddr_page, hhuge, hpres, hrw]
  have hlt : largePageSize * k < 2 ^ 39 := by
    rw [largePageSize]
    omega
  have hoff₃ : offset 3 ((kernOffset + largePageSize * k) % u64Size) = 0 := by
    rw [offset_kern (l := 2) (by norm_num) (by omega), largePageSize, pageSize]
    omega
  have hoff₂ : offset 2 ((kernOffset + largePageSize * k) % u64Size) = k := by
    rw [offset_kern (l := 1) (by norm_num) (by omega), largePageSize, pageSize]
    omega
  have hseen : ∀ {p i}, p < 2 ^ 11 → i < 512 →
      (EntryRef.slot (pageSize * p + 8 * i)).Seen (· < 2 ^ 11) := fun hp hi => by
    rwa [EntryRef.Seen, pgnum_slot _ hi]
  have hi₄ := index_word (s := s) (r := .pgt) 4 (by norm_num) (by omega) (by norm_num : 0 < 512)
    ((V.load (r := .pgt) trivial).trans (congrArg _ B.pgt_eq)) (offset_root hlt) (by norm_num)
  have hi₃ := index_word (s := s) 3 (by norm_num) (by omega) (by norm_num : 1 < 512)
    ((V.load (hseen hp4 (by norm_num : 510 < 512))).trans (congrArg _ B.kern_eq)) hoff₃
    (by norm_num)
  have hi₂ := index_word (s := s) 2 (by norm_num) (by omega) (by norm_num : 1 < 512)
    ((V.load (hseen hp3 (by norm_num : 0 < 512))).trans (congrArg _ (B.dirs 0 (by norm_num)))) hoff₂
    hk
  refine ⟨storeEntry t.pd k (Entry.word (512 * k) 0x83) s, ?_, fun a => storeEntry_frame hk, ?_⟩
  · have hroots : ∀ i < 512, (storeEntry t.pd k (Entry.word (512 * k) 0x83) s).mem
        (pageSize * t.pml4 + 8 * i) = if i = 0 ∨ i = 510 then Entry.word t.pdpt 1 else 0#64 := by
      intro i hi
      rw [storeEntry_mem hk hi, if_neg (by omega), B.roots i hi]
    refine ⟨⟨B.cr3_eq, hroots 510 (by norm_num), fun i hi => ?_, fun i hi => ?_⟩, B.pgt_eq, hroots⟩
    · rw [storeEntry_mem hk hi, if_neg (by omega), B.dirs i hi]
    · rw [storeEntry_mem hk (by omega)]
      split
      · next h => rw [h.2]
      · next h => exact B.leaves i (by omega)
  · rw [bootLoop]
    simp only [hentry, hi₄, hi₃, hi₂, ok_bind, V.store (hseen hp2 hk)]
    rfl

/-- The loop stores all leaves; its first ones are there already. -/
theorem BootHeld.bootLoop (B : BootHeld t n s) (h4 : 4 ≤ n) (hkn : k ≤ n) (hn : n ≤ max k 4)
    (steps : Nat) (hk : k + steps = 512) :
    ∃ s', bootLoop steps (largePageSize * k) s = .ok s' ∧ BootHeld t 512 s' ∧
      ∀ a, pgnum a ≠ t.pd → s'.mem a = s.mem a := by
  induction steps generalizing k n s with
  | zero =>
      obtain rfl : n = 512 := by omega
      exact ⟨s, rfl, B, fun _ _ => rfl⟩
  | succ steps ih =>
      obtain ⟨s₁, B₁, hframe₁, hstep⟩ := B.step h4 (by omega) (by omega) hkn steps
      obtain ⟨s', hs', B', hframe⟩ := ih (k := k + 1) B₁ (by omega) (by omega) (by omega) (by omega)
      exact ⟨s', hstep.trans hs', B', fun a ha => (hframe a ha).trans (hframe₁ a ha)⟩

theorem initBootPageTable_setup (hz : Unset t s) :
    ∃ s', initBootPageTable (setupPaging t s) = .ok s' ∧ BootHeld t 512 s' ∧
      ∀ a, pgnum a ≠ t.pd → s'.mem a = (setupPaging t s).mem a :=
  (setupPaging_held hz).bootLoop le_rfl (Nat.zero_le 4) (by norm_num) 512 rfl

/-- The boot code leaves the first gigabyte mapped, and writes its own tables only. -/
theorem initBootPageTable_held (hz : Unset t s) :
    ∃ s', initBootPageTable (setupPaging t s) = .ok s' ∧ BootHeld t 512 s' ∧
      ∀ a, pgnum a ∉ t.pages → s'.mem a = s.mem a := by
  obtain ⟨s', hs', B, hframe⟩ := initBootPageTable_setup hz
  refine ⟨s', hs', B, fun a ha => ?_⟩
  have hpd : pgnum a ≠ t.pd := fun h => ha (by simp [BootTables.pages, h])
  exact (hframe a hpd).trans (setupPaging_frame ha)

/-- Memory of zeros, before paging is on. -/
def blank : Paging := ⟨{}, fun _ => 0#64, 0#64, 0#64, 0#64⟩

/-- The memory of a machine that holds the boot tables and nothing else. -/
def bootMem (t : BootTables) (a : Nat) : Entry :=
  let i := a % pageSize / 8
  if pgnum a = t.pml4 then if i = 0 ∨ i = 510 then Entry.word t.pdpt 1 else 0#64
  else if pgnum a = t.pdpt then if i = 0 ∨ i = 510 then Entry.word t.pd 1 else 0#64
  else if pgnum a = t.pd then Entry.word (512 * i) 0x83
  else 0#64

/-- The tables as the linker places them. -/
def bootTables : BootTables := ⟨0x102, 0x103, 0x104, by decide, by decide⟩

/-- A machine under the boot tables. -/
def booted (m : MemPages) : Paging where
  pages := m
  mem := bootMem bootTables
  pgt := Entry.word bootTables.pml4 0
  kern := 0#64
  cr3 := Entry.word bootTables.pml4 0

theorem booted_held (m : MemPages) : BootHeld bootTables 512 (booted m) := by
  have hindex : ∀ q i, i < 512 → (pageSize * q + 8 * i) % pageSize / 8 = i := by
    intro q i hi
    rw [pageSize]
    omega
  have hroots : ∀ i < 512, (booted m).mem (pageSize * bootTables.pml4 + 8 * i) =
      if i = 0 ∨ i = 510 then Entry.word bootTables.pdpt 1 else 0#64 := by
    intro i hi
    simp only [booted, bootMem, pgnum_slot _ hi, hindex _ i hi, if_true]
  refine ⟨⟨rfl, hroots 510 (by norm_num), fun i hi => ?_, fun i hi => ?_⟩, rfl, hroots⟩
  · simp only [booted, bootMem, pgnum_slot _ hi, hindex _ i hi, if_true]
    rfl
  · simp only [booted, bootMem, pgnum_slot _ hi, hindex _ i hi, if_true]
    rfl

end Tables

end Paging

end Chestnut
