import Chestnut.Paging.Tree

/-!
# What the processor sees of the tables

The code reaches a table through the tables that are installed while it runs.
`Sees W B s` says that in the state `s` the pages of `W` are mapped to themselves
and those of `B` not at all. Following a reference in a page of `W` acts on the
words of memory as the code means it; the first access to a page of `B` faults.
-/

namespace Chestnut

open Lib

namespace EntryRef

/-- The entry is no word of memory, or a word of a page in `W`. -/
def Seen (W : Nat → Prop) : EntryRef → Prop
  | .slot a => W (pgnum a)
  | _ => True

/-- The entry is a word of a page in `B`. -/
def Blind (B : Nat → Prop) : EntryRef → Prop
  | .slot a => B (pgnum a)
  | _ => False

end EntryRef

namespace Paging

variable {W B : Nat → Prop} {s s' : Paging} {r : EntryRef} {e : Entry} {p i : Nat}

/-- The pages of `W` are mapped to themselves, those of `B` are not mapped. -/
structure Sees (W B : Nat → Prop) (s : Paging) : Prop where
  seen : ∀ a, W (pgnum a) → s.translate a = .ok a
  blind : ∀ a, B (pgnum a) → s.translate a = .error .pageFault

theorem translate_of_walk {a : Nat} {t : Translation}
    (h : walk s.mem s.cr3 ((kernOffset + a) % u64Size) = some t) :
    s.translate a = .ok t.paddr := by
  rw [translate, h]

theorem translate_of_walk_none {a : Nat}
    (h : walk s.mem s.cr3 ((kernOffset + a) % u64Size) = none) :
    s.translate a = .error .pageFault := by
  rw [translate, h]

/-- Tables that lead the same way translate alike. -/
theorem translate_congr (hcr3 : s'.cr3 = s.cr3) (h : ∀ a, SameWay (s'.mem a) (s.mem a)) (a : Nat) :
    s'.translate a = s.translate a := by
  have hw := walk_congr h s.cr3 ((kernOffset + a) % u64Size)
  rw [translate, translate, hcr3]
  cases h' : walk s'.mem s.cr3 ((kernOffset + a) % u64Size) <;>
    cases h'' : walk s.mem s.cr3 ((kernOffset + a) % u64Size) <;>
    simp_all

theorem write_read (s : Paging) (r : EntryRef) : s.write r (s.read r) = s := by
  cases r <;> simp [write, read]

/-- Two entries that lead the same way, stored in one place. -/
theorem sameWay_write (s : Paging) (r : EntryRef) {e e' : Entry} (h : SameWay e e') (a : Nat) :
    SameWay ((s.write r e).mem a) ((s.write r e').mem a) := by
  cases r with
  | pgt => exact .refl _
  | kern => exact .refl _
  | slot b =>
      by_cases ha : a = b
      · subst ha
        simpa [write] using h
      · simpa [write, Function.update_of_ne ha] using SameWay.refl (s.mem a)

theorem sameWay_clear {base : Nat} (h : ∀ a, SameWay (s'.mem a) (s.mem a)) (a : Nat) :
    SameWay ((s'.clear base).mem a) ((s.clear base).mem a) := by
  simp only [clear]
  split
  · exact .refl _
  · exact h a

namespace Sees

theorem congr (V : Sees W B s) (hcr3 : s'.cr3 = s.cr3)
    (h : ∀ a, SameWay (s'.mem a) (s.mem a)) : Sees W B s' := by
  refine ⟨fun a ha => ?_, fun a ha => ?_⟩
  · rw [translate_congr hcr3 h, V.seen a ha]
  · rw [translate_congr hcr3 h, V.blind a ha]

variable (V : Sees W B s)

include V

theorem resolve (hr : r.Seen W) : s.resolve r = .ok r := by
  cases r with
  | pgt => rfl
  | kern => rfl
  | slot a =>
      rw [Paging.resolve, V.seen a hr]
      rfl

theorem resolve_blind (hr : r.Blind B) : s.resolve r = .error .pageFault := by
  cases r with
  | pgt => cases hr
  | kern => cases hr
  | slot a =>
      rw [Paging.resolve, V.blind a hr]
      rfl

theorem load (hr : r.Seen W) : s.load r = .ok (s.read r) := by
  rw [Paging.load, V.resolve hr]
  rfl

theorem store (hr : r.Seen W) (e : Entry) : s.store r e = .ok (s.write r e) := by
  rw [Paging.store, V.resolve hr]
  rfl

theorem load_blind (hr : r.Blind B) : s.load r = .error .pageFault := by
  rw [Paging.load, V.resolve_blind hr]
  rfl

theorem store_blind (hr : r.Blind B) (e : Entry) : s.store r e = .error .pageFault := by
  rw [Paging.store, V.resolve_blind hr]
  rfl

theorem clearPage (hp : W p) : s.clearPage (pageSize * p) = .ok (s.clear (pageSize * p)) := by
  rw [Paging.clearPage, V.seen _ (by rwa [pgnum_page])]
  rfl

theorem clearPage_blind (hp : B p) : s.clearPage (pageSize * p) = .error .pageFault := by
  rw [Paging.clearPage, V.blind _ (by rwa [pgnum_page])]
  rfl

end Sees

/-- `operator[]` above level 1 follows the address of the entry. -/
theorem index_word {f vaddr : Nat} (level : Nat) (hl : level ≠ 1) (hp : p < 2 ^ 52)
    (hf : f < 512) (hr : s.load r = .ok (Entry.word p f)) (hoff : offset level vaddr = i)
    (hi : i < 512) : s.index level r vaddr = .ok (.slot (pageSize * p + 8 * i)) := by
  simp [index, hl, hr, Entry.physicalAddress_word hp hf, hoff, hi]

/-- The cleared page `i` hangs in the entry `r` as a table. -/
def hang (s : Paging) (m : MemPages) (r : EntryRef) (i : Nat) : Paging :=
  ({ s with pages := m }.clear (pageSize * i)).write r (Entry.word i 3)

theorem write_cr3 (s : Paging) (r : EntryRef) (e : Entry) : (s.write r e).cr3 = s.cr3 := by
  cases r <;> rfl

theorem hang_cr3 (s : Paging) (m : MemPages) (r : EntryRef) (i : Nat) :
    (s.hang m r i).cr3 = s.cr3 := write_cr3 _ r _

theorem write_mem_of_ne {a : Nat} (h : r ≠ .slot a) : (s.write r e).mem a = s.mem a := by
  have hread := read_write_of_ne (s := s) (e := e) h.symm
  exact hread

theorem clear_mem_of_pgnum_ne {a : Nat} (h : pgnum a ≠ i) :
    (s.clear (pageSize * i)).mem a = s.mem a := by
  refine if_neg ?_
  simp only [pgnum, pageSize] at h ⊢
  omega

/-- Of memory, only the entry and the page change. -/
theorem hang_mem {a : Nat} {m : MemPages} (hr : r ≠ .slot a) (hi : pgnum a ≠ i) :
    (s.hang m r i).mem a = s.mem a :=
  (write_mem_of_ne hr).trans (clear_mem_of_pgnum_ne hi)

/-- What is mapped does not change while `Allocate` hangs the page `i` into the
entry `r`: neither behind its stores nor behind the clearing of the page. -/
structure Hangs (W B : Nat → Prop) (s : Paging) (r : EntryRef) (i : Nat) : Prop where
  named : Sees W B (s.write r (Entry.word i 0))
  cleared : Sees W B ((s.write r (Entry.word i 0)).clear (pageSize * i))
  present : Sees W B ((s.clear (pageSize * i)).write r (Entry.word i 1))
  hung : Sees W B ((s.clear (pageSize * i)).write r (Entry.word i 3))

section Allocate

variable {m : MemPages}

theorem Sees.pages (V : Sees W B s) (m : MemPages) : Sees W B { s with pages := m } :=
  ⟨V.seen, V.blind⟩

theorem Hangs.pages (h : Hangs W B s r i) (m : MemPages) : Hangs W B { s with pages := m } r i := by
  cases r with
  | pgt => exact ⟨h.named.pages m, h.cleared.pages m, h.present.pages m, h.hung.pages m⟩
  | kern => exact ⟨h.named.pages m, h.cleared.pages m, h.present.pages m, h.hung.pages m⟩
  | slot a => exact ⟨h.named.pages m, h.cleared.pages m, h.present.pages m, h.hung.pages m⟩

variable (halloc : s.pages.allocPage = .ok (.pg i, m)) (hderef : m.deref (.pg i) = .ok ())
variable (hphy : (m.page (.pg i)).phyaddr = pageSize * i) (hi : i < 2 ^ 52) (V : Sees W B s)
variable (hr : r.Seen W) (h : Hangs W B s r i)

include halloc hderef hphy hi V hr h

/-- `Allocate` on a page that is mapped, in an entry outside of it. -/
theorem allocate_seen (hw : W i)
    (hread : ∀ s : Paging, (s.clear (pageSize * i)).read r = s.read r) :
    s.allocate r = .ok (s.hang m r i) := by
  have h' := h.pages m
  have hword : BitVec.ofNat 64 (pageSize * i) = Entry.word i 0 := rfl
  have haddr : (Entry.word i 0).toNat = pageSize * i := Entry.toNat_word hi (by norm_num)
  have h₁ : Entry.setPresent true (Entry.word i 0) = Entry.word i 1 :=
    Entry.setFlag_true_word (by norm_num) (by norm_num)
  have h₃ : Entry.setReadWrite true (Entry.word i 1) = Entry.word i 3 :=
    Entry.setFlag_true_word (by norm_num) (by norm_num)
  rw [allocate, halloc]
  simp only [ok_bind, hderef, hphy, hword]
  rw [(V.pages m).store hr, ok_bind, h'.named.load hr, ok_bind, read_write, haddr,
    h'.named.clearPage hw, ok_bind, h'.cleared.load hr, ok_bind, hread, read_write, h₁,
    h'.cleared.store hr, ok_bind, write_clear_write, h'.present.load hr, ok_bind, read_write, h₃,
    h'.present.store hr, write_write]
  rfl

/-- `Allocate` on a page that is not mapped names it and faults. -/
theorem allocate_blind (hb : B i) : s.allocate r = .error .pageFault := by
  have h' := h.pages m
  have hword : BitVec.ofNat 64 (pageSize * i) = Entry.word i 0 := rfl
  have haddr : (Entry.word i 0).toNat = pageSize * i := Entry.toNat_word hi (by norm_num)
  rw [allocate, halloc]
  simp only [ok_bind, hderef, hphy, hword]
  rw [(V.pages m).store hr, ok_bind, h'.named.load hr, ok_bind, read_write, haddr,
    h'.named.clearPage_blind hb]
  rfl

end Allocate

namespace Holds

variable {root : Nat} {top : EntryRef} {T : PageTree} {free : List Nat} {l y vaddr : Nat}

/-- `Allocate` on an empty slot hangs a new table into the tree, follows the null
page, or faults on a page that is not mapped. -/
theorem allocate_spec (H : Holds root top T free s) (hr : Slot top T l y r) (hpos : 0 < l)
    (hl : l ≤ 3) (hy : y < 2 ^ 27) (he : T l (y / 512 ^ l) = .empty) (V : Sees W B s)
    (hs : r.Seen W)
    (hpage : ∀ i j t, free = i :: j :: t → (W i ∨ B i) ∧ Hangs W B s r i) :
    free.length ≤ 1 ∧ s.allocate r = .error .nullDeref ∨
      ∃ p t, free = p :: t ∧ t ≠ [] ∧
        (B p ∧ s.allocate r = .error .pageFault ∨
          W p ∧ ∃ m, s.allocate r = .ok (s.hang m r p) ∧
            Holds root top (T.set l (y / 512 ^ l) (.table p)) t (s.hang m r p)) := by
  match free, H with
  | [], H | [_], H =>
      refine .inl ⟨by simp, ?_⟩
      rw [allocate, H.supply.allocPage_null (by simp)]
      rfl
  | i :: j :: t, H =>
      obtain ⟨m, halloc, hderef, hphy, H', Bl⟩ := H.take_page
      obtain ⟨hwb, hh⟩ := hpage i j t rfl
      have hlt : i < 2 ^ 52 := Bl.lt.trans (by norm_num)
      refine .inr ⟨i, j :: t, rfl, by simp, ?_⟩
      rcases hwb with hw | hb
      · have hfit : FitsLevel l (.table i) := ⟨fun h => by omega, nofun⟩
        have hnt : ∀ p, T l (y / 512 ^ l) ≠ .table p := Node.ne_table_of_empty he
        have hread : ∀ s : Paging, (s.clear (pageSize * i)).read r = s.read r := fun s =>
          clear_read (H.slot_not_inPage hr Bl.ne_root Bl.not_table)
            ((H.slot_site hr).imp_right fun ⟨q, hq, _⟩ => ⟨q, hq⟩)
        refine .inr ⟨hw, m, allocate_seen halloc hderef hphy hlt V hs hh hw hread,
          H'.put hr hl hy hnt (.table i) hfit fun p hp => ?_⟩
        cases hp
        exact Bl
      · exact .inl ⟨hb, allocate_blind halloc hderef hphy hlt V hs hh hb⟩

/-- `operator[]` on a table gives the slot of the child. -/
theorem index_spec (H : Holds root top T free s) (hr : Slot top T (l + 1) y r) (hy : y < 2 ^ 27)
    (V : Sees W B s) (hs : r.Seen W) (hp : T (l + 1) (y / 512 ^ (l + 1)) = .table p)
    (hoff : offset (l + 1) vaddr = y / 512 ^ l % 512) :
    ∃ r', s.index (l + 1) r vaddr = .ok r' ∧ Slot top T l y r' := by
  refine ⟨.slot (pageSize * p + 8 * (y / 512 ^ l % 512)), ?_, .inr ⟨p, hp, rfl⟩⟩
  have hload : s.load r = .ok (Entry.word p 3) := by
    rw [V.load hs, H.read_slot hr hy, hp]
    rfl
  have hlt : p < 2 ^ 52 := (H.fresh hp).2.2.trans (by norm_num)
  have hhuge : Entry.isHuge (Entry.word p 3) = false :=
    Entry.getFlag_word (by norm_num) (by norm_num)
  have haddr : Entry.physicalAddress (Entry.word p 3) = pageSize * p :=
    Entry.physicalAddress_word hlt (by norm_num)
  have hlt512 : y / 512 ^ l % 512 < 512 := Nat.mod_lt _ (by norm_num)
  simp [index, hload, hhuge, hoff, haddr, hlt512]

/-- Following a table changes nothing. -/
theorem child_table (H : Holds root top T free s) (hr : Slot top T (l + 1) y r) (hy : y < 2 ^ 27)
    (V : Sees W B s) (hs : r.Seen W) (hp : T (l + 1) (y / 512 ^ (l + 1)) = .table p)
    (hoff : offset (l + 1) vaddr = y / 512 ^ l % 512) :
    Entry.isPresent (s.read r) = true ∧
      ∃ r', s.child (l + 1) vaddr r = .ok (r', s) ∧ Slot top T l y r' := by
  have hpres : Entry.isPresent (s.read r) = true := by
    rw [H.read_slot hr hy, hp]
    exact Entry.getFlag_word (by norm_num) (by norm_num)
  obtain ⟨r', hidx, hr'⟩ := H.index_spec hr hy V hs hp hoff
  refine ⟨hpres, r', ?_, hr'⟩
  simp [Paging.child, allocateOrPresent, V.load hs, hpres, hidx]

/-- Following an empty node hangs a new table into the tree, follows the null
page, or faults on a page that is not mapped. -/
theorem child_empty (H : Holds root top T free s) (hr : Slot top T (l + 1) y r)
    (hl : l < 3) (hy : y < 2 ^ 27) (he : T (l + 1) (y / 512 ^ (l + 1)) = .empty)
    (V : Sees W B s) (hs : r.Seen W)
    (hpage : ∀ i j t, free = i :: j :: t → (W i ∨ B i) ∧ Hangs W B s r i)
    (hoff : offset (l + 1) vaddr = y / 512 ^ l % 512) :
    Entry.isPresent (s.read r) = false ∧
      (free.length ≤ 1 ∧ s.allocate r = .error .nullDeref ∧
          s.child (l + 1) vaddr r = .error .nullDeref ∨
        ∃ p t, free = p :: t ∧ t ≠ [] ∧
          (B p ∧ s.allocate r = .error .pageFault ∧
              s.child (l + 1) vaddr r = .error .pageFault ∨
            W p ∧ ∃ m r', s.allocate r = .ok (s.hang m r p) ∧
              s.child (l + 1) vaddr r = .ok (r', s.hang m r p) ∧ Sees W B (s.hang m r p) ∧
              Holds root top (T.set (l + 1) (y / 512 ^ (l + 1)) (.table p)) t (s.hang m r p) ∧
              Slot top (T.set (l + 1) (y / 512 ^ (l + 1)) (.table p)) l y r')) := by
  have hpres : Entry.isPresent (s.read r) = false := by
    rw [H.read_slot hr hy, he]
    exact (by decide : Entry.isPresent 0#64 = false)
  refine ⟨hpres, ?_⟩
  rcases H.allocate_spec hr (by omega) (by omega) hy he V hs hpage with
    ⟨hshort, hnull⟩ | ⟨p, t, hfree, ht, ⟨hb, hfault⟩ | ⟨hw, m, hok, H'⟩⟩
  · refine .inl ⟨hshort, hnull, ?_⟩
    simp [Paging.child, allocateOrPresent, V.load hs, hpres, hnull]
  · refine .inr ⟨p, t, hfree, ht, .inl ⟨hb, hfault, ?_⟩⟩
    simp [Paging.child, allocateOrPresent, V.load hs, hpres, hfault]
  · have hr₁ : Slot top (T.set (l + 1) (y / 512 ^ (l + 1)) (.table p)) (l + 1) y r := by
      rcases hr with hr | ⟨q, hq, hr⟩
      · exact .inl hr
      · refine .inr ⟨q, ?_, hr⟩
        rw [Radix.set_of_ne _ (by omega), hq]
    obtain ⟨j, t, rfl⟩ := List.exists_cons_of_ne_nil ht
    have hV : Sees W B (s.hang m r p) := ((hpage p j t hfree).2.pages m).hung
    obtain ⟨r', hidx, hr'⟩ := H'.index_spec hr₁ hy hV hs (Radix.set_self _) hoff
    refine .inr ⟨p, j :: t, hfree, ht, .inr ⟨hw, m, r', hok, ?_, hV, H', hr'⟩⟩
    simp [Paging.child, allocateOrPresent, V.load hs, hpres, hok, hidx]

end Holds

/-- An entry that is not mapped cannot be followed. -/
theorem Sees.child_blind (V : Sees W B s) (hr : r.Blind B) (level vaddr : Nat) :
    s.child level vaddr r = .error .pageFault := by
  simp [Paging.child, allocateOrPresent, V.load_blind hr]

end Paging

end Chestnut
