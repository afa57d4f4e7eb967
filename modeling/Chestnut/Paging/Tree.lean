import Chestnut.Lib.Radix
import Chestnut.Pages.Supply
import Chestnut.Paging.Entries

/-!
# The tree behind the tables

A kernel page table is a radix tree of fan-out 512 over page numbers: level 0
holds the 4 KiB leaves, level 1 the 2 MiB ones, level 2 the 1 GiB ones, and the
single node of level 3 is the entry of the top-level table. `Holds` says that
the words in memory are such a tree, that its tables are distinct pages, and
that none of them is free or the top-level table itself. A new table and a new
leaf each change one node that is no table.
-/

namespace Chestnut

open Lib

/-- The flags of a leaf that say how its memory is cached: write-through and
cache-disabled. -/
structure Caching where
  wt : Bool
  cd : Bool
  deriving DecidableEq, Repr

/-- A table node carries its page, a leaf its caching flags. -/
abbrev PageTree : Type := Radix Nat Caching

/-- The flags of a leaf of a level: present and writable, huge above level 0. -/
def leafFlags (l : Nat) (c : Caching) : Nat :=
  (if l = 0 then 0x03 else 0x83) + (if c.wt then 0x08 else 0) + if c.cd then 0x10 else 0

/-- The word that stands for the node `x` of level `l`. -/
def encode (l x : Nat) : Node Nat Caching → Entry
  | .empty => 0#64
  | .table p => Entry.word p 0x03
  | .leaf c => Entry.word (x * 512 ^ l) (leafFlags l c)

@[simp] theorem encode_table (l x p : Nat) : encode l x (.table p) = Entry.word p 0x03 := rfl

/-- Level 0 has no tables and level 3 no leaves. -/
def FitsLevel (l : Nat) (n : Node Nat Caching) : Prop :=
  (l = 0 → ∀ p, n ≠ .table p) ∧ (l = 3 → ∀ c, n ≠ .leaf c)

/-- The reference is to an entry of the page `p`. -/
def EntryRef.InPage (r : EntryRef) (p : Nat) : Prop :=
  ∃ i < 512, r = .slot (pageSize * p + 8 * i)

namespace Paging

variable {s : Paging} {r r' : EntryRef} {e : Entry} {p q i j : Nat}

theorem slot_inj (hi : i < 512) (hj : j < 512)
    (h : pageSize * p + 8 * i = pageSize * q + 8 * j) : p = q ∧ i = j := by
  simp only [pageSize] at h
  omega

theorem pgnum_slot (p : Nat) {i : Nat} (hi : i < 512) : pgnum (pageSize * p + 8 * i) = p := by
  rw [pgnum, pageSize]
  omega

@[simp] theorem write_pages (s : Paging) (r : EntryRef) (e : Entry) :
    (s.write r e).pages = s.pages := by
  cases r <;> rfl

@[simp] theorem read_write (s : Paging) (r : EntryRef) (e : Entry) :
    (s.write r e).read r = e := by
  cases r <;> simp [write, read]

theorem read_write_of_ne (h : r' ≠ r) : (s.write r e).read r' = s.read r' := by
  cases r <;> cases r' <;> simp_all [write, read]

theorem write_pgt (h : r ≠ .pgt) : (s.write r e).pgt = s.pgt := by
  cases r with
  | pgt => exact absurd rfl h
  | kern => rfl
  | slot a => rfl

theorem mem_write_of_not_inPage (h : ¬ r.InPage p) (hi : i < 512) :
    (s.write r e).mem (pageSize * p + 8 * i) = s.mem (pageSize * p + 8 * i) := by
  cases r with
  | pgt => rfl
  | kern => rfl
  | slot a =>
      refine Function.update_of_ne ?_ _ _
      rintro rfl
      exact h ⟨i, hi, rfl⟩

theorem write_write (s : Paging) (r : EntryRef) (e e' : Entry) :
    (s.write r e).write r e' = s.write r e' := by
  cases r <;> simp [write]

/-- A page cleared between two stores to an entry is cleared before the second. -/
theorem write_clear_write (s : Paging) (r : EntryRef) (e e' : Entry) (paddr : Nat) :
    ((s.write r e).clear paddr).write r e' = (s.clear paddr).write r e' := by
  cases r with
  | pgt => rfl
  | kern => rfl
  | slot a =>
      simp only [write, clear, mk.injEq, true_and, and_true]
      funext b
      by_cases hb : b = a
      · simp [hb]
      · simp [Function.update_of_ne hb]

theorem clear_mem (hi : i < 512) :
    (s.clear (pageSize * p)).mem (pageSize * p + 8 * i) = 0#64 :=
  if_pos (by rw [pageSize]; omega)

theorem clear_mem_of_ne (hi : i < 512) (h : q ≠ p) :
    (s.clear (pageSize * p)).mem (pageSize * q + 8 * i) = s.mem (pageSize * q + 8 * i) :=
  if_neg (by rw [pageSize]; omega)

theorem clear_read (h : ¬ r.InPage p) (hr : r = .kern ∨ ∃ q, r.InPage q) :
    (s.clear (pageSize * p)).read r = s.read r := by
  rcases hr with rfl | ⟨q, i, hi, rfl⟩
  · rfl
  · refine clear_mem_of_ne hi ?_
    rintro rfl
    exact h ⟨i, hi, rfl⟩

/-- The tables under the entry `top`, an entry of the page `root` or a local
one, are the tree `T`. -/
structure Holds (root : Nat) (top : EntryRef) (T : PageTree) (free : List Nat) (s : Paging) :
    Prop where
  rooted : T.Rooted 512 3
  fits : ∀ l x, FitsLevel l (T l x)
  inside : ∀ {l x}, T l x ≠ .empty → x * 512 ^ l < 2 ^ 27
  supply : MemPages.Supply s.pages free
  nr_le : s.pages.nrPageStructs ≤ 2 ^ 27
  top_site : top = .kern ∨ top.InPage root
  top_eq : s.read top = encode 3 0 (T 3 0)
  words : ∀ {l x p}, T (l + 1) x = .table p → ∀ i < 512,
    s.mem (pageSize * p + 8 * i) = encode l (512 * x + i) (T l (512 * x + i))
  inj : ∀ {l x l' x' p}, T l x = .table p → T l' x' = .table p → l = l' ∧ x = x'
  fresh : ∀ {l x p}, T l x = .table p → p ∉ free ∧ p ≠ root ∧ p < 2 ^ 27
  root_used : root ∉ free
  pgt_eq : ∃ f < 512, s.pgt = Entry.word root f

/-- The reference to the node of level `l` over the page `y`. -/
def Slot (top : EntryRef) (T : PageTree) (l y : Nat) (r : EntryRef) : Prop :=
  l = 3 ∧ r = top ∨
    ∃ p, T (l + 1) (y / 512 ^ (l + 1)) = .table p ∧
      r = .slot (pageSize * p + 8 * (y / 512 ^ l % 512))

/-- A page that can become a table: in use by nothing else, and all zero. -/
structure Blank (root : Nat) (T : PageTree) (free : List Nat) (s : Paging) (p : Nat) : Prop where
  not_free : p ∉ free
  ne_root : p ≠ root
  lt : p < 2 ^ 27
  not_table : ∀ l x, T l x ≠ .table p
  zero : ∀ i < 512, s.mem (pageSize * p + 8 * i) = 0#64

namespace Holds

variable {root : Nat} {top : EntryRef} {T : PageTree} {free : List Nat} {l x y : Nat}

theorem slot_parent (hr : Slot top T l y r) (hl : l < 3) :
    ∃ p, T (l + 1) (y / 512 ^ (l + 1)) = .table p ∧
      r = .slot (pageSize * p + 8 * (y / 512 ^ l % 512)) := by
  rcases hr with ⟨rfl, -⟩ | hr
  · omega
  · exact hr

theorem slot_top (H : Holds root top T free s) (hr : Slot top T 3 y r) : r = top := by
  rcases hr with ⟨-, rfl⟩ | ⟨p, hp, -⟩
  · rfl
  · have := H.rooted.level (Node.ne_empty_of_table hp)
    omega

/-- A slot lies in the top-level table or in a table of the tree. -/
theorem slot_site (H : Holds root top T free s) (hr : Slot top T l y r) :
    r = .kern ∨ ∃ q, r.InPage q ∧ (q = root ∨ ∃ l x, T l x = .table q) := by
  rcases hr with ⟨-, rfl⟩ | ⟨p, hp, rfl⟩
  · rcases H.top_site with h | h
    · exact Or.inl h
    · exact Or.inr ⟨root, h, Or.inl rfl⟩
  · exact Or.inr ⟨p, ⟨_, Nat.mod_lt _ (by omega), rfl⟩, Or.inr ⟨_, _, hp⟩⟩

theorem slot_not_inPage (H : Holds root top T free s) (hr : Slot top T l y r)
    (hroot : p ≠ root) (ht : ∀ l x, T l x ≠ .table p) : ¬ r.InPage p := by
  rintro ⟨i, hi, rfl⟩
  rcases H.slot_site hr with h | ⟨q, ⟨j, hj, h⟩, hq⟩
  · cases h
  · obtain ⟨rfl, -⟩ := slot_inj hi hj (EntryRef.slot.inj h)
    rcases hq with hq | ⟨l, x, hq⟩
    · exact hroot hq
    · exact ht l x hq

theorem slot_ne_pgt (H : Holds root top T free s) (hr : Slot top T l y r) : r ≠ .pgt := by
  rintro rfl
  rcases H.slot_site hr with h | ⟨q, ⟨i, -, h⟩, -⟩ <;> cases h

/-- The slot holds its node. -/
theorem read_slot (H : Holds root top T free s) (hr : Slot top T l y r) (hy : y < 2 ^ 27) :
    s.read r = encode l (y / 512 ^ l) (T l (y / 512 ^ l)) := by
  rcases hr with ⟨rfl, rfl⟩ | ⟨p, hp, rfl⟩
  · rw [H.top_eq, Nat.div_eq_of_lt (by omega : y < 512 ^ 3)]
  · have h := H.words hp (y / 512 ^ l % 512) (Nat.mod_lt _ (by omega))
    rw [Radix.div_pow_succ, Nat.div_add_mod] at h
    exact h

/-- The word of a node is untouched by a store to the slot of another. -/
theorem word_untouched (H : Holds root top T free s) (hr : Slot top T l y r) {l' x' p : Nat}
    (hp : T (l' + 1) x' = .table p) (hi : i < 512)
    (hne : ¬ (l' = l ∧ 512 * x' + i = y / 512 ^ l)) :
    (s.write r e).mem (pageSize * p + 8 * i) = s.mem (pageSize * p + 8 * i) := by
  have haddr : r ≠ .slot (pageSize * p + 8 * i) := by
    rcases hr with ⟨-, rfl⟩ | ⟨q, hq, rfl⟩
    · rintro rfl
      rcases H.top_site with h | ⟨j, hj, h⟩
      · cases h
      · exact (H.fresh hp).2.1 (slot_inj hi hj (EntryRef.slot.inj h)).1
    · intro h
      obtain ⟨rfl, hj⟩ := slot_inj (Nat.mod_lt _ (by omega)) hi (EntryRef.slot.inj h)
      obtain ⟨hl, hx⟩ := H.inj hq hp
      rw [Radix.div_pow_succ] at hx
      exact hne ⟨by omega, by omega⟩
  have h := read_write_of_ne (s := s) (e := e) haddr.symm
  exact h

/-- The words of the tables after a node has changed. -/
theorem put_words (H : Holds root top T free s) (hr : Slot top T l y r) (hl : l ≤ 3)
    (hnt : ∀ p, T l (y / 512 ^ l) ≠ .table p) {n : Node Nat Caching}
    (hn : ∀ p, n = .table p → Blank root T free s p) {l' x' p : Nat}
    (hset : T.set l (y / 512 ^ l) n (l' + 1) x' = .table p) {i : Nat} (hi : i < 512) :
    (s.write r (encode l (y / 512 ^ l) n)).mem (pageSize * p + 8 * i) =
      encode l' (512 * x' + i) (T.set l (y / 512 ^ l) n l' (512 * x' + i)) := by
  rcases Radix.table_of_set hset with ⟨hl', hx', rfl⟩ | hp
  · -- the new table is all zero, and its children are empty
    have B := hn p rfl
    rw [mem_write_of_not_inPage (H.slot_not_inPage hr B.ne_root B.not_table) hi, B.zero i hi]
    have hx : (512 * x' + i) / 512 = x' := by omega
    rw [Radix.set_of_ne _ (by omega), H.rooted.child_empty (by omega)]
    · rfl
    · intro t ht
      rw [hx, hl', hx'] at ht
      exact hnt t ht
  · by_cases hc : l' = l ∧ 512 * x' + i = y / 512 ^ l
    · obtain ⟨rfl, hc⟩ := hc
      have hlt : l' < 3 := by
        have := H.rooted.level (Node.ne_empty_of_table hp)
        omega
      obtain ⟨q, hq, rfl⟩ := slot_parent hr hlt
      have hx : y / 512 ^ (l' + 1) = x' := by
        rw [Radix.div_pow_succ]
        omega
      rw [hx, hp] at hq
      cases hq
      have hi' : y / 512 ^ l' % 512 = i := by omega
      rw [hc, Radix.set_self, hi']
      exact Function.update_self _ _ _
    · rw [H.word_untouched hr hp hi hc, Radix.set_of_ne n hc]
      exact H.words hp i hi

/-- Changing a node that is no table: a new table must be a blank page. -/
theorem put (H : Holds root top T free s) (hr : Slot top T l y r) (hl : l ≤ 3) (hy : y < 2 ^ 27)
    (hnt : ∀ p, T l (y / 512 ^ l) ≠ .table p) (n : Node Nat Caching) (hfit : FitsLevel l n)
    (hn : ∀ p, n = .table p → Blank root T free s p) :
    Holds root top (T.set l (y / 512 ^ l) n) free (s.write r (encode l (y / 512 ^ l) n)) := by
  refine ⟨?_, ?_, ?_, ?_, ?_, H.top_site, ?_, ?_, ?_, ?_, H.root_used, ?_⟩
  · refine H.rooted.set n hnt hl fun hlt => ?_
    obtain ⟨p, hp, -⟩ := slot_parent hr hlt
    rw [Radix.div_pow_succ] at hp
    exact ⟨p, hp⟩
  · intro l' x'
    by_cases hc : l' = l ∧ x' = y / 512 ^ l
    · obtain ⟨rfl, rfl⟩ := hc
      rw [Radix.set_self]
      exact hfit
    · rw [Radix.set_of_ne n hc]
      exact H.fits l' x'
  · intro l' x' hne
    by_cases hc : l' = l ∧ x' = y / 512 ^ l
    · obtain ⟨rfl, rfl⟩ := hc
      exact (Nat.div_mul_le_self y _).trans_lt hy
    · rw [Radix.set_of_ne n hc] at hne
      exact H.inside hne
  · rw [write_pages]
    exact H.supply
  · rw [write_pages]
    exact H.nr_le
  · by_cases h3 : l = 3
    · subst h3
      obtain rfl := H.slot_top hr
      rw [read_write, Nat.div_eq_of_lt (by omega : y < 512 ^ 3), Radix.set_self]
    · obtain ⟨p, hp, rfl⟩ := slot_parent hr (by omega)
      rw [read_write_of_ne, H.top_eq, Radix.set_of_ne n (by omega)]
      rintro rfl
      rcases H.top_site with h | ⟨j, hj, h⟩
      · cases h
      · exact (H.fresh hp).2.1
          (slot_inj (Nat.mod_lt _ (by omega)) hj (EntryRef.slot.inj h)).1
  · exact fun hp i hi => H.put_words hr hl hnt hn hp hi
  · intro l₁ x₁ l₂ x₂ p h₁ h₂
    rcases Radix.table_of_set h₁ with ⟨hl₁, hx₁, hnp⟩ | h₁' <;>
      rcases Radix.table_of_set h₂ with ⟨hl₂, hx₂, hnp'⟩ | h₂'
    · exact ⟨hl₁.trans hl₂.symm, hx₁.trans hx₂.symm⟩
    · exact absurd h₂' ((hn p hnp).not_table _ _)
    · exact absurd h₁' ((hn p hnp').not_table _ _)
    · exact H.inj h₁' h₂'
  · intro l' x' p hp
    rcases Radix.table_of_set hp with ⟨-, -, hnp⟩ | hp
    · exact ⟨(hn p hnp).not_free, (hn p hnp).ne_root, (hn p hnp).lt⟩
    · exact H.fresh hp
  · rw [write_pgt (H.slot_ne_pgt hr)]
    exact H.pgt_eq

/-- `AllocPage` takes a page off the list, and clearing it makes it blank. -/
theorem take_page {i j : Nat} {t : List Nat} (H : Holds root top T (i :: j :: t) s) :
    ∃ m, s.pages.allocPage = .ok (.pg i, m) ∧ m.deref (.pg i) = .ok () ∧
      (m.page (.pg i)).phyaddr = pageSize * i ∧
      Holds root top T (j :: t) ({ s with pages := m }.clear (pageSize * i)) ∧
      Blank root T (j :: t) ({ s with pages := m }.clear (pageSize * i)) i := by
  obtain ⟨m, halloc, S, hf⟩ := H.supply.allocPage_pop
  have hi : i ∈ i :: j :: t := by simp
  have hlt := H.supply.bounded i hi
  have hnot : i ∉ j :: t := (List.nodup_cons.mp H.supply.nodup).1
  have hroot : i ≠ root := fun h => H.root_used (h ▸ hi)
  have htab : ∀ l x, T l x ≠ .table i := fun l x h => (H.fresh h).1 hi
  refine ⟨m, halloc, ?_, ?_, ?_, ?_⟩
  · exact MemPages.deref_pg (by rw [hf.nr_eq]; exact hlt)
  · rw [hf.phyaddr_eq, H.supply.phyaddr_eq i hi]
  · refine ⟨H.rooted, H.fits, H.inside, S, ?_, H.top_site, ?_, ?_, H.inj, ?_, ?_, H.pgt_eq⟩
    · exact hf.nr_eq.le.trans H.nr_le
    · rw [← H.top_eq]
      rcases H.top_site with rfl | ⟨k, hk, rfl⟩
      · rfl
      · exact clear_mem_of_ne hk (Ne.symm hroot)
    · intro l x p hp k hk
      rw [← H.words hp k hk]
      refine clear_mem_of_ne hk ?_
      rintro rfl
      exact htab _ _ hp
    · intro l x p hp
      obtain ⟨h₁, h₂⟩ := H.fresh hp
      exact ⟨fun hm => h₁ (List.mem_cons_of_mem _ hm), h₂⟩
    · exact fun hm => H.root_used (List.mem_cons_of_mem _ hm)
  · exact ⟨hnot, hroot, hlt.trans_le H.nr_le, htab, fun k hk => clear_mem hk⟩

end Holds

end Paging

end Chestnut
