import Chestnut.Paging.Access

/-!
# The descent of `MapPage`

`.AllocateOrPresent()[vaddr]`, level by level, on the installed tables, together
with the log of its accesses. A table can be followed if the tables map its page.
Through a table the descent only reads; at an empty node it hangs a cleared page
into the tree, follows the null page, or faults on a page that is not mapped. The
last level is the only one that refuses a leaf.
-/

namespace Chestnut

open Lib

namespace Paging

variable {s s' : Paging} {r r' : EntryRef} {root : Nat} {T T' T₁ : PageTree}
variable {free free' : List Nat} {l y vaddr p : Nat}

/-- The tree maps the page. -/
def Visible (T : PageTree) (p : Nat) : Prop := p < 2 ^ 27 ∧ ∃ c, T.Mapped 512 p c

/-- The page lies below 512 GiB, and the tree does not map it. -/
def Hidden (T : PageTree) (p : Nat) : Prop := p < 2 ^ 27 ∧ ¬ ∃ c, T.Mapped 512 p c

theorem visible_or_hidden (hp : p < 2 ^ 27) : Visible T p ∨ Hidden T p :=
  (em (∃ c, T.Mapped 512 p c)).imp (⟨hp, ·⟩) (⟨hp, ·⟩)

theorem Hidden.not_visible (h : Hidden T p) : ¬ Visible T p := fun hv => h.2 hv.2

theorem not_seen_of_blind (h : r.Blind (Hidden T)) : ¬ r.Seen (Visible T) := by
  cases r with
  | pgt => cases h
  | kern => cases h
  | slot a => exact Hidden.not_visible h

/-- What is mapped depends on the leaves. -/
theorem visible_congr (h : ∀ k x c, T' k x = .leaf c ↔ T k x = .leaf c) :
    Visible T' = Visible T ∧ Hidden T' = Hidden T := by
  have hmapped : ∀ y c, T'.Mapped 512 y c ↔ T.Mapped 512 y c :=
    fun y c => exists_congr fun k => h k _ c
  constructor <;> funext p <;> simp only [Visible, Hidden, hmapped]

/-- A new table does not change what is mapped. -/
theorem visible_set (hn : T l (y / 512 ^ l) = .empty) (q : Nat) :
    Visible (T.set l (y / 512 ^ l) (.table q)) = Visible T ∧
      Hidden (T.set l (y / 512 ^ l) (.table q)) = Hidden T :=
  visible_congr fun _ _ _ => Radix.set_table_eq_leaf_iff q hn

/-- The kernel's tables are a tree under the page `root`, which `cr3` points to. -/
structure Installed (root : Nat) (T : PageTree) (free : List Nat) (s : Paging) : Prop where
  holds : Holds root (kernSlot root) T free s
  cr3_eq : frame 0 s.cr3 = pageSize * root
  root_lt : root < 2 ^ 27

namespace Installed

variable (I : Installed root T free s)

include I

/-- The processor sees the pages that the tree maps. -/
theorem sees : Sees (Visible T) (Hidden T) s := by
  have haddr : ∀ {a}, pgnum a < 2 ^ 27 → a < 2 ^ 39 := by
    intro a ha
    rw [pgnum, pageSize] at ha
    omega
  refine ⟨fun a ha => ?_, fun a ha => ?_⟩
  · obtain ⟨hlt, c, hc⟩ := ha
    have hw := (I.holds.walk_eq_some_iff I.cr3_eq (haddr hlt) _).mpr ⟨c, hc, rfl⟩
    have hlt' := haddr hlt
    rw [← kernel_address (by omega)] at hw
    exact translate_of_walk hw
  · obtain ⟨hlt, hno⟩ := ha
    have hlt' := haddr hlt
    refine translate_of_walk_none ?_
    rw [kernel_address (by omega), Option.eq_none_iff_forall_ne_some]
    intro t ht
    obtain ⟨c, hc, -⟩ := (I.holds.walk_eq_some_iff I.cr3_eq hlt' t).mp ht
    exact hno ⟨c, hc⟩

theorem reached_iff (hp : p < 2 ^ 27) : Reached s (pageSize * p) ↔ Visible T p := by
  have hlt : pageSize * p < 2 ^ 39 := by
    rw [pageSize]
    omega
  have hdiv : pageSize * p / pageSize = p := pgnum_page p
  simp only [Reached, I.holds.walk_eq_some_iff I.cr3_eq hlt, hdiv]
  constructor
  · rintro ⟨t, ⟨c, hc, -⟩, -⟩
    exact ⟨hp, c, hc⟩
  · rintro ⟨-, c, hc⟩
    exact ⟨_, ⟨c, hc, rfl⟩, rfl⟩

/-- A store outside the tables leaves them as they are. -/
theorem storeOff {a : Nat} (ha : OffTables (kernSlot root) T a) (v : Entry) :
    Installed root T free (s.write (.slot a) v) := by
  have H := I.holds
  refine ⟨⟨H.rooted, H.fits, H.inside, H.supply, H.nr_le, H.top_site, ?_, ?_, H.inj, H.fresh,
    H.root_used, H.pgt_eq⟩, I.cr3_eq, I.root_lt⟩
  · rw [← H.top_eq]
    refine Function.update_of_ne ?_ _ _
    rintro rfl
    exact ha.1 rfl
  · intro l x p hp i hi
    rw [← H.words hp i hi]
    refine Function.update_of_ne ?_ _ _
    rintro rfl
    exact ha.2 (l + 1) x (by rw [pgnum_slot p hi]; exact hp)

/-- Clearing a free page leaves them as they are. -/
theorem clearFree (hp : p ∈ free) : Installed root T free (s.clear (pageSize * p)) := by
  have H := I.holds
  have hroot : root ≠ p := fun h => H.root_used (h ▸ hp)
  refine ⟨⟨H.rooted, H.fits, H.inside, H.supply, H.nr_le, H.top_site, ?_, ?_, H.inj, H.fresh,
    H.root_used, H.pgt_eq⟩, I.cr3_eq, I.root_lt⟩
  · rw [← H.top_eq]
    exact clear_mem_of_ne (by norm_num) hroot
  · intro l x q hq i hi
    rw [← H.words hq i hi]
    refine clear_mem_of_ne hi ?_
    rintro rfl
    exact (H.fresh hq).1 hp

/-- A slot lies in a page that is mapped, or in one that is not. -/
theorem slot_seen_or_blind (hr : Slot (kernSlot root) T l y r) :
    r.Seen (Visible T) ∨ r.Blind (Hidden T) := by
  rcases hr with ⟨-, rfl⟩ | ⟨q, hq, rfl⟩
  · simp only [kernSlot, EntryRef.Seen, EntryRef.Blind, pgnum_slot root (by norm_num : 510 < 512)]
    exact visible_or_hidden I.root_lt
  · simp only [EntryRef.Seen, EntryRef.Blind, pgnum_slot q (Nat.mod_lt _ (by norm_num))]
    exact visible_or_hidden (I.holds.fresh hq).2.2

/-- While `Allocate` hangs the first free page into an empty node, the leaves stay. -/
theorem hangs (hr : Slot (kernSlot root) T l y r) (hpos : 0 < l) (hl : l ≤ 3) (hy : y < 2 ^ 27)
    (hn : T l (y / 512 ^ l) = .empty) : ∀ i j t, free = i :: j :: t →
      (Visible T i ∨ Hidden T i) ∧ Hangs (Visible T) (Hidden T) s r i := by
  rintro i j t rfl
  obtain ⟨m, -, -, -, H', Bl⟩ := I.holds.take_page
  -- neither the empty entry nor the page number alone is present
  have hnamed : SameWay (Entry.word i 0) (s.read r) := by
    rw [I.holds.read_slot hr hy, hn]
    exact .of_absent (Entry.word_getLsbD (by norm_num) 0) (by simp [encode])
  have hway : ∀ a, SameWay ((s.write r (Entry.word i 0)).mem a) (s.mem a) := by
    intro a
    have h := sameWay_write s r hnamed a
    rwa [write_read] at h
  -- the entry differs from that of the finished table in one bit
  have hrw : SameWay (Entry.word i 1) (Entry.word i 3) := by
    have hflags : ∀ k < 12, k ≠ 1 → (1 : Nat).testBit k = (3 : Nat).testBit k := by decide
    have hbits : ∀ k, k ≠ 1 → (Entry.word i 1).getLsbD k = (Entry.word i 3).getLsbD k := by
      intro k hk
      rw [Entry.word_getLsbD (by norm_num), Entry.word_getLsbD (by norm_num)]
      congr 1
      split
      · next h12 => exact hflags k h12 hk
      · rfl
    exact ⟨hbits 0 (by norm_num), fun _ => hbits⟩
  have hung : Sees (Visible T) (Hidden T) ((s.clear (pageSize * i)).write r (Entry.word i 3)) := by
    have hfit : FitsLevel l (.table i) := by
      refine ⟨fun h => by omega, fun _ c hc => ?_⟩
      cases hc
    have I₁ : Installed root (T.set l (y / 512 ^ l) (.table i)) (j :: t) (s.hang m r i) := by
      refine ⟨H'.put hr hl hy (Node.ne_table_of_empty hn) (.table i) hfit fun p hp => ?_, ?_,
        I.root_lt⟩
      · cases hp
        exact Bl
      · rw [hang_cr3, I.cr3_eq]
    have V₁ := I₁.sees
    rw [(visible_set hn i).1, (visible_set hn i).2] at V₁
    refine V₁.congr (by rw [write_cr3, hang_cr3]; rfl) fun a => ?_
    cases r <;> exact .refl _
  have hwr := write_cr3 s r (Entry.word i 0)
  refine ⟨visible_or_hidden Bl.lt, I.sees.congr hwr hway,
    (I.clearFree List.mem_cons_self).sees.congr hwr (sameWay_clear hway), ?_, hung⟩
  exact hung.congr (by rw [write_cr3, write_cr3]) (sameWay_write _ r hrw)

end Installed

/-- The page `q` is the top-level table or a table over the page `y`. -/
def OnWay (root : Nat) (T : PageTree) (y q : Nat) : Prop :=
  q = root ∨ ∃ k, T k (y / 512 ^ k) = .table q

/-- The slots of a descent lie in the tables over the page. -/
theorem slot_onWay (hr : Slot (kernSlot root) T l y r) {q : Nat} (hq : r.Within q) :
    OnWay root T y q := by
  rcases hr with ⟨-, rfl⟩ | ⟨p, hp, rfl⟩
  · exact .inl (hq.symm.trans (pgnum_slot root (by norm_num)))
  · have hpq : pgnum (pageSize * p + 8 * (y / 512 ^ l % 512)) = q := hq
    rw [pgnum_slot p (Nat.mod_lt _ (by norm_num))] at hpq
    exact .inr ⟨l + 1, hpq ▸ hp⟩

/-- What a descent to the page `y` leaves behind, beside the log of its accesses:
some tables are new, the leaves are the old ones. -/
structure Arrived (root : Nat) (T T' : PageTree) (y : Nat) (free' : List Nat)
    (r' : EntryRef) (s' : Paging) (log : List Access) : Prop where
  installed : Installed root T' free' s'
  slot : Slot (kernSlot root) T' 0 y r'
  seen : r'.Seen (Visible T)
  leaves : ∀ k x c, T' k x = .leaf c ↔ T k x = .leaf c
  tables : ∀ q, OnWay root T' y q → OnWay root T y q ∨ .clear (pageSize * q) ∈ log
  touched : ∀ x ∈ log, ∀ q, x.Touches q → OnWay root T y q ∨ .clear (pageSize * q) ∈ log

/-- A descent goes on behind a step that may add a table. -/
theorem Arrived.step {pre log : List Access} (A : Arrived root T₁ T' y free' r' s' log)
    (hleaf : ∀ k x c, T₁ k x = .leaf c ↔ T k x = .leaf c)
    (hway : ∀ q, OnWay root T₁ y q → OnWay root T y q ∨ .clear (pageSize * q) ∈ pre)
    (hpre : ∀ x ∈ pre, ∀ q, x.Touches q → OnWay root T y q ∨ .clear (pageSize * q) ∈ pre) :
    Arrived root T T' y free' r' s' (pre ++ log) := by
  have hold : ∀ q, OnWay root T₁ y q ∨ .clear (pageSize * q) ∈ log →
      OnWay root T y q ∨ .clear (pageSize * q) ∈ pre ++ log := by
    rintro q (hq | hq)
    · exact (hway q hq).imp_right fun h => List.mem_append_left _ h
    · exact .inr (List.mem_append_right _ hq)
  refine ⟨A.installed, A.slot, (visible_congr hleaf).1 ▸ A.seen,
    fun k x c => (A.leaves k x c).trans (hleaf k x c), fun q hq => hold q (A.tables q hq),
    fun x hx q hq => ?_⟩
  rcases List.mem_append.mp hx with hx | hx
  · exact (hpre x hx q hq).imp_right fun h => List.mem_append_left _ h
  · exact hold q (A.touched x hx q hq)

/-- The descent goes on behind a table that it has only read. -/
theorem Arrived.behind_table {log : List Access} (A : Arrived root T T' y free' r' s' log)
    (hr : Slot (kernSlot root) T l y r) :
    Arrived root T T' y free' r' s' ([.read r, .read r] ++ log) := by
  refine A.step (fun _ _ _ => Iff.rfl) (fun _ => .inl) ?_
  intro x hx q hq
  simp only [List.mem_cons, List.not_mem_nil, or_false, or_self] at hx
  subst hx
  exact .inl (slot_onWay hr hq)

/-- The descent goes on behind a table that it has just hung into the tree. -/
theorem Arrived.behind_new {log : List Access}
    (A : Arrived root (T.set l (y / 512 ^ l) (.table p)) T' y free' r' s' log)
    (hr : Slot (kernSlot root) T l y r) (hn : T l (y / 512 ^ l) = .empty) :
    Arrived root T T' y free' r' s' (tableLog r p ++ log) := by
  have hread : ∀ q, r.Within q → OnWay root T y q := fun q => slot_onWay hr
  refine A.step (fun k x c => Radix.set_table_eq_leaf_iff p hn) ?_ ?_
  · rintro q (hq | ⟨k, hk⟩)
    · exact .inl (.inl hq)
    · by_cases hkl : k = l
      · subst hkl
        rw [Radix.set_self] at hk
        cases hk
        simp [tableLog]
      · rw [Radix.set_of_ne _ (by omega)] at hk
        exact .inl (.inr ⟨k, hk⟩)
  · intro x hx q hq
    have hcases : x = .read r ∨ x = .write r ∨ x = .clear (pageSize * p) := by
      simp only [tableLog, List.mem_cons, List.not_mem_nil, or_false] at hx
      tauto
    rcases hcases with rfl | rfl | rfl
    · exact .inl (hread q hq)
    · exact .inl (hread q hq)
    · have hpq : pgnum (pageSize * p) = q := hq
      rw [pgnum_page] at hpq
      simp [tableLog, hpq]

section Log

variable {W B : Nat → Prop} {m : MemPages} {i : Nat}

/-- The accesses of `Allocate` on a page that is mapped. -/
theorem allocateLog_seen (halloc : s.pages.allocPage = .ok (.pg i, m))
    (hderef : m.deref (.pg i) = .ok ()) (hphy : (m.page (.pg i)).phyaddr = pageSize * i)
    (hi : i < 2 ^ 52) (V : Sees W B s) (hr : r.Seen W) (h : Hangs W B s r i) (hw : W i)
    (hread : ∀ s : Paging, (s.clear (pageSize * i)).read r = s.read r) :
    s.allocateLog r = [.write r, .read r, .clear (pageSize * i), .read r, .write r, .read r,
      .write r] := by
  have h' := h.pages m
  have hword : BitVec.ofNat 64 (pageSize * i) = Entry.word i 0 := rfl
  have haddr : (Entry.word i 0).toNat = pageSize * i := Entry.toNat_word hi (by norm_num)
  have h₁ : Entry.setPresent true (Entry.word i 0) = Entry.word i 1 :=
    Entry.setFlag_true_word (by norm_num) (by norm_num)
  simp only [allocateLog, halloc, thenLog, hderef, hphy, hword, (V.pages m).storeLog hr,
    (V.pages m).store hr, h'.named.loadLog hr, h'.named.load hr, read_write, haddr,
    h'.named.clearLog hw, h'.named.clearPage hw, h'.cleared.loadLog hr, h'.cleared.load hr, hread,
    h₁, h'.cleared.storeLog hr, h'.cleared.store hr, write_clear_write, h'.present.loadLog hr,
    h'.present.load hr, h'.present.storeLog hr, List.nil_append, List.cons_append]

end Log

/-- The computation follows the null page or faults. -/
def Fails {α : Type} (out : Except Fault α) : Prop :=
  out = .error .nullDeref ∨ out = .error .pageFault

theorem Fails.bind {α β : Type} {out : Except Fault α} (h : Fails out)
    (f : α → Except Fault β) : Fails (out >>= f) := by
  rcases h with rfl | rfl
  · exact .inl rfl
  · exact .inr rfl

/-- The tables that the tree has on the way from level `l` down to the page `y` are
mapped, and the first free pages, which will be the missing ones, are too. -/
structure Affords (T : PageTree) (free : List Nat) (y l : Nat) : Prop where
  tables : ∀ k ≤ l, ∀ q, T k (y / 512 ^ k) = .table q → Visible T q
  pages : T.missing 512 y l = 0 ∨ T.missing 512 y l < free.length
  mapped : ∀ p ∈ free.take (T.missing 512 y l), Visible T p

theorem affords_table (hp : T (l + 1) (y / 512 ^ (l + 1)) = .table p) :
    Affords T free y (l + 1) ↔ Visible T p ∧ Affords T free y l := by
  have hmiss : T.missing 512 y (l + 1) = T.missing 512 y l := by
    rw [Radix.missing, hp]
  constructor
  · rintro ⟨h₁, h₂, h₃⟩
    rw [hmiss] at h₂ h₃
    exact ⟨h₁ (l + 1) le_rfl p hp, fun k hk => h₁ k (by omega), h₂, h₃⟩
  · rintro ⟨hv, h₁, h₂, h₃⟩
    refine ⟨fun k hk q hq => ?_, by rwa [hmiss], by rwa [hmiss]⟩
    rcases Nat.le_succ_iff.mp hk with hk | rfl
    · exact h₁ k hk q hq
    · cases hp.symm.trans hq
      exact hv

/-- Below an empty node there are no tables, before and after it has become one. -/
theorem affords_empty (R : T.Rooted 512 3) (hl : l < 3)
    (hn : T (l + 1) (y / 512 ^ (l + 1)) = .empty) {t : List Nat} :
    Affords T (p :: t) y (l + 1) ↔ t ≠ [] ∧ Visible T p ∧
      Affords (T.set (l + 1) (y / 512 ^ (l + 1)) (.table p)) t y l := by
  have hbelow : ∀ k ≤ l, T k (y / 512 ^ k) = .empty := by
    intro k hk
    by_contra hne
    obtain ⟨q, hq⟩ := R.ancestor hne (k := l + 1) (by omega) (by omega)
    cases hn.symm.trans hq
  have hsame : ∀ k ≤ l, T.set (l + 1) (y / 512 ^ (l + 1)) (.table p) k (y / 512 ^ k) =
      T k (y / 512 ^ k) := fun k hk => Radix.set_of_ne _ (by omega)
  have hmiss : T.missing 512 y (l + 1) = l + 1 := Radix.missing_of_empty hn
  have hmiss' : (T.set (l + 1) (y / 512 ^ (l + 1)) (.table p)).missing 512 y l = l :=
    (Radix.missing_congr hsame).trans (Radix.missing_of_empty (hbelow l le_rfl))
  have hpos : t ≠ [] ↔ 0 < t.length := List.length_pos_iff.symm
  constructor
  · rintro ⟨-, h₂, h₃⟩
    rw [hmiss, List.length_cons] at h₂
    rw [hmiss, List.take_succ_cons, List.forall_mem_cons] at h₃
    refine ⟨hpos.mpr (by omega), h₃.1, fun k hk q hq => ?_, by rw [hmiss']; omega, ?_⟩
    · rw [hsame k hk, hbelow k hk] at hq
      cases hq
    · rw [hmiss', (visible_set hn p).1]
      exact h₃.2
  · rintro ⟨ht, hv, -, h₂, h₃⟩
    rw [hpos] at ht
    rw [hmiss'] at h₂ h₃
    rw [(visible_set hn p).1] at h₃
    refine ⟨fun k hk q hq => ?_, by rw [hmiss, List.length_cons]; omega, ?_⟩
    · rcases Nat.le_succ_iff.mp hk with hk | rfl
      · cases (hbelow k hk).symm.trans hq
      · cases hn.symm.trans hq
    · rw [hmiss, List.take_succ_cons]
      exact List.forall_mem_cons.mpr ⟨hv, h₃⟩

namespace Installed

variable (I : Installed root T free s)

include I

/-- The descent through a table. -/
theorem descend_table (hr : Slot (kernSlot root) T (l + 1) y r) (hs : r.Seen (Visible T))
    (hl : l < 3) (hy : y < 2 ^ 27) (hp : T (l + 1) (y / 512 ^ (l + 1)) = .table p)
    (hoff : offset (l + 1) vaddr = y / 512 ^ l % 512) :
    ∃ r₁, Slot (kernSlot root) T l y r₁ ∧ (r₁.Seen (Visible T) ↔ Visible T p) ∧
      descend vaddr (l + 1) r s = descend vaddr l r₁ s ∧
      descendLog vaddr (l + 1) r s = [.read r, .read r] ++ descendLog vaddr l r₁ s := by
  obtain ⟨hpres, r₁, hok, hr₁⟩ := I.holds.child_table hr hy I.sees hs hp hoff
  refine ⟨r₁, hr₁, ?_, ?_, ?_⟩
  · obtain ⟨q, hq, rfl⟩ := Holds.slot_parent hr₁ hl
    cases hp.symm.trans hq
    rw [EntryRef.Seen, pgnum_slot p (Nat.mod_lt _ (by norm_num))]
  · rw [descend, hok]
    rfl
  · rw [descendLog, hok, I.sees.childLog_of_present hs hpres]
    rfl

/-- The descent at an empty node: it fails, or there is a new table. -/
theorem descend_empty (hr : Slot (kernSlot root) T (l + 1) y r) (hs : r.Seen (Visible T))
    (hl : l < 3) (hy : y < 2 ^ 27) (hn : T (l + 1) (y / 512 ^ (l + 1)) = .empty)
    (hoff : offset (l + 1) vaddr = y / 512 ^ l % 512) :
    ¬ Affords T free y (l + 1) ∧ Fails (descend vaddr (l + 1) r s) ∨
      ∃ q t m r₁, free = q :: t ∧ t ≠ [] ∧ Visible T q ∧ s.allocate r = .ok (s.hang m r q) ∧
        Installed root (T.set (l + 1) (y / 512 ^ (l + 1)) (.table q)) t (s.hang m r q) ∧
        Slot (kernSlot root) (T.set (l + 1) (y / 512 ^ (l + 1)) (.table q)) l y r₁ ∧
        r₁.Seen (Visible T) ∧ descend vaddr (l + 1) r s = descend vaddr l r₁ (s.hang m r q) ∧
        descendLog vaddr (l + 1) r s =
          tableLog r q ++ descendLog vaddr l r₁ (s.hang m r q) := by
  have hpage := I.hangs hr (by omega) (by omega) hy hn
  have hmiss : T.missing 512 y (l + 1) = l + 1 := Radix.missing_of_empty hn
  obtain ⟨hpres, ⟨hshort, -, hnull⟩ | ⟨q, t, rfl, ht, ⟨hb, -, hfault⟩ |
      ⟨hv, m, r₁, hal, hok, hV, H₁, hr₁⟩⟩⟩ :=
    I.holds.child_empty hr hl hy hn I.sees hs hpage hoff
  · refine .inl ⟨fun A => ?_, ?_⟩
    · have := A.pages
      omega
    · rw [descend, hnull]
      exact .inl rfl
  · refine .inl ⟨fun A => ?_, ?_⟩
    · exact hb.not_visible (((affords_empty I.holds.rooted hl hn).mp A).2.1)
    · rw [descend, hfault]
      exact .inr rfl
  · refine .inr ⟨q, t, m, r₁, rfl, ht, hv, hal, ⟨H₁, ?_, I.root_lt⟩, hr₁, ?_, ?_, ?_⟩
    · rw [hang_cr3, I.cr3_eq]
    · obtain ⟨q', hq', rfl⟩ := Holds.slot_parent hr₁ hl
      rw [Radix.set_self] at hq'
      cases hq'
      rwa [EntryRef.Seen, pgnum_slot q (Nat.mod_lt _ (by norm_num))]
    · rw [descend, hok]
      rfl
    · obtain ⟨j, t, rfl⟩ := List.exists_cons_of_ne_nil ht
      obtain ⟨m', halloc, hderef, hphy, -, Bl⟩ := I.holds.take_page
      have hread : ∀ s : Paging, (s.clear (pageSize * q)).read r = s.read r := fun s =>
        clear_read (I.holds.slot_not_inPage hr Bl.ne_root Bl.not_table)
          ((I.holds.slot_site hr).imp_right (by rintro ⟨q, hq, -⟩; exact ⟨q, hq⟩))
      have hlog : childLog r s = tableLog r q := by
        have halog := allocateLog_seen halloc hderef hphy (Bl.lt.trans (by norm_num)) I.sees hs
          (hpage q j t rfl).2 hv hread
        have hal' : s.allocateOrPresent r = .ok (s.hang m r q) := by
          rw [allocateOrPresent, I.sees.load hs, ok_bind, hpres]
          exact hal
        simp [childLog, allocateOrPresentLog, hal', thenLog, I.sees.loadLog hs, I.sees.load hs,
          hpres, halog, hV.loadLog hs, tableLog]
      rw [descendLog, hok, hlog]
      rfl

/-- The descent towards a page that no large leaf covers, and the store at its end:
they fail unless the entry and all tables on the way are mapped and the missing ones
can be allocated from mapped pages. -/
theorem descend_spec (hr : Slot (kernSlot root) T l y r) (hl : l ≤ 3) (hy : y < 2 ^ 27)
    (hoff : ∀ k < 3, offset (k + 1) vaddr = y / 512 ^ k % 512)
    (hnl : ∀ k ≤ l, 0 < k → ∀ c, T k (y / 512 ^ k) ≠ .leaf c) :
    ¬ (r.Seen (Visible T) ∧ Affords T free y l) ∧
        (∀ e, Fails (descend vaddr l r s >>= fun (r, s) => s.store r e)) ∨
      (r.Seen (Visible T) ∧ Affords T free y l) ∧
        ∃ r' s' T' free', descend vaddr l r s = .ok (r', s') ∧
          Arrived root T T' y free' r' s' (descendLog vaddr l r s) := by
  induction l generalizing r s T free with
  | zero =>
      rcases I.slot_seen_or_blind hr with hs | hb
      · refine .inr ⟨⟨hs, ?_, .inl rfl, nofun⟩, r, s, T, free, rfl, I, hr, hs,
          fun _ _ _ => Iff.rfl, fun _ => .inl, nofun⟩
        intro k hk q hq
        obtain rfl : k = 0 := by omega
        exact absurd hq ((I.holds.fits 0 _).1 rfl q)
      · exact .inl ⟨fun h => not_seen_of_blind hb h.1, fun e => .inr (I.sees.store_blind hb e)⟩
  | succ l ih =>
      rcases I.slot_seen_or_blind hr with hs | hb
      · rw [and_iff_right hs]
        cases hn : T (l + 1) (y / 512 ^ (l + 1)) with
        | leaf c => exact absurd hn (hnl (l + 1) le_rfl (by omega) c)
        | table p =>
            obtain ⟨r₁, hr₁, hseen, hrun, hlog⟩ :=
              I.descend_table hr hs (by omega) hy hn (hoff l (by omega))
            rw [hlog, hrun, affords_table hn, ← hseen]
            refine (ih I hr₁ (by omega) fun k hk => hnl k (by omega)).imp_right ?_
            rintro ⟨hgood, r', s', T', free', hok, A⟩
            exact ⟨hgood, r', s', T', free', hok, A.behind_table hr⟩
        | empty =>
            rcases I.descend_empty hr hs (by omega) hy hn (hoff l (by omega)) with
              ⟨hno, hfail⟩ | ⟨q, t, m, r₁, rfl, ht, hv, -, I₁, hr₁, hs₁, hrun, hlog⟩
            · exact .inl ⟨hno, fun e => hfail.bind _⟩
            · have hnext := ih I₁ hr₁ (by omega) fun k hk hpos c => by
                rw [Radix.set_of_ne _ (by omega)]
                exact hnl k (by omega) hpos c
              rw [(visible_set hn q).1, and_iff_right hs₁] at hnext
              rw [hlog, hrun, affords_empty I.holds.rooted (by omega) hn, and_iff_right ht,
                and_iff_right hv]
              refine hnext.imp_right ?_
              rintro ⟨hgood, r', s', T', free', hok, A⟩
              exact ⟨hgood, r', s', T', free', hok, A.behind_new hr hn⟩
      · refine .inl ⟨fun h => not_seen_of_blind hb h.1, fun e => .inr ?_⟩
        rw [descend, I.sees.child_blind hb]
        rfl

/-- The last level refuses a leaf, and has only looked at it. -/
theorem descend_huge (hs : r.Seen (Visible T)) (hpres : Entry.isPresent (s.read r) = true)
    (hhuge : Entry.isHuge (s.read r) = true) (vaddr : Nat) :
    descend vaddr 1 r s = .error (.panic "Cannot access huge page dir entry") ∧
      descendLog vaddr 1 r s = [.read r, .read r] := by
  have hindex : s.index 1 r vaddr = .error (.panic "Cannot access huge page dir entry") := by
    simp only [index, I.sees.load hs, ok_bind, hhuge, and_self, if_true]
    rfl
  have hchild : child 1 vaddr r s = .error (.panic "Cannot access huge page dir entry") := by
    simp [child, allocateOrPresent, I.sees.load hs, hpres, hindex]
  constructor
  · rw [descend, hchild]
    rfl
  · rw [descendLog, hchild, I.sees.childLog_of_present hs hpres]
    rfl

end Installed

end Paging

end Chestnut
