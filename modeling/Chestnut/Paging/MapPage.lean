import Chestnut.Pages.Requests
import Chestnut.Paging.Descent

/-!
# Mapping one page

`MapPage` descends through the tables as `MapPagesToPageTable` does, but its
target may be mapped already. Only the last level of the descent looks for a
leaf: a 2 MiB leaf stops it before anything has changed, a 1 GiB leaf is taken
for a table and the memory under it for entries. Everywhere else the call maps
the page and leaves the other pages alone, as long as the tables on the way are
mapped themselves and `AllocPage` can supply the missing ones from mapped pages.
-/

namespace Chestnut

open Lib

namespace Paging

variable {s s' : Paging} {r r' : EntryRef} {root : Nat} {T T' : PageTree}
variable {free free' : List Nat} {y p : Nat}

theorem page_lt (hp : p < 2 ^ 39) : p / pageSize < 2 ^ 27 := by
  rw [pageSize]
  omega

theorem offset_page (hp : p < 2 ^ 39) :
    ∀ k < 3, offset (k + 1) ((kernOffset + p) % u64Size) = p / pageSize / 512 ^ k % 512 :=
  fun _ hk => offset_kern hk (by omega)

/-- The entry that `MapPage` stores is a leaf of the tree. -/
theorem leaf_word_cached (hal : p % pageSize = 0) (wt cd : Bool) :
    Entry.setCacheDisabled cd (Entry.setWriteThrough wt (Entry.ofPaddr p)) =
      encode 0 (p / pageSize / 512 ^ 0) (.leaf ⟨wt, cd⟩) := by
  obtain ⟨y, rfl⟩ := Nat.dvd_of_mod_eq_zero hal
  have hdiv : pageSize * y / pageSize = y := pgnum_page y
  rw [hdiv]
  rw [leaf_word_small, encode, encode, leafFlags, leafFlags, if_pos rfl]
  cases cd with
  | true =>
      cases wt with
      | true => exact Entry.setFlag_true_word (by norm_num) (by norm_num)
      | false => exact Entry.setFlag_true_word (by norm_num) (by norm_num)
  | false =>
      cases wt with
      | true => exact Entry.setFlag_false_word (by norm_num) (by decide) (by norm_num)
      | false => exact Entry.setFlag_false_word (by norm_num) (by decide) (by norm_num)

/-- A 1 GiB leaf covers the physical address `p`. -/
def UnderHuge (s : Paging) (p : Nat) : Prop := ∃ e, s.leafOf p = some (2, e)

/-- A 2 MiB leaf covers the physical address `p`. -/
def UnderLarge (s : Paging) (p : Nat) : Prop := ∃ e, s.leafOf p = some (1, e)

/-- From `s` to `s'` the page of `p` is mapped with the given flags, every other
kernel page translates as before, and the accesses of the call are all to tables,
old ones or those that it has just cleared. -/
structure MapsPage (s s' : Paging) (p : Nat) (wt cd : Bool) : Prop where
  target : ∀ a < 2 ^ 39, a / pageSize = p / pageSize →
    walk s'.mem s'.cr3 (kernOffset + a) = some ⟨a, true, wt⟩ ∧
      ∃ l e, s'.leafOf a = some (l, e) ∧ e.getLsbD 4 = cd
  others : ∀ a < 2 ^ 39, a / pageSize ≠ p / pageSize →
    walk s'.mem s'.cr3 (kernOffset + a) = walk s.mem s.cr3 (kernOffset + a) ∧
      s'.leafOf a = s.leafOf a
  touched : ∀ x ∈ s.mapPageLog p, ∀ q, x.Touches q →
    s.TablePage q ∨ .clear (pageSize * q) ∈ s.mapPageLog p

/-- `MapPage` panics before it has changed anything, or maps the page. -/
def Safe (s : Paging) (p : Nat) (wt cd : Bool) : Prop :=
  (∃ msg, s.mapPage p wt cd = .error (.panic msg) ∧ ∀ x ∈ s.mapPageLog p, x.Reads) ∨
    ∃ s', s.mapPage p wt cd = .ok s' ∧ MapsPage s s' p wt cd

/-- The top-level table and the tables that a walk to `p` passes are mapped. -/
def WayMapped (s : Paging) (p : Nat) : Prop :=
  Reached s (frame 0 s.cr3) ∧
    ∀ q ∈ tablesFrom s.mem (kernOffset + p) 3 (s.rootEntry (kernOffset + p)),
      Reached s (pageSize * q)

instance (s : Paging) (p : Nat) : Decidable (WayMapped s p) :=
  inferInstanceAs (Decidable (_ ∧ ∀ q ∈ _, _))

/-- `AllocPage` returns a mapped page for every table that is missing on the way. -/
def TablesSupplied (s : Paging) (p : Nat) : Prop :=
  s.pages.Supplies (fun q => Reached s (pageSize * q)) (s.missingTables p)

/-- The store at the end of the descent reaches its entry. -/
theorem Arrived.store {log : List Access} (A : Arrived root T T' y free' r' s' log) (e : Entry) :
    s'.store r' e = .ok (s'.write r' e) :=
  A.installed.sees.store ((visible_congr A.leaves).1 ▸ A.seen) e

theorem Arrived.storeLog {log : List Access} (A : Arrived root T T' y free' r' s' log) :
    s'.storeLog r' = [.write r'] :=
  A.installed.sees.storeLog ((visible_congr A.leaves).1 ▸ A.seen)

namespace Installed

variable (I : Installed root T free s)

include I

/-- Every call starts in the kernel's entry of the top-level table. -/
theorem index_root (hp : p < 2 ^ 39) :
    s.index 4 .pgt ((kernOffset + p) % u64Size) = .ok (kernSlot root) := by
  obtain ⟨f, hf, hpgt⟩ := I.holds.pgt_eq
  have hload : s.load .pgt = .ok (Entry.word root f) := congrArg Except.ok hpgt
  exact index_word 4 (by norm_num) (I.root_lt.trans (by norm_num)) hf hload (offset_root hp)
    (by norm_num)

theorem mapPage_eq_descend (hp : p < 2 ^ 39) (wt cd : Bool) :
    s.mapPage p wt cd =
      (descend ((kernOffset + p) % u64Size) 3 (kernSlot root) s >>= fun (r, s) =>
        s.store r (Entry.setCacheDisabled cd (Entry.setWriteThrough wt (Entry.ofPaddr p)))) := by
  rw [mapPage_eq, I.index_root hp, ok_bind]

theorem mapPageLog_eq (hp : p < 2 ^ 39) :
    s.mapPageLog p = .read .pgt ::
      thenLog (descendLog ((kernOffset + p) % u64Size) 3 (kernSlot root) s)
        (descend ((kernOffset + p) % u64Size) 3 (kernSlot root) s) fun (r, s) => s.storeLog r := by
  have hpgt : s.loadLog .pgt = [.read .pgt] := rfl
  rw [mapPageLog, I.index_root hp, thenLog_ok, hpgt, List.singleton_append]

theorem underHuge_iff (hp : p < 2 ^ 39) :
    s.UnderHuge p ↔ ∃ c, T 2 (p / pageSize / 512 ^ 2) = .leaf c := by
  simp only [UnderHuge, I.holds.leafOf_eq_some_iff I.cr3_eq hp]
  exact ⟨fun ⟨_, c, hc, _⟩ => ⟨c, hc⟩, fun ⟨c, hc⟩ => ⟨_, c, hc, rfl⟩⟩

theorem underLarge_iff (hp : p < 2 ^ 39) :
    s.UnderLarge p ↔ ∃ c, T 1 (p / pageSize / 512 ^ 1) = .leaf c := by
  simp only [UnderLarge, I.holds.leafOf_eq_some_iff I.cr3_eq hp]
  exact ⟨fun ⟨_, c, hc, _⟩ => ⟨c, hc⟩, fun ⟨c, hc⟩ => ⟨_, c, hc, rfl⟩⟩

/-- Two trees with the same leaves over a page translate it the same. -/
theorem translation_congr (I' : Installed root T' free' s') {a : Nat} (ha : a < 2 ^ 39)
    (h : ∀ k c, T' k (a / pageSize / 512 ^ k) = .leaf c ↔ T k (a / pageSize / 512 ^ k) = .leaf c) :
    walk s'.mem s'.cr3 (kernOffset + a) = walk s.mem s.cr3 (kernOffset + a) ∧
      s'.leafOf a = s.leafOf a := by
  constructor
  · ext t
    rw [I.holds.walk_eq_some_iff I.cr3_eq ha, I'.holds.walk_eq_some_iff I'.cr3_eq ha]
    simp only [Radix.Mapped, h]
  · ext ⟨k, e⟩
    rw [I.holds.leafOf_eq_some_iff I.cr3_eq ha, I'.holds.leafOf_eq_some_iff I'.cr3_eq ha]
    simp only [h]

/-- Where no large leaf covers the page, none stands on the way to it. -/
theorem no_large_leaf (hp : p < 2 ^ 39) (hhuge : ¬ s.UnderHuge p) (hlarge : ¬ s.UnderLarge p) :
    ∀ k ≤ 3, 0 < k → ∀ c, T k (p / pageSize / 512 ^ k) ≠ .leaf c := by
  rw [I.underHuge_iff hp] at hhuge
  rw [I.underLarge_iff hp] at hlarge
  intro k hk hpos c hc
  obtain rfl | rfl | rfl : k = 1 ∨ k = 2 ∨ k = 3 := by omega
  · exact hlarge ⟨c, hc⟩
  · exact hhuge ⟨c, hc⟩
  · exact (I.holds.fits 3 _).2 rfl c hc

/-- The way is mapped if the tree maps its own tables over the page. -/
theorem wayMapped_iff (hp : p < 2 ^ 39) :
    s.WayMapped p ↔ ∀ q, OnWay root T (p / pageSize) q → Visible T q := by
  rw [WayMapped, I.cr3_eq, I.reached_iff I.root_lt, I.holds.rootEntry_eq I.cr3_eq hp]
  constructor
  · rintro ⟨hroot, htab⟩ q (rfl | ⟨k, hk⟩)
    · exact hroot
    · have hmem := I.holds.mem_tablesFrom le_rfl
        (I.holds.rooted.level (Node.ne_empty_of_table hk)) hk
      exact (I.reached_iff (I.holds.fresh hk).2.2).mp (htab q hmem)
  · intro h
    refine ⟨h root (.inl rfl), fun q hq => ?_⟩
    obtain ⟨k, hk⟩ := I.holds.table_of_tablesFrom le_rfl hq
    exact (I.reached_iff (I.holds.fresh hk).2.2).mpr (h q (.inr ⟨k, hk⟩))

theorem tablesSupplied_iff (hp : p < 2 ^ 39) :
    s.TablesSupplied p ↔
      (T.missing 512 (p / pageSize) 3 = 0 ∨ T.missing 512 (p / pageSize) 3 < free.length) ∧
        ∀ q ∈ free.take (T.missing 512 (p / pageSize) 3), Visible T q := by
  rw [TablesSupplied, I.holds.supply.supplies_iff, I.holds.missingTables_eq I.cr3_eq hp]
  refine and_congr_right fun _ => forall₂_congr fun q hq => I.reached_iff ?_
  exact (I.holds.supply.bounded q (List.mem_of_mem_take hq)).trans_le I.holds.nr_le

/-- What the descent of a call needs, in terms of the walk. -/
theorem affords_iff (hp : p < 2 ^ 39) :
    (kernSlot root).Seen (Visible T) ∧ Affords T free (p / pageSize) 3 ↔
      s.WayMapped p ∧ s.TablesSupplied p := by
  have hseen : (kernSlot root).Seen (Visible T) ↔ Visible T root := by
    rw [kernSlot, EntryRef.Seen, pgnum_slot root (by norm_num)]
  rw [I.wayMapped_iff hp, I.tablesSupplied_iff hp, hseen]
  constructor
  · rintro ⟨hroot, A⟩
    refine ⟨?_, A.pages, A.mapped⟩
    rintro q (rfl | ⟨k, hk⟩)
    · exact hroot
    · exact A.tables k (I.holds.rooted.level (Node.ne_empty_of_table hk)) q hk
  · rintro ⟨hway, hpages, hmapped⟩
    exact ⟨hway root (.inl rfl), fun k _ q hq => hway q (.inr ⟨k, hq⟩), hpages, hmapped⟩

/-- The entry at the end of the descent becomes a leaf. -/
theorem store_leaf {log : List Access} (hy : y < 2 ^ 27)
    (A : Arrived root T T' y free' r' s' log) (c : Caching) :
    Installed root (T'.set 0 (y / 512 ^ 0) (.leaf c)) free'
      (s'.write r' (encode 0 (y / 512 ^ 0) (.leaf c))) := by
  have hnt : ∀ q, T' 0 (y / 512 ^ 0) ≠ .table q := (A.installed.holds.fits 0 _).1 rfl
  refine ⟨A.installed.holds.put A.slot (by omega) hy hnt _ ⟨nofun, nofun⟩ nofun, ?_, I.root_lt⟩
  rw [write_cr3, A.installed.cr3_eq]

/-- The call has only been to tables, if its descent arrives. -/
theorem touched_of_arrived (hp : p < 2 ^ 39)
    (hok : descend ((kernOffset + p) % u64Size) 3 (kernSlot root) s = .ok (r', s'))
    (A : Arrived root T T' (p / pageSize) free' r' s'
      (descendLog ((kernOffset + p) % u64Size) 3 (kernSlot root) s)) :
    ∀ x ∈ s.mapPageLog p, ∀ q, x.Touches q →
      s.TablePage q ∨ .clear (pageSize * q) ∈ s.mapPageLog p := by
  have hlog : s.mapPageLog p = .read .pgt ::
      (descendLog ((kernOffset + p) % u64Size) 3 (kernSlot root) s ++ [.write r']) := by
    rw [I.mapPageLog_eq hp, hok, ← A.storeLog]
    rfl
  rw [hlog]
  intro x hx q hq
  have hcases : OnWay root T (p / pageSize) q ∨ .clear (pageSize * q) ∈
      descendLog ((kernOffset + p) % u64Size) 3 (kernSlot root) s := by
    rcases List.mem_cons.mp hx with rfl | hx
    · cases hq
    · rcases List.mem_append.mp hx with hx | hx
      · exact A.touched x hx q hq
      · obtain rfl := List.mem_singleton.mp hx
        exact A.tables q (slot_onWay A.slot hq)
  rcases hcases with h | h
  · exact .inl (I.holds.tablePage I.cr3_eq hp h)
  · exact .inr (List.mem_cons_of_mem _ (List.mem_append_left _ h))

/-- If the descent arrives, the store maps the page and no other. -/
theorem mapsPage_of_arrived (hp : p < 2 ^ 39)
    (hok : descend ((kernOffset + p) % u64Size) 3 (kernSlot root) s = .ok (r', s'))
    (A : Arrived root T T' (p / pageSize) free' r' s'
      (descendLog ((kernOffset + p) % u64Size) 3 (kernSlot root) s)) (wt cd : Bool) :
    MapsPage s (s'.write r' (encode 0 (p / pageSize / 512 ^ 0) (.leaf ⟨wt, cd⟩))) p wt cd := by
  have I' := I.store_leaf (page_lt hp) A ⟨wt, cd⟩
  refine ⟨?_, ?_, I.touched_of_arrived hp hok A⟩
  · intro a ha heq
    have hself : T'.set 0 (p / pageSize / 512 ^ 0) (.leaf ⟨wt, cd⟩) 0 (a / pageSize / 512 ^ 0) =
        .leaf ⟨wt, cd⟩ := by
      rw [heq, Radix.set_self]
    refine ⟨(I'.holds.walk_eq_some_iff I'.cr3_eq ha _).mpr ⟨⟨wt, cd⟩, ⟨0, hself⟩, rfl⟩, 0, _,
      (I'.holds.leafOf_eq_some_iff I'.cr3_eq ha _ _).mpr ⟨⟨wt, cd⟩, hself, rfl⟩, ?_⟩
    exact (leaf_bits 0 _ ⟨wt, cd⟩).2.2.2.1
  · intro a ha hne
    refine I.translation_congr I' ha fun k c => ?_
    rw [Radix.set_of_ne, A.leaves]
    rintro ⟨rfl, hx⟩
    exact hne (by simpa using hx)

/-- A page that no large leaf covers. -/
theorem mapPage_small (hal : p % pageSize = 0) (hp : p < 2 ^ 39) (wt cd : Bool)
    (hhuge : ¬ s.UnderHuge p) (hlarge : ¬ s.UnderLarge p) :
    ¬ (s.WayMapped p ∧ s.TablesSupplied p) ∧ Fails (s.mapPage p wt cd) ∨
      (s.WayMapped p ∧ s.TablesSupplied p) ∧ ∃ s' T' free', s.mapPage p wt cd = .ok s' ∧
        Installed root T' free' s' ∧ MapsPage s s' p wt cd := by
  rw [← I.affords_iff hp, I.mapPage_eq_descend hp]
  rcases I.descend_spec (.inl ⟨rfl, rfl⟩) le_rfl (page_lt hp) (offset_page hp)
    (I.no_large_leaf hp hhuge hlarge) with ⟨hno, hfail⟩ | ⟨hgood, r', s', T', free', hok, A⟩
  · exact .inl ⟨hno, hfail _⟩
  · refine .inr ⟨hgood, _, _, free', ?_, I.store_leaf (page_lt hp) A ⟨wt, cd⟩,
      I.mapsPage_of_arrived hp hok A wt cd⟩
    rw [hok, ok_bind, leaf_word_cached hal]
    exact A.store _

/-- A descent that cannot reach its entry fails. -/
theorem descend_blind {vaddr l : Nat} (hr : Slot (kernSlot root) T (l + 1) y r)
    (hs : ¬ r.Seen (Visible T)) : Fails (descend vaddr (l + 1) r s) := by
  have hb := (I.slot_seen_or_blind hr).resolve_left hs
  right
  rw [descend, I.sees.child_blind hb]
  rfl

/-- The descent to a leaf above level 0 passes the tables over it, which it reads, or
fails at the first that is not mapped. -/
theorem descend_to_leaf {vaddr l k : Nat} {c : Caching} (hr : Slot (kernSlot root) T l y r)
    (hk : 0 < k) (hkl : k ≤ l) (hl : l ≤ 3) (hy : y < 2 ^ 27)
    (hoff : ∀ k < 3, offset (k + 1) vaddr = y / 512 ^ k % 512)
    (hleaf : T k (y / 512 ^ k) = .leaf c) :
    ¬ (r.Seen (Visible T) ∧ ∀ j ≤ l, ∀ q, T j (y / 512 ^ j) = .table q → Visible T q) ∧
        Fails (descend vaddr l r s) ∨
      (r.Seen (Visible T) ∧ ∀ j ≤ l, ∀ q, T j (y / 512 ^ j) = .table q → Visible T q) ∧
        ∃ r₁ pre, Slot (kernSlot root) T k y r₁ ∧ r₁.Seen (Visible T) ∧
          descend vaddr l r s = descend vaddr k r₁ s ∧
          descendLog vaddr l r s = pre ++ descendLog vaddr k r₁ s ∧ ∀ x ∈ pre, x.Reads := by
  induction l generalizing r with
  | zero => omega
  | succ l ih =>
      by_cases hs : r.Seen (Visible T)
      · rcases Nat.le_succ_iff.mp hkl with hkl | rfl
        · obtain ⟨q, hq⟩ := I.holds.rooted.ancestor (Node.ne_empty_of_leaf hleaf)
            (k := l + 1) (by omega) hl
          obtain ⟨r₁, hr₁, hseen, hrun, hlog⟩ :=
            I.descend_table hr hs (by omega) hy hq (hoff l (by omega))
          have hiff : (r.Seen (Visible T) ∧ ∀ j ≤ l + 1, ∀ q, T j (y / 512 ^ j) = .table q →
              Visible T q) ↔ r₁.Seen (Visible T) ∧ ∀ j ≤ l, ∀ q, T j (y / 512 ^ j) = .table q →
                Visible T q := by
            rw [and_iff_right hs, hseen]
            constructor
            · exact fun h => ⟨h (l + 1) le_rfl q hq, fun j hj => h j (by omega)⟩
            · rintro ⟨hv, h⟩ j hj q' hq'
              rcases Nat.le_succ_iff.mp hj with hj | rfl
              · exact h j hj q' hq'
              · cases hq.symm.trans hq'
                exact hv
          rw [hiff, hrun, hlog]
          refine (ih hr₁ hkl (by omega)).imp_right ?_
          rintro ⟨hgood, r₂, pre, hr₂, hs₂, hrun₂, hlog₂, hreads⟩
          refine ⟨hgood, r₂, [.read r, .read r] ++ pre, hr₂, hs₂, hrun₂, ?_, ?_⟩
          · rw [hlog₂, List.append_assoc]
          · simpa [Access.Reads] using hreads
        · -- no table stands at the level of the leaf or below it
          refine .inr ⟨⟨hs, fun j hj q hq => ?_⟩, r, [], hr, hs, rfl, rfl, nofun⟩
          rcases Nat.le_succ_iff.mp hj with hj | rfl
          · obtain ⟨q', hq'⟩ := I.holds.rooted.ancestor (Node.ne_empty_of_table hq)
              (k := l + 1) (by omega) hl
            cases hleaf.symm.trans hq'
          · cases hleaf.symm.trans hq
      · exact .inl ⟨fun h => hs h.1, I.descend_blind hr hs⟩

/-- The descent of a call for a page under a large leaf. -/
theorem descend_under_leaf (hp : p < 2 ^ 39) {k : Nat} {c : Caching} (hk : 0 < k)
    (hleaf : T k (p / pageSize / 512 ^ k) = .leaf c) :
    ¬ s.WayMapped p ∧ Fails (descend ((kernOffset + p) % u64Size) 3 (kernSlot root) s) ∨
      s.WayMapped p ∧ ∃ r₁ pre, Slot (kernSlot root) T k (p / pageSize) r₁ ∧
        r₁.Seen (Visible T) ∧
        descend ((kernOffset + p) % u64Size) 3 (kernSlot root) s =
          descend ((kernOffset + p) % u64Size) k r₁ s ∧
        descendLog ((kernOffset + p) % u64Size) 3 (kernSlot root) s =
          pre ++ descendLog ((kernOffset + p) % u64Size) k r₁ s ∧ ∀ x ∈ pre, x.Reads := by
  have hseen : (kernSlot root).Seen (Visible T) ↔ Visible T root := by
    rw [kernSlot, EntryRef.Seen, pgnum_slot root (by norm_num)]
  have hiff : s.WayMapped p ↔ (kernSlot root).Seen (Visible T) ∧
      ∀ j ≤ 3, ∀ q, T j (p / pageSize / 512 ^ j) = .table q → Visible T q := by
    rw [I.wayMapped_iff hp, hseen]
    constructor
    · exact fun h => ⟨h root (.inl rfl), fun j _ q hq => h q (.inr ⟨j, hq⟩)⟩
    · rintro ⟨hroot, h⟩ q (rfl | ⟨j, hj⟩)
      · exact hroot
      · exact h j (I.holds.rooted.level (Node.ne_empty_of_table hj)) q hj
  rw [hiff]
  exact I.descend_to_leaf (.inl ⟨rfl, rfl⟩) hk
    (I.holds.rooted.level (Node.ne_empty_of_leaf hleaf)) le_rfl (page_lt hp) (offset_page hp) hleaf

/-- Under a 2 MiB leaf `MapPage` panics and has only read tables, if they are mapped. -/
theorem mapPage_large (hp : p < 2 ^ 39) (wt cd : Bool) (h : s.UnderLarge p) :
    ¬ s.WayMapped p ∧ Fails (s.mapPage p wt cd) ∨
      s.WayMapped p ∧ (∃ msg, s.mapPage p wt cd = .error (.panic msg)) ∧
        ∀ x ∈ s.mapPageLog p, x.Reads := by
  obtain ⟨c, hc⟩ := (I.underLarge_iff hp).mp h
  rw [I.mapPage_eq_descend hp, I.mapPageLog_eq hp]
  rcases I.descend_under_leaf hp (by norm_num) hc with
    ⟨hno, hfail⟩ | ⟨hway, r₁, pre, hr₁, hs₁, hrun, hlog, hreads⟩
  · exact .inl ⟨hno, hfail.bind _⟩
  · have hread := I.holds.read_slot hr₁ (page_lt hp)
    rw [hc] at hread
    obtain ⟨hpres, -, -, -, hhuge⟩ := leaf_bits 1 (p / pageSize / 512 ^ 1) c
    obtain ⟨hrun₀, hlog₀⟩ := I.descend_huge hs₁
      (by rw [hread]; exact (Entry.getFlag_eq _ (by norm_num)).trans hpres)
      (by rw [hread]; exact (Entry.getFlag_eq _ (by norm_num)).trans hhuge)
      ((kernOffset + p) % u64Size)
    refine .inr ⟨hway, ⟨"Cannot access huge page dir entry", ?_⟩, ?_⟩
    · rw [hrun, hrun₀]
      rfl
    · rw [hrun, hrun₀, hlog, hlog₀]
      refine List.forall_mem_cons.mpr ⟨trivial, List.forall_mem_append.mpr ⟨hreads, ?_⟩⟩
      simp [Access.Reads]

/-- Every table of the kernel is the top-level one or a table of the tree. -/
theorem table_of_tablePage {q : Nat} (hq : s.TablePage q) :
    q = root ∨ ∃ k x, T k x = .table q := by
  rcases hq with rfl | ⟨a, ha, hq⟩
  · left
    rw [I.cr3_eq, pgnum_page]
  · rw [I.holds.rootEntry_eq I.cr3_eq ha] at hq
    obtain ⟨k, hk⟩ := I.holds.table_of_tablesFrom le_rfl hq
    exact .inr ⟨k, _, hk⟩

end Installed

/-- The tables that `InitKernelPageTable` leaves are installed. -/
theorem Built.installed {t : BootTables} {es : List MmapEntry} {taken : List Nat}
    (K : Built t es free s s' T taken free') : Installed t.pml4 T free' s' :=
  ⟨K.holds, K.cr3_eq ▸ K.holds.frame_pgt (t.low.1.trans (by norm_num)),
    t.low.1.trans (by norm_num)⟩

/-- One call of `MapPage`. -/
structure MapCall where
  paddr : Nat
  writeThrough : Bool
  cacheDisabled : Bool

/-- The call is for a page below 512 GiB that no 1 GiB leaf covers. -/
def MapCall.Allowed (s : Paging) (c : MapCall) : Prop :=
  c.paddr % pageSize = 0 ∧ c.paddr < 2 ^ 39 ∧ ¬ s.UnderHuge c.paddr

/-- The states that such calls lead to. -/
def MapReachable : Paging → Paging → Prop :=
  Reach (fun s (c : MapCall) => s.mapPage c.paddr c.writeThrough c.cacheDisabled) MapCall.Allowed

/-- A call that returns was not for a page under a 2 MiB leaf. -/
theorem Installed.not_underLarge (I : Installed root T free s) {c : MapCall} (ha : c.Allowed s)
    (h : s.mapPage c.paddr c.writeThrough c.cacheDisabled = .ok s') :
    ¬ s.UnderLarge c.paddr := by
  intro hlarge
  rcases I.mapPage_large ha.2.1 c.writeThrough c.cacheDisabled hlarge with
    ⟨-, hfail⟩ | ⟨-, ⟨msg, hpanic⟩, -⟩
  · rcases hfail with he | he <;> cases he.symm.trans h
  · cases hpanic.symm.trans h

/-- A call that returns maps the page and leaves a tree of tables behind. -/
theorem Installed.mapPage_ok (I : Installed root T free s) {c : MapCall} (ha : c.Allowed s)
    (h : s.mapPage c.paddr c.writeThrough c.cacheDisabled = .ok s') :
    (∃ T' free', Installed root T' free' s') ∧
      MapsPage s s' c.paddr c.writeThrough c.cacheDisabled := by
  rcases I.mapPage_small ha.1 ha.2.1 c.writeThrough c.cacheDisabled ha.2.2
    (I.not_underLarge ha h) with ⟨-, hfail⟩ | ⟨-, s₁, T', free', hok, I', M⟩
  · rcases hfail with he | he <;> cases he.symm.trans h
  · cases hok.symm.trans h
    exact ⟨⟨T', free', I'⟩, M⟩

theorem MapReachable.installed {s₁ : Paging} (h : MapReachable s₁ s)
    (I : ∃ T free, Installed root T free s₁) : ∃ T free, Installed root T free s :=
  Reach.inv (I := fun s => ∃ T free, Installed root T free s) I
    (fun _ _ _ ⟨_, _, I⟩ ha hs => (I.mapPage_ok ha hs).1) h

/-- Some pages for tables, the boot tables, and the second gigabyte of memory. -/
def gigabyteMap : List MmapEntry :=
  [.ofWords 0x1000 0x7000 1, .ofWords 0x102000 0x3000 1, .ofWords 0x40000000 0x40000000 1]

end Paging

end Chestnut
