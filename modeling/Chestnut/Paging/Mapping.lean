import Chestnut.Paging.BootTable
import Mathlib.Data.Finset.Card
import Mathlib.Order.Interval.Finset.Nat

/-!
# The mapping loop

`MapPagesToPageTable` and the loop of `InitKernelPageTable` over the memory
map, against the set of pages that the tree maps. A pass of the loop maps one
leaf over a region no page of which is mapped yet; then no node on the way
down is a leaf and the node to fill is empty. The loop runs under the boot
tables, so every page it takes for a table must lie in the first gigabyte; which
tables it needs follows from the range alone.
-/

namespace Chestnut

open Lib

namespace Paging

variable {s s' s₀ s₁ : Paging} {r : EntryRef} {top : EntryRef} {T T' T₀ T₁ : PageTree}
variable {free taken free' free₀ free₁ taken₁ : List Nat} {l y : Nat}

/-- `T'` is `T` with tables added above level `l` on the way to the page `y`. -/
structure Grown (T T' : PageTree) (l y : Nat) : Prop where
  same : ∀ l' x, l' ≤ l → T' l' x = T l' x
  mapped : ∀ y' v, T'.Mapped 512 y' v ↔ T.Mapped 512 y' v
  inhabited : ∀ P : Nat → Prop, T.Inhabited 512 P → P y → T'.Inhabited 512 P

/-- The word is in no table of the tree, and it is not the entry above them. -/
def OffTables (top : EntryRef) (T : PageTree) (a : Nat) : Prop :=
  top ≠ .slot a ∧ ∀ k x, T k x ≠ .table (pgnum a)

/-- Between two states the pages `taken` have left the free list, every new table
is one of them, and memory has changed in the tables only. -/
structure Took (top : EntryRef) (T T' : PageTree) (free taken free' : List Nat)
    (s s' : Paging) : Prop where
  split : free = taken ++ free'
  tables : ∀ k x q, T' k x = .table q → T k x = .table q ∨ q ∈ taken
  frame : ∀ a, OffTables top T a → pgnum a ∉ taken → s'.mem a = s.mem a

theorem slot_ne_of_offTables (hr : Slot top T l y r) {a : Nat} (ha : OffTables top T a) :
    r ≠ .slot a := by
  rcases hr with ⟨-, rfl⟩ | ⟨p, hp, rfl⟩
  · exact ha.1
  · intro he
    rw [← EntryRef.slot.inj he] at ha
    refine ha.2 (l + 1) (y / 512 ^ (l + 1)) ?_
    rw [pgnum_slot p (Nat.mod_lt _ (by norm_num))]
    exact hp

namespace Took

theorem refl (top : EntryRef) (T : PageTree) (free : List Nat) (s : Paging) :
    Took top T T free [] free s s :=
  ⟨rfl, fun _ _ _ => .inl, fun _ _ _ => rfl⟩

theorem offTables (K : Took top T T' free taken free' s s') {a : Nat} (ha : OffTables top T a)
    (hm : pgnum a ∉ taken) : OffTables top T' a := by
  refine ⟨ha.1, fun k x hk => ?_⟩
  rcases K.tables k x _ hk with hk | hk
  · exact ha.2 k x hk
  · exact hm hk

theorem trans (K : Took top T T₁ free taken₁ free₁ s s₁)
    (K' : Took top T₁ T' free₁ taken free' s₁ s') :
    Took top T T' free (taken₁ ++ taken) free' s s' := by
  refine ⟨by rw [K.split, K'.split, List.append_assoc], fun k x q hq => ?_, fun a ha hm => ?_⟩
  · rcases K'.tables k x q hq with hq | hq
    · exact (K.tables k x q hq).imp_right fun h => List.mem_append_left _ h
    · exact .inr (List.mem_append_right _ hq)
  · rw [List.mem_append, not_or] at hm
    exact (K'.frame a (K.offTables ha hm.1) hm.2).trans (K.frame a ha hm.1)

/-- A new table. -/
theorem table (hr : Slot top T l y r) (p : Nat) (rest : List Nat) (m : MemPages) :
    Took top T (T.set l (y / 512 ^ l) (.table p)) (p :: rest) [p] rest s (s.hang m r p) := by
  refine ⟨rfl, fun k x q hq => ?_, fun a ha hm => ?_⟩
  · rcases Radix.table_of_set hq with ⟨-, -, hq⟩ | hq
    · cases hq
      exact .inr List.mem_cons_self
    · exact .inl hq
  · exact hang_mem (slot_ne_of_offTables hr ha) (by simpa using hm)

/-- A new leaf. -/
theorem leaf (hr : Slot top T l y r) (free : List Nat) (c : Caching) (e : Entry) :
    Took top T (T.set l (y / 512 ^ l) (.leaf c)) free [] free s (s.write r e) := by
  refine ⟨rfl, fun k x q hq => .inl ?_, fun a ha _ =>
    write_mem_of_ne (slot_ne_of_offTables hr ha)⟩
  rcases Radix.table_of_set hq with ⟨-, -, hq⟩ | hq
  · cases hq
  · exact hq

end Took

/-- The nodes above level `l` on the way to the page `y`. -/
def pathNodes (l y : Nat) : Finset (Nat × Nat) :=
  (Finset.Ioc l 3).image fun k => (k, y / 512 ^ k)

theorem pathNodes_three (y : Nat) : pathNodes 3 y = ∅ := rfl

theorem pathNodes_succ (hl : l < 3) (y : Nat) :
    pathNodes l y = insert (l + 1, y / 512 ^ (l + 1)) (pathNodes (l + 1) y) := by
  have hIoc : Finset.Ioc l 3 = insert (l + 1) (Finset.Ioc (l + 1) 3) := by
    ext k
    simp only [Finset.mem_Ioc, Finset.mem_insert]
    omega
  rw [pathNodes, hIoc, Finset.image_insert, pathNodes]

/-- The loop is under way under the boot tables: it has made the tables `F` of the
tree `T` from the pages `taken` of the first gigabyte. -/
structure Building (t : BootTables) (free₀ : List Nat) (s₀ : Paging) (F : Finset (Nat × Nat))
    (T : PageTree) (taken free : List Nat) (s : Paging) : Prop where
  holds : Holds t.pml4 .kern T free s
  view : BootView t 512 s
  took : Took .kern (fun _ _ => .empty) T free₀ taken free s₀ s
  apart : ∀ q ∈ t.pages, q ∉ free₀
  bounded : ∀ p ∈ free₀, p < 510 * 2 ^ 18
  low : ∀ p ∈ taken, BootView.Low p
  nodes : ∀ k x, (k, x) ∈ F ↔ ∃ p, T k x = .table p
  count : taken.length = F.card
  room : taken = [] ∨ free ≠ []

/-- The pages are too few for the tables `F`, or one of them is not mapped. -/
def Stopped {α : Type} (free₀ : List Nat) (F : Finset (Nat × Nat)) (out : Except Fault α) : Prop :=
  out = .error .nullDeref ∧ 0 < F.card ∧ free₀.length ≤ F.card ∨
    out = .error .pageFault ∧ ∃ p ∈ free₀.take F.card, ¬ BootView.Low p

theorem Stopped.error {α : Type} {F : Finset (Nat × Nat)} {out : Except Fault α}
    (h : Stopped free₀ F out) : ∃ e, out = .error e := by
  rcases h with ⟨rfl, -⟩ | ⟨rfl, -⟩ <;> exact ⟨_, rfl⟩

theorem Stopped.ne_ok {α : Type} {F : Finset (Nat × Nat)} {out : Except Fault α}
    (h : Stopped free₀ F out) (a : α) : out ≠ .ok a := by
  obtain ⟨e, rfl⟩ := h.error
  intro he
  cases he

theorem Stopped.bind {α β : Type} {F F' : Finset (Nat × Nat)} {out : Except Fault α}
    (h : Stopped free₀ F out) (hF : F ⊆ F') (f : α → Except Fault β) :
    Stopped free₀ F' (out >>= f) := by
  have hcard := Finset.card_le_card hF
  rcases h with ⟨rfl, hpos, hlen⟩ | ⟨rfl, p, hp, hhigh⟩
  · exact .inl ⟨rfl, by omega, by omega⟩
  · exact .inr ⟨rfl, p, List.take_subset_take_left _ hcard hp, hhigh⟩

namespace Building

variable {t : BootTables} {F : Finset (Nat × Nat)}
variable (U : Building t free₀ s₀ F T taken free s)

include U

theorem mem_taken {k x q : Nat} (h : T k x = .table q) : q ∈ taken :=
  (U.took.tables k x q h).resolve_left nofun

theorem mem_free₀_of_taken {q : Nat} (h : q ∈ taken) : q ∈ free₀ := by
  rw [U.took.split]
  exact List.mem_append_left _ h

theorem mem_free₀ {q : Nat} (h : q ∈ free) : q ∈ free₀ := by
  rw [U.took.split]
  exact List.mem_append_right _ h

theorem not_boot {q : Nat} (h : q ∈ free) : q ∉ t.pages := fun hq => U.apart q hq (U.mem_free₀ h)

theorem slot_seen (hr : Slot .kern T l y r) : r.Seen BootView.Low := by
  rcases hr with ⟨-, rfl⟩ | ⟨p, hp, rfl⟩
  · trivial
  · rw [EntryRef.Seen, pgnum_slot p (Nat.mod_lt _ (by norm_num))]
    exact U.low p (U.mem_taken hp)

theorem slot_not_boot (hr : Slot .kern T l y r) : ∀ q ∈ t.pages, ¬ r.InPage q := by
  rintro q hq ⟨i, hi, rfl⟩
  rcases hr with ⟨-, he⟩ | ⟨p, hp, he⟩
  · cases he
  · obtain ⟨rfl, -⟩ := slot_inj hi (Nat.mod_lt _ (by norm_num)) (EntryRef.slot.inj he)
    exact U.apart q hq (U.mem_free₀_of_taken (U.mem_taken hp))

/-- A free page is mapped or not, and hanging it into the tree changes neither. -/
theorem hangs (hr : Slot .kern T l y r) : ∀ i j rest, free = i :: j :: rest →
    (BootView.Low i ∨ BootView.High i) ∧ Hangs BootView.Low BootView.High s r i := by
  rintro i j rest rfl
  have hi : i ∈ i :: j :: rest := List.mem_cons_self
  have hlt := U.bounded i (U.mem_free₀ hi)
  refine ⟨?_, U.view.hangs (U.slot_not_boot hr) (U.not_boot hi)⟩
  rw [BootView.Low, BootView.High]
  omega

end Building

/-- The outcome of following references from `kern_entry` down to level `l` over
the page `y`: the slot of a grown tree, unless the pages do not suffice. -/
def Descended (t : BootTables) (free₀ : List Nat) (s₀ : Paging) (F : Finset (Nat × Nat))
    (T : PageTree) (l y : Nat) (out : Except Fault (EntryRef × Paging)) : Prop :=
  Stopped free₀ (F ∪ pathNodes l y) out ∨
    ∃ r s' T' taken free, out = .ok (r, s') ∧
      Building t free₀ s₀ (F ∪ pathNodes l y) T' taken free s' ∧ Slot .kern T' l y r ∧
      Grown T T' l y

section Descent

variable {t : BootTables} {F : Finset (Nat × Nat)}

theorem descended_top (U : Building t free₀ s₀ F T taken free s) :
    Descended t free₀ s₀ F T 3 y (.ok (.kern, s)) := by
  refine .inr ⟨.kern, s, T, taken, free, rfl, ?_, .inl ⟨rfl, rfl⟩,
    fun _ _ _ => rfl, fun _ _ => Iff.rfl, fun _ h _ => h⟩
  rw [pathNodes_three, Finset.union_empty]
  exact U

/-- A table is hung into an empty node of the tree. -/
theorem Building.hang {p : Nat} {rest : List Nat} {m : MemPages}
    (U : Building t free₀ s₀ F T taken (p :: rest) s) (hr : Slot .kern T l y r)
    (hn : T l (y / 512 ^ l) = .empty) (hp : BootView.Low p) (hrest : rest ≠ [])
    (H : Holds t.pml4 .kern (T.set l (y / 512 ^ l) (.table p)) rest (s.hang m r p)) :
    Building t free₀ s₀ (insert (l, y / 512 ^ l) F) (T.set l (y / 512 ^ l) (.table p))
      (taken ++ [p]) rest (s.hang m r p) where
  holds := H
  view := U.view.hang (U.slot_not_boot hr) (U.not_boot List.mem_cons_self) m
  took := U.took.trans (.table hr p rest m)
  apart := U.apart
  bounded := U.bounded
  low := by
    intro q hq
    rcases List.mem_append.mp hq with hq | hq
    · exact U.low q hq
    · rwa [List.mem_singleton.mp hq]
  nodes := by
    intro k x
    rw [Finset.mem_insert, U.nodes, Prod.mk.injEq]
    by_cases hc : k = l ∧ x = y / 512 ^ l
    · obtain ⟨rfl, rfl⟩ := hc
      rw [Radix.set_self]
      exact iff_of_true (.inl ⟨rfl, rfl⟩) ⟨p, rfl⟩
    · rw [Radix.set_of_ne _ hc, or_iff_right hc]
  count := by
    have hnot : (l, y / 512 ^ l) ∉ F := by
      rw [U.nodes, hn]
      simp
    rw [Finset.card_insert_of_notMem hnot, List.length_append, U.count, List.length_singleton]
  room := .inr hrest

/-- One more level of the descent towards an unmapped page. -/
theorem Descended.child {out : Except Fault (EntryRef × Paging)} {vaddr : Nat} (hl : l < 3)
    (hy : y < 2 ^ 27) (hun : ∀ v, ¬ T.Mapped 512 y v)
    (hoff : offset (l + 1) vaddr = y / 512 ^ l % 512)
    (D : Descended t free₀ s₀ F T (l + 1) y out) :
    Descended t free₀ s₀ F T l y (out >>= fun (r, s) => s.child (l + 1) vaddr r) := by
  have hpath : F ∪ pathNodes l y =
      insert (l + 1, y / 512 ^ (l + 1)) (F ∪ pathNodes (l + 1) y) := by
    rw [pathNodes_succ hl, Finset.union_insert]
  rw [Descended, hpath]
  rcases D with hstop | ⟨r, s₁, T', taken, free, rfl, U, hr, G⟩
  · exact .inl (hstop.bind (Finset.subset_insert _ _) _)
  have hlow : ∀ l' x, l' ≤ l → T' l' x = T l' x := fun l' x hl' => G.same l' x (by omega)
  rw [ok_bind]
  cases hn : T' (l + 1) (y / 512 ^ (l + 1)) with
  | leaf v => exact absurd ((G.mapped y v).mp ⟨l + 1, hn⟩) (hun v)
  | table p =>
      have hmem : (l + 1, y / 512 ^ (l + 1)) ∈ F ∪ pathNodes (l + 1) y :=
        (U.nodes _ _).mpr ⟨p, hn⟩
      obtain ⟨-, r', hok, hr'⟩ := U.holds.child_table hr hy U.view.sees (U.slot_seen hr) hn hoff
      rw [Finset.insert_eq_of_mem hmem]
      exact .inr ⟨r', s₁, T', taken, free, hok, U, hr', hlow, G.mapped, G.inhabited⟩
  | empty =>
      have hnot : (l + 1, y / 512 ^ (l + 1)) ∉ F ∪ pathNodes (l + 1) y := by
        rw [U.nodes, hn]
        simp
      have hcount := U.count
      have hcard := Finset.card_insert_of_notMem hnot
      obtain ⟨-, ⟨hshort, -, hnull⟩ | ⟨p, rest, rfl, hrest, ⟨hhigh, -, hfault⟩ |
          ⟨hp, m, r', -, hok, -, H', hr'⟩⟩⟩ :=
        U.holds.child_empty hr hl hy hn U.view.sees (U.slot_seen hr) (U.hangs hr) hoff
      · -- the list is down to its last page
        refine .inl (.inl ⟨hnull, by omega, ?_⟩)
        rw [U.took.split, List.length_append]
        omega
      · -- the page is the next one behind those taken
        refine .inl (.inr ⟨hfault, p, ?_, Nat.not_lt.mpr hhigh.1⟩)
        rw [hcard, ← hcount, U.took.split, List.take_append]
        simp
      · refine .inr ⟨r', _, _, _, rest, hok, U.hang hr hn hp hrest H', hr', ?_, ?_, ?_⟩
        · intro l' x hl'
          rw [Radix.set_of_ne _ (by omega), hlow l' x hl']
        · intro y' v
          rw [Radix.mapped_set _ hn, G.mapped]
          simp
        · intro P hP hPy
          exact (G.inhabited P hP hPy).set _ hPy

end Descent

/-- The tables map exactly the pages `D`, with the caching flags it gives. -/
def Maps (root : Nat) (top : EntryRef) (D : Nat → Caching → Prop) (s : Paging) : Prop :=
  ∃ T free, Holds root top T free s ∧ (T.Inhabited 512 fun y => ∃ v, T.Mapped 512 y v) ∧
    ∀ y v, T.Mapped 512 y v ↔ D y v

/-- The loop has mapped the pages `D` and made the tables `F` for it. -/
def MapsFrom (t : BootTables) (free₀ : List Nat) (s₀ : Paging) (F : Finset (Nat × Nat))
    (D : Nat → Caching → Prop) (s : Paging) : Prop :=
  ∃ T taken free, Building t free₀ s₀ F T taken free s ∧
    (T.Inhabited 512 fun y => ∃ v, T.Mapped 512 y v) ∧ ∀ y v, T.Mapped 512 y v ↔ D y v

/-- A computation that maps the pages `D`, unless the pages do not suffice for the
tables `F`. -/
def Mapping (t : BootTables) (free₀ : List Nat) (s₀ : Paging) (F : Finset (Nat × Nat))
    (D : Nat → Caching → Prop) (out : Except Fault Paging) : Prop :=
  Stopped free₀ F out ∨ ∃ s, out = .ok s ∧ MapsFrom t free₀ s₀ F D s

section Loop

variable {t : BootTables} {F F' : Finset (Nat × Nat)} {D D' : Nat → Caching → Prop}
variable {wt : Bool} {c : Caching}

/-- A leaf is stored in an empty node of the tree. -/
theorem Building.leaf (U : Building t free₀ s₀ F T taken free s) (hr : Slot .kern T l y r)
    (hl : l < 3) (hy : y < 2 ^ 27) (hn : T l (y / 512 ^ l) = .empty) (c : Caching) :
    Building t free₀ s₀ F (T.set l (y / 512 ^ l) (.leaf c)) taken free
      (s.write r (encode l (y / 512 ^ l) (.leaf c))) where
  holds := U.holds.put hr (by omega) hy (Node.ne_table_of_empty hn) (.leaf c)
    ⟨nofun, fun h => by omega⟩ nofun
  view := U.view.write le_rfl (U.slot_not_boot hr) _
  took := by
    have h := U.took.trans (.leaf hr free c (encode l (y / 512 ^ l) (.leaf c)))
    rwa [List.append_nil] at h
  apart := U.apart
  bounded := U.bounded
  low := U.low
  nodes := by
    intro k x
    rw [U.nodes]
    by_cases hc : k = l ∧ x = y / 512 ^ l
    · obtain ⟨rfl, rfl⟩ := hc
      simp [hn]
    · rw [Radix.set_of_ne _ hc]
  count := U.count
  room := U.room

/-- Storing a leaf over a region that has no mapped page. -/
theorem Descended.store {out : Except Fault (EntryRef × Paging)} (hl : l < 3) (hy : y < 2 ^ 27)
    (c : Caching) (hin : T.Inhabited 512 fun y => ∃ v, T.Mapped 512 y v)
    (hD : ∀ y v, T.Mapped 512 y v ↔ D y v)
    (hun : ∀ y' v, y' / 512 ^ l = y / 512 ^ l → ¬ D y' v)
    (hout : Descended t free₀ s₀ F T l y out) :
    Mapping t free₀ s₀ (F ∪ pathNodes l y)
      (fun y' v => D y' v ∨ y' / 512 ^ l = y / 512 ^ l ∧ v = c)
      (out >>= fun (r, s) => s.store r (encode l (y / 512 ^ l) (.leaf c))) := by
  rcases hout with hstop | ⟨r, s, T', taken, free, rfl, U, hr, G⟩
  · exact .inl (hstop.bind (Finset.Subset.refl _) _)
  · have he : T' l (y / 512 ^ l) = .empty := by
      rw [G.same l _ le_rfl]
      exact hin.empty_of_unmapped fun y' v hy' => by
        rw [hD]
        exact hun y' v hy'
    have hmapped : ∀ y' v, (T'.set l (y / 512 ^ l) (.leaf c)).Mapped 512 y' v ↔
        D y' v ∨ y' / 512 ^ l = y / 512 ^ l ∧ v = c := by
      intro y' v
      rw [Radix.mapped_set _ he, G.mapped, hD]
      simp only [Node.leaf.injEq, eq_comm]
    have hy_mapped : ∃ v, (T'.set l (y / 512 ^ l) (.leaf c)).Mapped 512 y v :=
      ⟨c, (hmapped y c).mpr (.inr ⟨rfl, rfl⟩)⟩
    refine .inr ⟨_, U.view.sees.store (U.slot_seen hr) _, _, _, free, U.leaf hr hl hy he c, ?_,
      hmapped⟩
    refine (G.inhabited _ ?_ hy_mapped).set _ hy_mapped
    refine hin.mono ?_
    rintro y' ⟨v, hv⟩
    exact ⟨v, (hmapped y' v).mpr (.inl ((hD y' v).mp hv))⟩

/-- The entry the loop builds for a large page is a leaf of the tree. -/
theorem leaf_word_huge (hl : l ≠ 0) (hal : y % 512 ^ l = 0) :
    Entry.setWriteThrough wt (Entry.setHuge true (Entry.ofPaddr (pageSize * y))) =
      encode l (y / 512 ^ l) (.leaf ⟨wt, false⟩) := by
  have h : Entry.setHuge true (Entry.word y 3) = Entry.word y 0x83 :=
    Entry.setFlag_true_word (by norm_num) (by norm_num)
  rw [Entry.ofPaddr_page, h, encode, Nat.div_mul_cancel (Nat.dvd_of_mod_eq_zero hal), leafFlags,
    if_neg hl]
  cases wt with
  | true => exact Entry.setFlag_true_word (by norm_num) (by norm_num)
  | false => exact Entry.setFlag_false_word (by norm_num) (by decide) (by norm_num)

theorem leaf_word_small :
    Entry.setWriteThrough wt (Entry.ofPaddr (pageSize * y)) =
      encode 0 (y / 512 ^ 0) (.leaf ⟨wt, false⟩) := by
  rw [Entry.ofPaddr_page, encode, pow_zero, Nat.div_one, Nat.mul_one, leafFlags, if_pos rfl]
  cases wt with
  | true => exact Entry.setFlag_true_word (by norm_num) (by norm_num)
  | false => exact Entry.setFlag_false_word (by norm_num) (by decide) (by norm_num)

theorem MapsFrom.congr (h : ∀ y v, D y v ↔ D' y v) (M : MapsFrom t free₀ s₀ F D s) :
    MapsFrom t free₀ s₀ F D' s := by
  obtain ⟨T, taken, free, U, hin, hD⟩ := M
  exact ⟨T, taken, free, U, hin, fun y v => (hD y v).trans (h y v)⟩

theorem Mapping.bind {out : Except Fault Paging} {f : Paging → Except Fault Paging}
    (h : Mapping t free₀ s₀ F D out) (hF : F ⊆ F')
    (hf : ∀ s, MapsFrom t free₀ s₀ F D s → Mapping t free₀ s₀ F' D' (f s)) :
    Mapping t free₀ s₀ F' D' (out >>= f) := by
  rcases h with hstop | ⟨s, rfl, M⟩
  · exact .inl (hstop.bind hF f)
  · exact hf s M

/-- The pages of `D`, and those under the leaf that covers `y` at level `l`. -/
def WithLeaf (D : Nat → Caching → Prop) (l y : Nat) (c : Caching) (y' : Nat) (v : Caching) : Prop :=
  D y' v ∨ y' / 512 ^ l = y / 512 ^ l ∧ v = c

/-- The three descents of the loop, by the level of the leaf they store. -/
def mapAt (s : Paging) (vaddr : Nat) (entry : Entry) : Nat → Except Fault Paging
  | 0 => s.mapSmall vaddr entry
  | 1 => s.mapLarge vaddr entry
  | _ => s.mapHuge vaddr entry

/-- Each descent stores its leaf over a region that has no mapped page. -/
theorem MapsFrom.leaf_at (M : MapsFrom t free₀ s₀ F D s) (hl : l < 3) (hy : y < 2 ^ 27)
    (c : Caching) (hun : ∀ y' v, y' / 512 ^ l = y / 512 ^ l → ¬ D y' v) {vaddr : Nat}
    (hv : vaddr = (kernOffset + pageSize * y) % u64Size) {entry : Entry}
    (he : entry = encode l (y / 512 ^ l) (.leaf c)) :
    Mapping t free₀ s₀ (F ∪ pathNodes l y) (WithLeaf D l y c) (s.mapAt vaddr entry l) := by
  obtain ⟨T, taken, free, U, hin, hD⟩ := M
  have hy_un : ∀ v, ¬ T.Mapped 512 y v := fun v hm => hun y v rfl ((hD y v).mp hm)
  have hoff : ∀ k < 3, offset (k + 1) vaddr = y / 512 ^ k % 512 := by
    intro k hk
    have hdiv : pageSize * y / pageSize = y := pgnum_page y
    rw [hv, offset_kern hk (by rw [pageSize]; omega), hdiv]
  have d₂ := (descended_top (y := y) U).child (l := 2) (by omega) hy hy_un (hoff 2 (by omega))
  have d₁ := d₂.child (l := 1) (by omega) hy hy_un (hoff 1 (by omega))
  have d₀ := d₁.child (l := 0) (by omega) hy hy_un (hoff 0 (by omega))
  subst he
  obtain rfl | rfl | rfl : l = 0 ∨ l = 1 ∨ l = 2 := by omega
  · have h := d₀.store (by omega) hy c hin hD hun
    simp only [bind_assoc] at h
    exact h
  · have h := d₁.store (by omega) hy c hin hD hun
    simp only [bind_assoc] at h
    exact h
  · exact d₂.store (by omega) hy c hin hD hun

/-- The pages of `D`, and those of the range from page `y` to `stop`. -/
def WithRange (D : Nat → Caching → Prop) (y stop : Nat) (c : Caching) (y' : Nat) (v : Caching) :
    Prop :=
  D y' v ∨ (y ≤ y' ∧ pageSize * y' < stop) ∧ v = c

theorem region_iff (hal : y % 512 ^ l = 0) (y' : Nat) :
    y' / 512 ^ l = y / 512 ^ l ↔ y ≤ y' ∧ y' < y + 512 ^ l := by
  obtain ⟨k, rfl⟩ := Nat.dvd_of_mod_eq_zero hal
  have hpos : 0 < 512 ^ l := Nat.pow_pos (by norm_num)
  rw [Nat.mul_div_cancel_left k hpos, Nat.div_eq_iff hpos, Nat.mul_comm k]
  omega

/-- One pass of the loop, then the rest of it from behind the leaf. -/
theorem mapLoop_pass {stop : Nat} (hstop : stop ≤ kernMaxMemory)
    (M : MapsFrom t free₀ s₀ F D s) (hl : l < 3) (hal : y % 512 ^ l = 0)
    (hlt : pageSize * y < stop) (hfit : l = 0 ∨ pageSize * (y + 512 ^ l) ≤ stop) (c : Caching)
    (hun : ∀ y' v, y ≤ y' → pageSize * y' < stop → ¬ D y' v) {entry : Entry}
    (he : entry = encode l (y / 512 ^ l) (.leaf c)) (hF : F ∪ pathNodes l y ⊆ F')
    {f : Paging → Except Fault Paging}
    (hf : ∀ s, MapsFrom t free₀ s₀ (F ∪ pathNodes l y) (WithLeaf D l y c) s →
      Mapping t free₀ s₀ F' (WithRange (WithLeaf D l y c) (y + 512 ^ l) stop c) (f s)) :
    Mapping t free₀ s₀ F' (WithRange D y stop c)
      (s.mapAt ((kernOffset + pageSize * y) % u64Size) entry l >>= f) := by
  simp only [pageSize, kernMaxMemory] at *
  have hregion := region_iff (l := l) hal
  have hin : ∀ y', y ≤ y' → y' < y + 512 ^ l → 4096 * y' < stop := by
    intro y' hle hlt'
    rcases hfit with rfl | hfit
    · omega
    · omega
  have hnew : ∀ y' v, y' / 512 ^ l = y / 512 ^ l → ¬ D y' v := by
    intro y' v hy'
    obtain ⟨h₁, h₂⟩ := (hregion y').mp hy'
    exact hun y' v h₁ (hin y' h₁ h₂)
  refine ((M.leaf_at hl (by omega) c hnew rfl he).bind hF hf).imp_right ?_
  rintro ⟨s', hs', M'⟩
  refine ⟨s', hs', M'.congr fun y' v => ?_⟩
  simp only [WithRange, WithLeaf, hregion, pageSize]
  constructor
  · rintro ((h | ⟨h, hv⟩) | ⟨h, hv⟩)
    · exact .inl h
    · exact .inr ⟨⟨h.1, hin y' h.1 h.2⟩, hv⟩
    · exact .inr ⟨⟨by omega, h.2⟩, hv⟩
  · rintro (h | ⟨h, hv⟩)
    · exact .inl (.inl h)
    · by_cases hlt' : y' < y + 512 ^ l
      · exact .inl (.inr ⟨⟨h.1, hlt'⟩, hv⟩)
      · exact .inr ⟨⟨by omega, h.2⟩, hv⟩

theorem MapsFrom.range_done {stop : Nat} (M : MapsFrom t free₀ s₀ F D s)
    (h : stop ≤ pageSize * y) : MapsFrom t free₀ s₀ F (WithRange D y stop c) s := by
  refine M.congr fun y' v => ⟨.inl, ?_⟩
  rintro (h' | ⟨⟨h₁, h₂⟩, -⟩)
  · exact h'
  · rw [pageSize] at h h₂
    omega

/-- The level of the leaf that a pass of the loop stores. -/
def leafLevel (skip : Bool) (stop addr : Nat) : Nat :=
  if skip ∧ addr % hugePageSize = 0 ∧ addr + hugePageSize ≤ stop then 2
  else if skip ∧ addr % largePageSize = 0 ∧ addr + largePageSize ≤ stop then 1
  else 0

/-- The tables that the loop needs, as nodes of the tree. -/
def rangeTables (skip : Bool) (stop : Nat) : (steps addr : Nat) → Finset (Nat × Nat)
  | 0, _ => ∅
  | steps + 1, addr =>
      if addr < stop then
        pathNodes (leafLevel skip stop addr) (addr / pageSize) ∪
          rangeTables skip stop steps (addr + pageSize * 512 ^ leafLevel skip stop addr)
      else ∅

theorem rangeTables_succ {skip : Bool} {stop steps : Nat} (hlt : pageSize * y < stop)
    (hl : leafLevel skip stop (pageSize * y) = l) :
    rangeTables skip stop (steps + 1) (pageSize * y) =
      pathNodes l y ∪ rangeTables skip stop steps (pageSize * (y + 512 ^ l)) := by
  have hdiv : pageSize * y / pageSize = y := pgnum_page y
  rw [rangeTables, if_pos hlt, hl, hdiv, Nat.mul_add]

/-- The loop maps every page that starts before `stop`, whatever leaves it
chooses. -/
theorem mapLoop_spec {stop : Nat} (hstop : stop ≤ kernMaxMemory) (skip wt : Bool) {steps : Nat}
    (M : MapsFrom t free₀ s₀ F D s)
    (hun : ∀ y' v, y ≤ y' → pageSize * y' < stop → ¬ D y' v)
    (hsteps : pageSteps (pageSize * y) stop ≤ steps) :
    Mapping t free₀ s₀ (F ∪ rangeTables skip stop steps (pageSize * y))
      (WithRange D y stop ⟨wt, false⟩) (mapLoop skip wt stop steps (pageSize * y) s) := by
  induction steps generalizing y s D F with
  | zero =>
      refine .inr ⟨s, rfl, ?_⟩
      rw [rangeTables, Finset.union_empty]
      refine M.range_done ?_
      simp only [pageSteps, pageSize] at hsteps ⊢
      omega
  | succ steps ih =>
      by_cases hlt : pageSize * y < stop
      · -- the rest of the loop, behind a leaf of level `l`
        have hrest : ∀ l, leafLevel skip stop (pageSize * y) = l → y % 512 ^ l = 0 → ∀ s,
            MapsFrom t free₀ s₀ (F ∪ pathNodes l y) (WithLeaf D l y ⟨wt, false⟩) s →
            Mapping t free₀ s₀ (F ∪ rangeTables skip stop (steps + 1) (pageSize * y))
              (WithRange (WithLeaf D l y ⟨wt, false⟩) (y + 512 ^ l) stop ⟨wt, false⟩)
              (mapLoop skip wt stop steps (pageSize * (y + 512 ^ l)) s) := by
          intro l hl hal s M'
          have hpos : 1 ≤ 512 ^ l := Nat.one_le_pow _ _ (by norm_num)
          rw [rangeTables_succ hlt hl, ← Finset.union_assoc]
          refine ih M' ?_ ?_
          · rintro y' v hle hlt' (h | ⟨h, -⟩)
            · exact hun y' v (by omega) hlt' h
            · have := ((region_iff hal y').mp h).2
              omega
          · simp only [pageSteps, pageSize] at hsteps hlt ⊢
            omega
        have hsub : ∀ l, leafLevel skip stop (pageSize * y) = l →
            F ∪ pathNodes l y ⊆ F ∪ rangeTables skip stop (steps + 1) (pageSize * y) := by
          intro l hl
          rw [rangeTables_succ hlt hl, ← Finset.union_assoc]
          exact Finset.subset_union_left
        have hhuge : pageSize * y + hugePageSize = pageSize * (y + 512 ^ 2) := by
          rw [hugePageSize, pageSize]
          omega
        have hlarge : pageSize * y + largePageSize = pageSize * (y + 512 ^ 1) := by
          rw [largePageSize, pageSize]
          omega
        have hsmall : pageSize * y + pageSize = pageSize * (y + 512 ^ 0) := by
          rw [pageSize]
          omega
        rw [mapLoop, if_pos hlt]
        split_ifs with h₂ h₁
        · have hl : leafLevel skip stop (pageSize * y) = 2 := by rw [leafLevel, if_pos h₂]
          have hal : y % 512 ^ 2 = 0 := by
            have := h₂.2.1
            rw [hugePageSize, pageSize] at this
            omega
          rw [hhuge] at h₂ ⊢
          exact mapLoop_pass hstop M (l := 2) (by omega) hal hlt (.inr h₂.2.2) ⟨wt, false⟩ hun
            (leaf_word_huge (by omega) hal) (hsub 2 hl) (hrest 2 hl hal)
        · have hl : leafLevel skip stop (pageSize * y) = 1 := by
            rw [leafLevel, if_neg h₂, if_pos h₁]
          have hal : y % 512 ^ 1 = 0 := by
            have := h₁.2.1
            rw [largePageSize, pageSize] at this
            omega
          rw [hlarge] at h₁ ⊢
          exact mapLoop_pass hstop M (l := 1) (by omega) hal hlt (.inr h₁.2.2) ⟨wt, false⟩ hun
            (leaf_word_huge (by omega) hal) (hsub 1 hl) (hrest 1 hl hal)
        · have hl : leafLevel skip stop (pageSize * y) = 0 := by
            rw [leafLevel, if_neg h₂, if_neg h₁]
          have hal : y % 512 ^ 0 = 0 := Nat.mod_one y
          rw [hsmall]
          exact mapLoop_pass hstop M (l := 0) (by omega) hal hlt (.inl rfl) ⟨wt, false⟩ hun
            leaf_word_small (hsub 0 hl) (hrest 0 hl hal)
      · rw [mapLoop, if_neg hlt, rangeTables, if_neg hlt, Finset.union_empty]
        exact .inr ⟨s, rfl, M.range_done (by omega)⟩

end Loop

end Paging

end Chestnut
