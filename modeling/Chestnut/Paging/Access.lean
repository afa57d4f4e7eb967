import Chestnut.Paging.Walk

/-!
# What `MapPage` touches

The memory accesses of the descent of `MapPage`, one log beside each function of
the model, and what a walk of the processor passes on its way: the tables it
goes through, the leaf it ends in, or the entry where a table is missing. An access
that faults does not take place. The records of the page allocator are not part of
the log.
-/

namespace Chestnut

open Lib

/-- The entry is a word of the physical page `q`. -/
def EntryRef.Within (q : Nat) : EntryRef → Prop
  | .slot a => pgnum a = q
  | _ => False

/-- One access of the page-table code to memory. -/
inductive Access
  | read (r : EntryRef)
  | write (r : EntryRef)
  | clear (paddr : Nat)
  deriving DecidableEq, Repr

namespace Access

/-- The access changes nothing. -/
def Reads : Access → Prop
  | .read _ => True
  | _ => False

/-- The access is to the physical page `q`. -/
def Touches (q : Nat) : Access → Prop
  | .read r => r.Within q
  | .write r => r.Within q
  | .clear a => pgnum a = q

end Access

namespace Paging

/-- The log of a computation that goes on with `k` unless it faults. -/
def thenLog {α : Type} (log : List Access) (out : Except Fault α) (k : α → List Access) :
    List Access :=
  match out with
  | .ok a => log ++ k a
  | .error _ => log

theorem thenLog_ok {α : Type} (log : List Access) (a : α) (k : α → List Access) :
    thenLog log (.ok (ε := Fault) a) k = log ++ k a := rfl

/-- The access of a load, where the processor maps it. -/
def loadLog (s : Paging) (r : EntryRef) : List Access := thenLog [] (s.resolve r) fun r => [.read r]

/-- The access of a store. -/
def storeLog (s : Paging) (r : EntryRef) : List Access :=
  thenLog [] (s.resolve r) fun r => [.write r]

/-- The access of `memset`. -/
def clearLog (s : Paging) (paddr : Nat) : List Access :=
  thenLog [] (s.translate paddr) fun base => [.clear base]

/-- The accesses of `Allocate` behind `AllocPage`. -/
def allocateLog (s : Paging) (r : EntryRef) : List Access :=
  thenLog [] s.pages.allocPage fun (p, m) =>
  thenLog [] (m.deref p) fun _ =>
  let s := { s with pages := m }
  let entry := BitVec.ofNat 64 (m.page p).phyaddr
  thenLog (s.storeLog r) (s.store r entry) fun s =>
  thenLog (s.loadLog r) (s.load r) fun entry =>
  thenLog (s.clearLog entry.toNat) (s.clearPage entry.toNat) fun s =>
  thenLog (s.loadLog r) (s.load r) fun entry =>
  thenLog (s.storeLog r) (s.store r (Entry.setPresent true entry)) fun s =>
  thenLog (s.loadLog r) (s.load r) fun _ => s.storeLog r

/-- The accesses of `AllocateOrPresent`. -/
def allocateOrPresentLog (s : Paging) (r : EntryRef) : List Access :=
  thenLog (s.loadLog r) (s.load r) fun entry =>
    if !Entry.isPresent entry then s.allocateLog r else []

/-- The accesses of `r.AllocateOrPresent()[vaddr]`. -/
def childLog (r : EntryRef) (s : Paging) : List Access :=
  thenLog (s.allocateOrPresentLog r) (s.allocateOrPresent r) fun s => s.loadLog r

/-- `.AllocateOrPresent()[vaddr]` from an entry of a level down to level 0. -/
def descend (vaddr : Nat) : Nat → EntryRef → Paging → Except Fault (EntryRef × Paging)
  | 0, r, s => .ok (r, s)
  | l + 1, r, s => do
      let (r, s) ← child (l + 1) vaddr r s
      descend vaddr l r s

/-- The accesses of `descend`. -/
def descendLog (vaddr : Nat) : Nat → EntryRef → Paging → List Access
  | 0, _, _ => []
  | l + 1, r, s =>
      thenLog (childLog r s) (child (l + 1) vaddr r s) fun (r, s) => descendLog vaddr l r s

/-- The accesses of `MapPage`. -/
def mapPageLog (s : Paging) (paddr : Nat) : List Access :=
  let vaddr := (kernOffset + paddr) % u64Size
  thenLog (s.loadLog .pgt) (s.index 4 .pgt vaddr) fun r =>
    thenLog (descendLog vaddr 3 r s) (descend vaddr 3 r s) fun (r, s) => s.storeLog r

theorem mapPage_eq (s : Paging) (paddr : Nat) (writeThrough cacheDisabled : Bool) :
    s.mapPage paddr writeThrough cacheDisabled =
      (s.index 4 .pgt ((kernOffset + paddr) % u64Size) >>= fun r =>
        descend ((kernOffset + paddr) % u64Size) 3 r s >>= fun (r, s) =>
          s.store r (Entry.setCacheDisabled cacheDisabled
            (Entry.setWriteThrough writeThrough (Entry.ofPaddr paddr)))) := by
  simp only [mapPage, descend, bind_assoc]
  rfl

section Sight

variable {W B : Nat → Prop} {s : Paging} {r : EntryRef} (V : Sees W B s)

include V

theorem Sees.loadLog (hr : r.Seen W) : s.loadLog r = [.read r] := by
  rw [Paging.loadLog, V.resolve hr]
  rfl

theorem Sees.storeLog (hr : r.Seen W) : s.storeLog r = [.write r] := by
  rw [Paging.storeLog, V.resolve hr]
  rfl

theorem Sees.clearLog {p : Nat} (hp : W p) :
    s.clearLog (pageSize * p) = [.clear (pageSize * p)] := by
  rw [Paging.clearLog, V.seen _ (by rwa [pgnum_page])]
  rfl

/-- A present entry is only read. -/
theorem Sees.childLog_of_present (hr : r.Seen W) (h : Entry.isPresent (s.read r) = true) :
    childLog r s = [.read r, .read r] := by
  have hsame : s.allocateOrPresent r = .ok s := by
    rw [allocateOrPresent, V.load hr, ok_bind, h]
    rfl
  simp [childLog, allocateOrPresentLog, hsame, thenLog, V.loadLog hr, V.load hr, h]

end Sight

/-- The accesses of `childLog` when a new table is hung in. -/
def tableLog (r : EntryRef) (p : Nat) : List Access :=
  [.read r, .write r, .read r, .clear (pageSize * p), .read r, .write r, .read r, .write r, .read r]

/-- What a walk from an entry of level `l` computes: `stop` at the entry that ends
it, and `pass` at each entry of a table before it. -/
def walkFold {β : Type} (stop : Nat → Entry → β) (pass : Entry → β → β) (mem : Nat → Entry)
    (va : Nat) : Nat → Entry → β
  | 0, e => stop 0 e
  | l + 1, e =>
      if !e.getLsbD 0 || (e.getLsbD 7 && decide (l < 2)) then stop (l + 1) e
      else pass e (walkFold stop pass mem va l (mem (frame 0 e + 8 * slotOf l va)))

/-- The leaf a walk ends in, with its level. -/
def leafFrom : (Nat → Entry) → Nat → Nat → Entry → Option (Nat × Entry) :=
  walkFold (fun l e => if e.getLsbD 0 then some (l, e) else none) fun _ leaf => leaf

/-- The number of tables that are missing below the entry where a walk ends. -/
def missingFrom : (Nat → Entry) → Nat → Nat → Entry → Nat :=
  walkFold (fun l e => if e.getLsbD 0 then 0 else l) fun _ n => n

/-- The pages of the tables a walk passes. -/
def tablesFrom : (Nat → Entry) → Nat → Nat → Entry → List Nat :=
  walkFold (fun _ _ => []) fun e ps => pgnum (frame 0 e) :: ps

/-- The entry of the top-level table for an address. -/
def rootEntry (s : Paging) (va : Nat) : Entry := s.mem (frame 0 s.cr3 + 8 * slotOf 3 va)

/-- The leaf over the physical address `a`, at its kernel address. -/
def leafOf (s : Paging) (a : Nat) : Option (Nat × Entry) :=
  leafFrom s.mem (kernOffset + a) 3 (s.rootEntry (kernOffset + a))

/-- How many tables a 4 KiB mapping of `a` would need. -/
def missingTables (s : Paging) (a : Nat) : Nat :=
  missingFrom s.mem (kernOffset + a) 3 (s.rootEntry (kernOffset + a))

/-- The page `q` is a table of the kernel's part of the page table. -/
def TablePage (s : Paging) (q : Nat) : Prop :=
  q = pgnum (frame 0 s.cr3) ∨
    ∃ a < 2 ^ 39, q ∈ tablesFrom s.mem (kernOffset + a) 3 (s.rootEntry (kernOffset + a))

/-- The word of the node of level `l` over the page `y`. -/
def wordOver (T : PageTree) (l y : Nat) : Entry := encode l (y / 512 ^ l) (T l (y / 512 ^ l))

section Tree

variable {s : Paging} {root : Nat} {top : EntryRef} {T : PageTree} {free : List Nat} {a l : Nat}
variable {β : Type} {stop : Nat → Entry → β} {pass : Entry → β → β}

/-- A walk passes a table of the tree. -/
theorem Holds.walkFold_table (H : Holds root top T free s) (hl : l < 3) {p : Nat}
    (hp : T (l + 1) (a / pageSize / 512 ^ (l + 1)) = .table p) :
    walkFold stop pass s.mem (kernOffset + a) (l + 1) (wordOver T (l + 1) (a / pageSize)) =
      pass (Entry.word p 3)
        (walkFold stop pass s.mem (kernOffset + a) l (wordOver T l (a / pageSize))) := by
  have hlt : p < 2 ^ 40 := (H.fresh hp).2.2.trans (by norm_num)
  have hword := H.words hp (a / pageSize / 512 ^ l % 512) (Nat.mod_lt _ (by norm_num))
  rw [Radix.div_pow_succ, Nat.div_add_mod] at hword
  have h₀ : (Entry.word p 3).getLsbD 0 = true := Entry.word_getLsbD (by norm_num) 0
  have h₇ : (Entry.word p 3).getLsbD 7 = false := Entry.word_getLsbD (by norm_num) 7
  rw [wordOver, hp, walkFold, encode_table, h₀, h₇, frame_page hlt (by norm_num), slotOf_kern hl,
    hword]
  rfl

/-- A walk ends at every other node. -/
theorem Holds.walkFold_stop (H : Holds root top T free s)
    (hnt : ∀ p, T l (a / pageSize / 512 ^ l) ≠ .table p) :
    walkFold stop pass s.mem (kernOffset + a) l (wordOver T l (a / pageSize)) =
      stop l (wordOver T l (a / pageSize)) := by
  cases l with
  | zero => rfl
  | succ l =>
      rw [wordOver]
      cases hn : T (l + 1) (a / pageSize / 512 ^ (l + 1)) with
      | empty => simp [walkFold, encode]
      | table p => exact absurd hn (hnt p)
      | leaf c =>
          have hlt : l < 2 := by
            have hle := H.rooted.level (Node.ne_empty_of_leaf hn)
            by_contra hge
            exact (H.fits (l + 1) _).2 (by omega) c hn
          obtain ⟨hpres, -, -, -, hhuge⟩ := leaf_bits (l + 1) (a / pageSize / 512 ^ (l + 1)) c
          rw [walkFold, hpres, hhuge]
          simp [hlt]

theorem Holds.missingFrom_eq (H : Holds root top T free s) (hl : l ≤ 3) :
    missingFrom s.mem (kernOffset + a) l (wordOver T l (a / pageSize)) =
      T.missing 512 (a / pageSize) l := by
  induction l with
  | zero => exact ite_self 0
  | succ l ih =>
      rw [Radix.missing]
      cases hn : T (l + 1) (a / pageSize / 512 ^ (l + 1)) with
      | table p => exact (H.walkFold_table (by omega) hn).trans (ih (by omega))
      | empty =>
          rw [missingFrom, H.walkFold_stop (Node.ne_table_of_empty hn), wordOver, hn]
          simp [encode]
      | leaf c =>
          rw [missingFrom, H.walkFold_stop (Node.ne_table_of_leaf hn), wordOver, hn,
            (leaf_bits _ _ c).1]
          rfl

/-- A walk that ends at a node has no leaf below it. -/
theorem Holds.leafFrom_stop (H : Holds root top T free s) (hl : l ≤ 3)
    (hnt : ∀ p, T l (a / pageSize / 512 ^ l) ≠ .table p) (k : Nat) (e : Entry) :
    leafFrom s.mem (kernOffset + a) l (wordOver T l (a / pageSize)) = some (k, e) ↔
      k ≤ l ∧ ∃ c, T k (a / pageSize / 512 ^ k) = .leaf c ∧
        e = encode k (a / pageSize / 512 ^ k) (.leaf c) := by
  have hlevel : ∀ {c : Caching}, k ≤ l → T k (a / pageSize / 512 ^ k) = .leaf c → k = l := by
    intro c hk hc
    by_contra hne
    obtain ⟨p, hp⟩ := H.rooted.ancestor (k := l) (Node.ne_empty_of_leaf hc) (by omega) hl
    exact hnt p hp
  rw [leafFrom, H.walkFold_stop hnt, wordOver]
  cases hn : T l (a / pageSize / 512 ^ l) with
  | table p => exact absurd hn (hnt p)
  | empty =>
      refine iff_of_false (by simp [encode]) ?_
      rintro ⟨hk, c, hc, -⟩
      obtain rfl := hlevel hk hc
      cases hn.symm.trans hc
  | leaf c =>
      rw [(leaf_bits _ _ c).1, if_pos rfl, Option.some.injEq, Prod.mk.injEq]
      constructor
      · rintro ⟨rfl, rfl⟩
        exact ⟨le_rfl, c, hn, rfl⟩
      · rintro ⟨hk, c', hc', rfl⟩
        obtain rfl := hlevel hk hc'
        cases hn.symm.trans hc'
        exact ⟨rfl, rfl⟩

/-- The leaf a walk ends in is the leaf of the tree over the page. -/
theorem Holds.leafFrom_eq_some_iff (H : Holds root top T free s) (hl : l ≤ 3) (k : Nat)
    (e : Entry) :
    leafFrom s.mem (kernOffset + a) l (wordOver T l (a / pageSize)) = some (k, e) ↔
      k ≤ l ∧ ∃ c, T k (a / pageSize / 512 ^ k) = .leaf c ∧
        e = encode k (a / pageSize / 512 ^ k) (.leaf c) := by
  induction l with
  | zero => exact H.leafFrom_stop hl ((H.fits 0 _).1 rfl) k e
  | succ l ih =>
      by_cases htab : ∃ p, T (l + 1) (a / pageSize / 512 ^ (l + 1)) = .table p
      · obtain ⟨p, hp⟩ := htab
        rw [leafFrom, H.walkFold_table (by omega) hp]
        refine (ih (by omega)).trans ⟨fun h => ⟨by omega, h.2⟩, ?_⟩
        rintro ⟨hk, c, hc, he⟩
        refine ⟨?_, c, hc, he⟩
        by_contra hlt
        obtain rfl : k = l + 1 := by omega
        cases hp.symm.trans hc
      · exact H.leafFrom_stop hl (fun p hp => htab ⟨p, hp⟩) k e

/-- Every table over a page is passed by the walk to it. -/
theorem Holds.mem_tablesFrom (H : Holds root top T free s) (hl : l ≤ 3) {k q : Nat} (hk : k ≤ l)
    (hq : T k (a / pageSize / 512 ^ k) = .table q) :
    q ∈ tablesFrom s.mem (kernOffset + a) l (wordOver T l (a / pageSize)) := by
  induction l with
  | zero =>
      obtain rfl : k = 0 := by omega
      exact absurd hq ((H.fits 0 _).1 rfl q)
  | succ l ih =>
      obtain ⟨p, hp⟩ : ∃ p, T (l + 1) (a / pageSize / 512 ^ (l + 1)) = .table p := by
        rcases Nat.le_succ_iff.mp hk with hk | rfl
        · exact H.rooted.ancestor (Node.ne_empty_of_table hq) (by omega) hl
        · exact ⟨q, hq⟩
      have hlt : p < 2 ^ 40 := (H.fresh hp).2.2.trans (by norm_num)
      have hpage : pgnum (frame 0 (Entry.word p 3)) = p := by
        rw [frame_page hlt (by norm_num), pgnum_page]
      rw [tablesFrom, H.walkFold_table (by omega) hp, hpage]
      rcases Nat.le_succ_iff.mp hk with hk | rfl
      · exact List.mem_cons_of_mem p (ih (by omega) hk)
      · cases hp.symm.trans hq
        exact List.mem_cons_self

/-- Every table that the walk to a page passes is a table of the tree over it. -/
theorem Holds.table_of_tablesFrom (H : Holds root top T free s) (hl : l ≤ 3) {q : Nat}
    (hq : q ∈ tablesFrom s.mem (kernOffset + a) l (wordOver T l (a / pageSize))) :
    ∃ k, T k (a / pageSize / 512 ^ k) = .table q := by
  induction l with
  | zero => cases hq
  | succ l ih =>
      by_cases htab : ∃ p, T (l + 1) (a / pageSize / 512 ^ (l + 1)) = .table p
      · obtain ⟨p, hp⟩ := htab
        have hpage : pgnum (frame 0 (Entry.word p 3)) = p := by
          rw [frame_page ((H.fresh hp).2.2.trans (by norm_num)) (by norm_num), pgnum_page]
        rw [tablesFrom, H.walkFold_table (by omega) hp, hpage] at hq
        rcases List.mem_cons.mp hq with rfl | hq
        · exact ⟨_, hp⟩
        · exact ih (by omega) hq
      · rw [tablesFrom, H.walkFold_stop fun p hp => htab ⟨p, hp⟩] at hq
        cases hq

end Tree

section Kernel

variable {s : Paging} {root : Nat} {T : PageTree} {free : List Nat} {a : Nat}
variable (H : Holds root (kernSlot root) T free s) (hcr3 : frame 0 s.cr3 = pageSize * root)

include H hcr3

theorem Holds.rootEntry_eq (ha : a < 2 ^ 39) :
    s.rootEntry (kernOffset + a) = wordOver T 3 (a / pageSize) :=
  H.walk_root hcr3 ha

theorem Holds.leafOf_eq_some_iff (ha : a < 2 ^ 39) (k : Nat) (e : Entry) :
    s.leafOf a = some (k, e) ↔ ∃ c, T k (a / pageSize / 512 ^ k) = .leaf c ∧
      e = encode k (a / pageSize / 512 ^ k) (.leaf c) := by
  rw [leafOf, H.rootEntry_eq hcr3 ha, H.leafFrom_eq_some_iff le_rfl]
  refine and_iff_right_of_imp ?_
  rintro ⟨c, hc, -⟩
  exact H.rooted.level (Node.ne_empty_of_leaf hc)

theorem Holds.missingTables_eq (ha : a < 2 ^ 39) :
    s.missingTables a = T.missing 512 (a / pageSize) 3 := by
  rw [missingTables, H.rootEntry_eq hcr3 ha, H.missingFrom_eq le_rfl]

/-- The top-level table and the tables over a page are tables of the kernel. -/
theorem Holds.tablePage (ha : a < 2 ^ 39) {q : Nat}
    (hq : q = root ∨ ∃ k, T k (a / pageSize / 512 ^ k) = .table q) : s.TablePage q := by
  rcases hq with rfl | ⟨k, hk⟩
  · left
    rw [hcr3, pgnum_page]
  · refine .inr ⟨a, ha, ?_⟩
    rw [H.rootEntry_eq hcr3 ha]
    exact H.mem_tablesFrom le_rfl (H.rooted.level (Node.ne_empty_of_table hk)) hk

end Kernel

end Paging

end Chestnut
