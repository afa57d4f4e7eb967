import Chestnut.Slab.Accounting

/-!
# The bit operations of bitmap slabs

`AllocFromBitmapArray` counts the trailing zeros of every word of a slab and
shifts an `int` by the least count; `FreeToBitmapArray` shifts by the index of
the object. The count is defined for words other than zero, and `1 << idx` is
a single bit for `idx` up to 30, but the slots of a slab go up to index 31.

As long as every object is served from a slab with fewer than 31 objects per
word, all shifts are by at most 30 and no word becomes zero; the first object
beyond that is given out with a shift by 31.
-/

namespace Chestnut

open Lib BaseBitmapSlab

/-- The calls of the two functions on bitmaps. -/
inductive BitmapCall
  | alloc (n : Nat) (bitmapArray : Nat → BitVec 64)
  | free (n objIdx : Nat)

/-- The words are not zero, and the shift is by at most 30. -/
def BitmapCall.InDomain : BitmapCall → Prop
  | .alloc n bitmapArray => (∀ r < n, bitmapArray r ≠ 0#64) ∧ (lowest n bitmapArray).1 ≤ 30
  | .free n objIdx => objIdx / n ≤ 30

namespace BitmapRep

variable {n : Nat} {bitmap : Nat → BitVec 64} {live : Finset Nat}

/-- No word is zero while the slots of index 31 are free. -/
theorem word_ne_zero (R : BitmapRep n bitmap live) (hlow : ∀ s ∈ live, s < 31 * n) {r : Nat}
    (hr : r < n) : bitmap r ≠ 0#64 := by
  intro hzero
  have hlt := hlow _ (R.mem_of_zero hr (show 31 < 32 by omega) hzero)
  omega

/-- The search does not go beyond a free slot. -/
theorem lowest_le (R : BitmapRep n bitmap live) {s : Nat} (hs : s < 32 * n) (hfree : s ∉ live) :
    (lowest n bitmap).1 ≤ s / n := by
  have hn : 0 < n := by omega
  have hidx : s / n < 32 := (Nat.div_lt_iff_lt_mul hn).mpr hs
  have hrow : s % n < n := Nat.mod_lt s hn
  have hmin : min (s / n) 31 = s / n := by omega
  have hbit := R.bit (s % n) hrow (s / n) (by omega)
  rw [hmin, Nat.mul_comm, Nat.div_add_mod, decide_eq_true hfree] at hbit
  refine ((lowest_spec n bitmap).1 (s % n) hrow).trans ?_
  by_contra hlt
  rw [BitVec.getLsbD_false_of_lt_ctz (Nat.lt_of_not_le hlt)] at hbit
  cases hbit

/-- A shift by at most 30 takes a slot below index 31. -/
theorem alloc_lt (hidx : (lowest n bitmap).1 ≤ 30) :
    (allocFromBitmapArray n bitmap).1 < 31 * n := by
  have hrow : (lowest n bitmap).2 < n := by
    rcases (lowest_spec n bitmap).2 with heq | ⟨hlt, -⟩
    · rw [heq] at hidx
      omega
    · exact hlt
  exact slot_lt (Nat.lt_succ_of_le hidx) hrow

/-- The call is in its domain exactly while fewer than 31 slots per word are live. -/
theorem alloc_inDomain_iff (R : BitmapRep n bitmap live) (hn : 1 ≤ n)
    (hlow : ∀ s ∈ live, s < 31 * n) :
    (BitmapCall.alloc n bitmap).InDomain ↔ live.card < 31 * n := by
  have hnz : ∀ r < n, bitmap r ≠ 0#64 := fun r hr => R.word_ne_zero hlow hr
  rw [BitmapCall.InDomain, and_iff_right hnz]
  constructor
  · intro hidx
    obtain ⟨-, hout, -⟩ := R.alloc ⟨0, hn, hnz 0 hn⟩
    have hsub : live ⊆ Finset.range (31 * n) := fun s hs => Finset.mem_range.mpr (hlow s hs)
    have hcard := Finset.card_lt_card (hsub.ssubset_of_mem_notMem
      (Finset.mem_range.mpr (alloc_lt hidx)) hout)
    rwa [Finset.card_range] at hcard
  · intro hcard
    obtain ⟨s, hs, hfree⟩ : ∃ s ∈ Finset.range (31 * n), s ∉ live := by
      by_contra hall
      push Not at hall
      have hle := Finset.card_le_card (show Finset.range (31 * n) ⊆ live from hall)
      rw [Finset.card_range] at hle
      omega
    have hlt := Finset.mem_range.mp hs
    have hle := R.lowest_le (by omega) hfree
    have hidx : s / n < 31 := (Nat.div_lt_iff_lt_mul hn).mpr hlt
    omega

end BitmapRep

/-- `NBitLine` of the caches with bitmap slabs. -/
def CacheKind.nBitLine : CacheKind → Option Nat
  | .chunk16 => some 4
  | .chunk32 => some 2
  | .chunk64 => some 1
  | _ => none

theorem CacheKind.bitmap_spec {k : CacheKind} {n : Nat} (hk : k.nBitLine = some n) :
    1 ≤ n ∧ k ≠ .metaSlab ∧ k.slabClass = BitmapSlab.slabClass n ∧ k.cap = 32 * n ∧
      32 * n * k.objSize ≤ pageSize ∧ k.Rep = fun r live => BitmapRep n r.bitmap live := by
  cases k <;> cases hk <;> exact ⟨by decide, by decide, rfl, rfl, by decide, rfl⟩

/-- `(addr - PG(addr)) / ObjSize`, the index that `MemCache::Free` hands on. -/
def slotOf (c : CacheRef) (o : Nat) : Nat := (o - pg o) / c.kind.objSize

theorem slotOf_slotAddr {page : Nat → Nat} {c : CacheRef} {a i : Nat}
    (hle : (i + 1) * c.kind.objSize ≤ pageSize) : slotOf c (slotAddr page c a i) = i := by
  have hpos := c.kind.objSize_pos
  rw [slotOf, sub_pg]
  exact (slotAddr_div hle le_rfl (by omega)).2

namespace CacheRef

/-- The call that `Allocate` makes, once it has a slab. -/
def allocCall (c : CacheRef) (h : Heap) : Option BitmapCall :=
  match c.kind.nBitLine, MemCache.takeSlab c.kind.slabClass c.kind.objSize c h with
  | some n, .ok (slab, h) => some (.alloc n (h.slab slab).bitmap)
  | _, _ => none

/-- The call that `Free` makes. -/
def freeCall (c : CacheRef) (addr : Nat) : Option BitmapCall :=
  c.kind.nBitLine.map fun n => .free n (slotOf c addr)

end CacheRef

namespace HeapOp

/-- The cache whose `Allocate` a call of the heap goes to. -/
def allocates : HeapOp → Option CacheRef
  | .alloc s => if 2048 < s then none else some (.global (Kernel.chunkOf s))
  | .allocate c => some c
  | .createNew _ => some (.global .chunk128)
  | _ => none

/-- The cache and the object of the `Free` that it goes to. -/
def frees : HeapOp → Option (CacheRef × Nat)
  | .free (some (.obj c o)) => some (c, o)
  | .release c o => some (c, o)
  | _ => none

end HeapOp

namespace HeapInv

variable {G : Ghost} {h h' : Heap} {caches : List CacheRef} {blocks : List Block} {c : CacheRef}
  {o n : Nat}

/-- The slabs of the empty queue have no live slot. -/
theorem live_of_empty_queue (I : HeapInv G h caches blocks) (hc : c ∈ caches) {a : Nat}
    (hs : (c, a) ∈ h.slabs) (hnext : h.nodes.next (.queue c .empty) = .node a)
    (hne : G.seq (.queue c .empty) ≠ []) : G.live a = ∅ := by
  obtain ⟨x, t, hseq⟩ := List.exists_cons_of_ne_nil hne
  have hhead := (I.queues.rings.ring (.queue c .empty) hc).next_head
  rw [hnext, hseq] at hhead
  have hmem : a ∈ G.seq (.queue c .empty) := by
    rw [hseq, NodeRef.node.inj hhead]
    exact List.mem_cons_self
  exact Finset.card_eq_zero.mp ((I.queues.placed c a .empty hs).mp hmem).2

/-- What an object is served from: the first of the half full slabs, or a slab without live
slots. -/
theorem allocate_from (I : HeapInv G h caches blocks) (hh : G.hand = none) (hc : c ∈ caches)
    (hk : c.kind ≠ .metaSlab) (hal : c.allocate h = .ok (o, h')) :
    ∃ a h₁ G₁, MemCache.takeSlab c.kind.slabClass c.kind.objSize c h = .ok (a, h₁) ∧
      HeapInv G₁ h₁ caches blocks ∧ G₁.hand = some (c, a) ∧ (G₁.live a).card < c.kind.cap ∧
      ((h.nodes.next (.queue c .half) = .node a ∧ (c, a) ∈ h.slabs ∧ G₁.live a = G.live a) ∨
        (h.nodes.next (.queue c .half) = .queue c .half ∧ G₁.live a = ∅)) := by
  by_cases hhalf : G.seq (.queue c .half) = []
  · have hnone : h.nodes.next (.queue c .half) = .queue c .half := by
      rw [(I.queues.rings.ring (.queue c .half) hc).next_eq_head_iff, hhalf]
      rfl
    by_cases hempty : G.seq (.queue c .empty) = []
    · have hw : ¬ Waiting G c := fun hw => hw.elim (fun h => h hhalf) (fun h => h hempty)
      have hr : Ready G c := by
        by_contra hr
        rw [I.allocate_not_ready hh hc hr] at hal
        cases hal
      rw [Ready, if_neg hk] at hr
      obtain ⟨a, h₁, G₁, p, t, htake, I₁, -, -⟩ :=
        I.takeSlab_data hh hc hk hw (hr.resolve_left hw)
      have hlive : (newSlab G₁ c a p t G₁.seq).live a = ∅ := Function.update_self _ _ _
      refine ⟨a, h₁, _, htake, I₁, rfl, ?_, .inr ⟨hnone, hlive⟩⟩
      have hcap := c.kind.two_le_cap
      rw [hlive, Finset.card_empty]
      omega
    · obtain ⟨a, seq', hnext, hlt, -, I₁⟩ := I.first_slab hh hc (q := .empty) (by simp) hempty
      have hlive := I.live_of_empty_queue hc (I₁.queues.hand_mem c a rfl) hnext hempty
      exact ⟨a, _, _, I.takeSlab_first hc (.inr ⟨rfl, hhalf⟩) hempty hnext, I₁, rfl, hlt,
        .inr ⟨hnone, hlive⟩⟩
  · obtain ⟨a, seq', hnext, hlt, -, I₁⟩ := I.first_slab hh hc (q := .half) (by simp) hhalf
    exact ⟨a, _, _, I.takeSlab_first hc (.inl rfl) hhalf hnext, I₁, rfl, hlt,
      .inl ⟨hnext, I₁.queues.hand_mem c a rfl, rfl⟩⟩

/-- The object lies in the slot that `Alloc` of its slab has returned. -/
theorem serveSlab_addr (I : HeapInv G h caches blocks) {a idx : Nat} {h₁ : Heap}
    (hh : G.hand = some (c, a)) (hlt : (G.live a).card < c.kind.cap)
    (hidx : c.kind.slabClass.alloc a h = .ok (idx, h₁))
    (hserve : MemCache.serveSlab c.kind.slabClass c.kind.objSize c a h = .ok (o, h')) :
    o = slotAddr G.page c a idx := by
  obtain ⟨idx', h₁', seq', hal, hmem, -⟩ := I.takeSlot hh hlt
  rw [hidx] at hal
  cases hal
  simp only [MemCache.serveSlab, hidx, ok_bind, hmem] at hserve
  obtain ⟨h₂, -, hret⟩ := bind_ok hserve
  cases hret
  rfl

end HeapInv

namespace HeapWorld

variable {G : Ghost} {w w' : HeapWorld} {c : CacheRef} {o n : Nat}

/-- The call of a function on bitmaps that a call of the heap makes. -/
def bitmapCall (w : HeapWorld) (op : HeapOp) : Option BitmapCall :=
  match op.allocates, op.frees with
  | some c, _ => c.allocCall w.heap
  | none, some (c, o) => c.freeCall o
  | none, none => none

/-- Every bit operation of the call is defined. -/
def BitsDefined (w : HeapWorld) (op : HeapOp) : Prop :=
  ∀ call, w.bitmapCall op = some call → call.InDomain

/-- The live objects of a slab. -/
def liveIn (w : HeapWorld) (c : CacheRef) (a : Nat) : Nat :=
  (w.objects c).countP (w.slabOf · = a)

/-- An object is asked for only while the first half full slab of the cache, if there is one,
has fewer than 31 live objects per word. -/
def Room (w : HeapWorld) (op : HeapOp) : Prop :=
  ∀ c n a, op.allocates = some c → c.kind.nBitLine = some n →
    w.heap.nodes.next (.queue c .half) = .node a → w.liveIn c a < 31 * n

/-- The header that a link leads to. -/
def headerOf : NodeRef → Option Nat
  | .node a => some a
  | _ => none

theorem room_iff_options (w : HeapWorld) (op : HeapOp) :
    (∀ c ∈ op.allocates, ∀ n ∈ c.kind.nBitLine,
      ∀ a ∈ headerOf (w.heap.nodes.next (.queue c .half)), w.liveIn c a < 31 * n) ↔ w.Room op := by
  constructor
  · intro h c n a hc hn ha
    exact h c hc n hn a (by rw [ha]; rfl)
  · intro h c hc n hn a ha
    refine h c n a hc hn ?_
    cases hnext : w.heap.nodes.next (.queue c .half) with
    | node a' =>
        rw [hnext] at ha
        cases ha
        rfl
    | queue c' q =>
        rw [hnext] at ha
        cases ha
    | freeSlab a' =>
        rw [hnext] at ha
        cases ha

instance (w : HeapWorld) (op : HeapOp) : Decidable (w.Room op) :=
  decidable_of_iff _ (room_iff_options w op)

/-- No object lies in a slot of index 31. -/
def Low (w : HeapWorld) : Prop :=
  ∀ c o n, .obj c o ∈ w.blocks → c.kind.nBitLine = some n → slotOf c o < 31 * n

theorem liveIn_eq (I : HeapInv G w.heap w.caches w.blocks) {a : Nat}
    (hs : (c, a) ∈ w.heap.slabs) : w.liveIn c a = (G.live a).card := by
  have himage : ((w.objects c).filter (w.slabOf · = a)).toFinset =
      (G.live a).image (slotAddr G.page c a) := by
    ext o
    simp only [List.mem_toFinset, List.mem_filter, mem_objects, Finset.mem_image,
      decide_eq_true_eq]
    constructor
    · rintro ⟨ho, rfl⟩
      obtain ⟨a', i, hs', hi, rfl⟩ := (I.blocks.held_iff c o).mp ho
      rw [slabOf_slot I hs' hi]
      exact ⟨i, hi, rfl⟩
    · rintro ⟨i, hi, rfl⟩
      exact ⟨(I.blocks.held_iff c _).mpr ⟨a, i, hs, hi, rfl⟩, slabOf_slot I hs hi⟩
  have hinj : Set.InjOn (slotAddr G.page c a) (G.live a) := fun i hi j hj heq =>
    (I.slotAddr_inj hs (I.slot_le hs hi) hs (I.slot_le hs hj) heq).2.2
  rw [liveIn, List.countP_eq_length_filter,
    ← List.toFinset_card_of_nodup ((objects_nodup I c).filter _), himage,
    Finset.card_image_of_injOn hinj]

/-- The live slots of a slab are below index 31. -/
theorem Low.live_lt (L : w.Low) (I : HeapInv G w.heap w.caches w.blocks) {a s : Nat}
    (hn : c.kind.nBitLine = some n) (hs : (c, a) ∈ w.heap.slabs) (hlive : s ∈ G.live a) :
    s < 31 * n := by
  rcases (I.blocks.held_iff c _).mpr ⟨a, s, hs, hlive, rfl⟩ with hb | ⟨rfl, -⟩
  · have hlt := L c _ n hb hn
    rwa [slotOf_slotAddr (I.slot_le hs hlive)] at hlt
  · cases hn

/-! ### One call -/

/-- A call that goes to `Allocate` adds the object. -/
theorem blocks_of_allocates (I : HeapInv G w.heap w.caches w.blocks) {op : HeapOp}
    (ha : w.Allowed op) (hs : w.step op = .ok w') (hop : op.allocates = some c) :
    c ∈ w.caches ∧ ∃ o h', c.allocate w.heap = .ok (o, h') ∧ w'.blocks = .obj c o :: w.blocks := by
  cases op with
  | alloc s =>
      obtain ⟨h1, -, -⟩ := ha
      rw [HeapOp.allocates] at hop
      split at hop
      · cases hop
      · next hsmall =>
          cases hop
          rw [step, Kernel.alloc_small h1 (by omega)] at hs
          obtain ⟨⟨o, h'⟩, hal, hret⟩ := bind_ok hs
          cases hret
          refine ⟨I.blocks.globals _, o, h', hal, ?_⟩
          simp only [block, if_neg hsmall]
  | allocate c' =>
      cases hop
      obtain ⟨⟨o, h'⟩, hal, hret⟩ := bind_ok hs
      cases hret
      exact ⟨ha, o, h', hal, rfl⟩
  | createNew c' =>
      cases hop
      obtain ⟨⟨new, h₁⟩, hnew, hret⟩ := bind_ok hs
      obtain ⟨g, hfit, hrest⟩ := bind_ok hnew
      cases hfit
      obtain ⟨⟨o, h'⟩, hal, hconstruct⟩ := bind_ok hrest
      cases hconstruct
      cases hret
      exact ⟨I.blocks.globals _, o, h', hal, rfl⟩
  | free b => cases hop
  | release c' o => cases hop
  | setMaxPage c' k => cases hop

/-- The other calls add no object. -/
theorem mem_of_not_allocates {op : HeapOp} (hs : w.step op = .ok w')
    (hop : op.allocates = none) (hb : .obj c o ∈ w'.blocks) : .obj c o ∈ w.blocks := by
  cases op with
  | alloc s =>
      rw [HeapOp.allocates] at hop
      split at hop
      · next hlarge =>
          obtain ⟨⟨addr, h'⟩, -, hret⟩ := bind_ok hs
          cases hret
          simpa [block, hlarge] using hb
      · cases hop
  | allocate c' => cases hop
  | createNew c' => cases hop
  | free b =>
      cases b with
      | none =>
          cases hs
          exact hb
      | some b =>
          obtain ⟨h', -, hret⟩ := bind_ok hs
          cases hret
          exact List.mem_of_mem_erase hb
  | release c' o' =>
      obtain ⟨h', -, hret⟩ := bind_ok hs
      cases hret
      exact List.mem_of_mem_erase hb
  | setMaxPage c' k =>
      cases hs
      exact hb

/-- Only objects that are held are given back. -/
theorem mem_of_frees {op : HeapOp} (ha : w.Allowed op) (hop : op.frees = some (c, o)) :
    .obj c o ∈ w.blocks := by
  cases op with
  | free b =>
      cases b with
      | none => cases hop
      | some b =>
          cases b with
          | obj c' o' =>
              cases hop
              exact ha.1
          | pages s k => cases hop
  | release c' o' =>
      cases hop
      exact ha.1
  | alloc s => cases hop
  | allocate c' => cases hop
  | setMaxPage c' k => cases hop
  | createNew c' => cases hop

/-- The bitmap call of an `Allocate` that returns, with the live slots of the slab. -/
theorem allocCall_eq (I : HeapInv G w.heap w.caches w.blocks) (hh : G.hand = none)
    (hc : c ∈ w.caches) (hn : c.kind.nBitLine = some n) {h' : Heap}
    (hal : c.allocate w.heap = .ok (o, h')) :
    ∃ a bitmap live, c.allocCall w.heap = some (.alloc n bitmap) ∧ BitmapRep n bitmap live ∧
      ((allocFromBitmapArray n bitmap).1 < 31 * n →
        slotOf c o = (allocFromBitmapArray n bitmap).1) ∧
      ((w.heap.nodes.next (.queue c .half) = .node a ∧ (c, a) ∈ w.heap.slabs ∧
          live = G.live a) ∨
        (w.heap.nodes.next (.queue c .half) = .queue c .half ∧ live = ∅)) := by
  obtain ⟨-, hk, hcls, -, hsize, hrep⟩ := CacheKind.bitmap_spec hn
  obtain ⟨a, h₁, G₁, htake, I₁, hh₁, hlt, hfrom⟩ := I.allocate_from hh hc hk hal
  have R := I₁.headers.rep c a (I₁.queues.hand_mem c a hh₁)
  rw [hrep] at R
  refine ⟨a, (h₁.slab a).bitmap, G₁.live a, ?_, R, ?_, hfrom⟩
  · rw [CacheRef.allocCall, hn, htake]
  · intro hidx
    rw [CacheRef.allocate, MemCache.allocate, htake, ok_bind] at hal
    have hslot : c.kind.slabClass.alloc a h₁ =
        .ok ((allocFromBitmapArray n (h₁.slab a).bitmap).1, h₁.setSlab a { h₁.slab a with
          bitmap := (allocFromBitmapArray n (h₁.slab a).bitmap).2 }) := by
      rw [hcls]
      rfl
    rw [I₁.serveSlab_addr hh₁ hlt hslot hal]
    refine slotOf_slotAddr (le_trans (Nat.mul_le_mul_right _ ?_) hsize)
    omega

/-- An object that is given back lies below index 31. -/
theorem Low.freeCall_inDomain (L : w.Low) (hb : .obj c o ∈ w.blocks) {call : BitmapCall}
    (hcall : c.freeCall o = some call) : call.InDomain := by
  obtain ⟨n, hn, rfl⟩ := Option.map_eq_some_iff.mp hcall
  have hidx : slotOf c o / n < 31 :=
    (Nat.div_lt_iff_lt_mul (CacheKind.bitmap_spec hn).1).mpr (L c o n hb hn)
  exact Nat.le_of_lt_succ hidx

/-- An object is given out below index 31 exactly if its slab has room there. -/
theorem Low.allocCall_inDomain_iff (L : w.Low) (I : HeapInv G w.heap w.caches w.blocks)
    (hh : G.hand = none) (hc : c ∈ w.caches) (hn : c.kind.nBitLine = some n) {h' : Heap}
    (hal : c.allocate w.heap = .ok (o, h')) :
    (∀ call, c.allocCall w.heap = some call → call.InDomain) ↔
      ∀ a, w.heap.nodes.next (.queue c .half) = .node a → w.liveIn c a < 31 * n := by
  obtain ⟨a, bitmap, live, hcall, R, -, hfrom⟩ := allocCall_eq I hh hc hn hal
  have hn1 := (CacheKind.bitmap_spec hn).1
  have hdefined : (∀ call, c.allocCall w.heap = some call → call.InDomain) ↔
      (BitmapCall.alloc n bitmap).InDomain := by simp [hcall]
  rw [hdefined]
  rcases hfrom with ⟨hnext, hslab, rfl⟩ | ⟨hnext, rfl⟩
  · rw [R.alloc_inDomain_iff hn1 fun s hlive => L.live_lt I hn hslab hlive,
      ← liveIn_eq I hslab, hnext]
    simp
  · rw [R.alloc_inDomain_iff hn1 (by simp), hnext, Finset.card_empty]
    exact iff_of_true (by omega) (fun _ hnode => by cases hnode)

theorem room_iff {op : HeapOp} (hop : op.allocates = some c) :
    w.Room op ↔ ∀ n, c.kind.nBitLine = some n →
      ∀ a, w.heap.nodes.next (.queue c .half) = .node a → w.liveIn c a < 31 * n := by
  refine ⟨fun h n hn a => h c n a hop hn, fun h c' n a hc' => ?_⟩
  obtain rfl : c = c' := Option.some.inj (hop.symm.trans hc')
  exact fun hn => h n hn a

/-- With all objects below index 31, a call that returns is defined exactly if there is room. -/
theorem Low.bitsDefined_iff (L : w.Low) (I : HeapInv G w.heap w.caches w.blocks)
    (hh : G.hand = none) {op : HeapOp} (ha : w.Allowed op) (hs : w.step op = .ok w') :
    w.BitsDefined op ↔ w.Room op := by
  cases hop : op.allocates with
  | none =>
      refine iff_of_true (fun call hcall => ?_) (fun c n a hc => by rw [hop] at hc; cases hc)
      cases hfree : op.frees with
      | none =>
          rw [bitmapCall, hop, hfree] at hcall
          cases hcall
      | some co =>
          rw [bitmapCall, hop, hfree] at hcall
          exact L.freeCall_inDomain (mem_of_frees ha hfree) hcall
  | some c =>
      have hbitmap : w.bitmapCall op = c.allocCall w.heap := by rw [bitmapCall, hop]
      rw [BitsDefined, hbitmap, room_iff hop]
      cases hn : c.kind.nBitLine with
      | none =>
          refine iff_of_true (fun call hcall => ?_) (fun n hn' => by cases hn')
          rw [CacheRef.allocCall, hn] at hcall
          cases hcall
      | some n =>
          obtain ⟨hc, o, h', hal, -⟩ := blocks_of_allocates I ha hs hop
          rw [L.allocCall_inDomain_iff I hh hc hn hal]
          exact ⟨fun h n' hn' => by cases hn'; exact h, fun h => h n rfl⟩

/-- A defined call keeps the objects below index 31. -/
theorem Low.step (L : w.Low) (I : HeapInv G w.heap w.caches w.blocks) (hh : G.hand = none)
    {op : HeapOp} (ha : w.Allowed op) (hs : w.step op = .ok w') (hd : w.BitsDefined op) :
    w'.Low := by
  intro c o n hb hn
  cases hop : op.allocates with
  | none => exact L c o n (mem_of_not_allocates hs hop hb) hn
  | some c₁ =>
      obtain ⟨hc, o₁, h', hal, hblocks⟩ := blocks_of_allocates I ha hs hop
      rw [hblocks] at hb
      rcases List.mem_cons.mp hb with heq | hb
      · cases heq
        obtain ⟨a, bitmap, live, hcall, -, hslot, -⟩ := allocCall_eq I hh hc hn hal
        have hdom := hd _ (by rw [bitmapCall, hop]; exact hcall)
        have hlt := BitmapRep.alloc_lt hdom.2
        rwa [hslot hlt]
      · exact L c o n hb hn

/-! ### Whole runs -/

/-- What the history of a run says about the objects. -/
def History (tr : List (HeapWorld × HeapOp)) (w : HeapWorld) : Prop :=
  ∃ G, HeapInv G w.heap w.caches w.blocks ∧ G.hand = none ∧
    ((∀ x ∈ tr, x.1.BitsDefined x.2) → w.Low) ∧
    ((∀ x ∈ tr, x.1.BitsDefined x.2) ↔ ∀ x ∈ tr, x.1.Room x.2)

theorem History.step {tr : List (HeapWorld × HeapOp)} {op : HeapOp} (H : History tr w)
    (ha : w.Allowed op) (hs : w.step op = .ok w') : History ((w, op) :: tr) w' := by
  obtain ⟨G, I, hh, hlow, hiff⟩ := H
  rcases step_spec I hh ha with he | ⟨w'', G', hs', I', hh', -⟩
  · rw [he] at hs
    cases hs
  · obtain rfl : w'' = w' := Except.ok.inj (hs'.symm.trans hs)
    simp only [History, List.forall_mem_cons]
    refine ⟨G', I', hh', fun hall => (hlow hall.2).step I hh ha hs hall.1, ?_⟩
    rw [← hiff]
    exact and_congr_left fun hall => (hlow hall).bitsDefined_iff I hh ha hs

theorem bitsDefined_iff_room {m : MemPages} {free : List Nat} {nodes : Links NodeRef}
    {slab : Nat → SlabRec} {tr : List (HeapWorld × HeapOp)} (F : MemPages.FreeList m free)
    (hw : Steps step Allowed (initial m nodes slab) tr w) :
    (∀ x ∈ tr, x.1.BitsDefined x.2) ↔ ∀ x ∈ tr, x.1.Room x.2 := by
  have hstart : History [] (initial m nodes slab) := by
    obtain ⟨I, -⟩ := initSlab_inv F nodes slab
    exact ⟨_, I, rfl, fun _ _ _ _ hb => absurd hb List.not_mem_nil, by simp⟩
  obtain ⟨-, -, -, -, hiff⟩ :=
    hw.inv (I := History) hstart fun _ _ _ _ H ha hs => H.step ha hs
  exact hiff

/-- Two objects of 64 bytes, the first of which is given back, one of 32 bytes and another one
of 64. -/
theorem bitsDefined_iff_room_four :
    ∃ tr w, Steps step Allowed (machine 6) tr w ∧
      tr.map Prod.snd = [.allocate (.global .chunk64), .alloc 32,
        .free (some (.obj (.global .chunk64) 20480)), .allocate (.global .chunk64), .alloc 64] ∧
      ∀ x ∈ tr, x.1.BitsDefined x.2 := by
  obtain ⟨tr, w, hrun, hlast⟩ := exists_of_runAnd step Allowed [.alloc 64,
      .allocate (.global .chunk64), .free (some (.obj (.global .chunk64) 20480)), .alloc 32,
      .allocate (.global .chunk64)] (machine 6)
    (fun tr _ => decide (tr.map Prod.snd = [.allocate (.global .chunk64), .alloc 32,
      .free (some (.obj (.global .chunk64) 20480)), .allocate (.global .chunk64), .alloc 64]) &&
      tr.all fun x => decide (x.1.Room x.2)) (by decide +kernel)
  simp only [Bool.and_eq_true, decide_eq_true_eq, List.all_eq_true] at hlast
  exact ⟨tr, w, hrun, hlast.1,
    (bitsDefined_iff_room (MemPages.line_freeList (n := 6) (by decide)) hrun).mpr hlast.2⟩

/-- The shift of the next object of 64 bytes. -/
def nextShift (w : HeapWorld) : Option Nat :=
  match w.bitmapCall (.allocate (.global .chunk64)) with
  | some (.alloc n bitmapArray) => some (lowest n bitmapArray).1
  | _ => none

/-- The 32nd object of 64 bytes is given out with `1 << 31`. -/
theorem shift_by_31 :
    ∃ w, Reachable (MemPages.line 4) ⟨fun x => x, fun x => x⟩ (fun _ => {}) w ∧
      w.blocks.length = 31 ∧ w.Allowed (.allocate (.global .chunk64)) ∧
      ¬ w.BitsDefined (.allocate (.global .chunk64)) := by
  obtain ⟨w, hs, hlast⟩ := exists_of_okAnd
    (x := (List.replicate 31 (.allocate (.global .chunk64))).foldlM step (machine 4))
    (p := fun w => w.blocks.length == 31 && w.nextShift == some 31) (by decide +kernel)
  rw [Bool.and_eq_true, beq_iff_eq, beq_iff_eq] at hlast
  obtain ⟨hlength, hshift⟩ := hlast
  have hglobal : ∀ w, Reachable (MemPages.line 4) ⟨fun x => x, fun x => x⟩ (fun _ => {}) w →
      w.Allowed (.allocate (.global .chunk64)) := by
    intro w hw
    obtain ⟨G, I, -⟩ := hw.inv (MemPages.line_freeList (n := 4) (by decide))
    exact I.blocks.globals .chunk64
  have hreach : Reachable (MemPages.line 4) ⟨fun x => x, fun x => x⟩ (fun _ => {}) w := by
    refine .of_ops (fun w' hw' o ho => ?_) hs
    rw [List.eq_of_mem_replicate ho]
    exact hglobal w' hw'
  refine ⟨w, hreach, hlength, hglobal w hreach, fun hd => ?_⟩
  rw [nextShift] at hshift
  split at hshift
  · next n bitmapArray hcall =>
      have hle := (hd _ hcall).2
      rw [Option.some.inj hshift] at hle
      omega
  · cases hshift

end HeapWorld

end Chestnut
