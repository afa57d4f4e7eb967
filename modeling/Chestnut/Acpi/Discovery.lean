import Chestnut.Acpi.Model

/-!
# Finding the RSDP

The search of `Init` starts with the BIOS area `[0xE0000, 0x100000)` that
`Init` has mapped, but its loop runs up to `0x1000000`. So it finds the first
location of the area that holds a RSDP, and when there is none it goes on
behind the area.
-/

namespace Chestnut

open Lib

namespace Acpi

variable {m : Bytes} {p : Int} {n k : Nat} {a : Nat}

/-- Signature, checksum and revision of a RSDP that `Init` accepts. -/
structure IsRsdp (m : Bytes) (p : Int) : Prop where
  signature : m.u64 p = rsdpSignature
  checksum : checksum m p = 0
  revision : m.u8 (p + 15) = 0 ∨ m.u8 (p + 15) = 2

/-- The RSDT pointer of a RSDP. -/
def rsdtPointer (m : Bytes) (p : Int) : Nat := m.u32 (p + 16)

/-! ### One turn -/

theorem parseRSDP_none (h : ¬ IsRsdp m p) (hsig : m.u64 p = rsdpSignature) :
    parseRSDP m p = .ok none := by
  rw [parseRSDP]
  split
  · rfl
  · rename_i hsum
    have hrev : ¬ (m.u8 (p + 15) = 0 ∨ m.u8 (p + 15) = 2) := fun hrev =>
      h ⟨hsig, not_not.mp hsum, hrev⟩
    simp only [if_neg hrev]

theorem parseRSDP_some (h : IsRsdp m p) (hptr : rsdtPointer m p ≠ 0) :
    parseRSDP m p = .ok (some (rsdtPointer m p)) := by
  have hassert : kassert (m.u32 (p + 16) ≠ 0) "rsdt_addr" = .ok () :=
    (kassert_ok_iff _ _).mpr (decide_eq_true hptr)
  rw [parseRSDP, if_neg (not_not.mpr h.checksum)]
  simp only [if_pos h.revision, hassert, ok_bind]
  rfl

theorem parseRSDP_error (h : IsRsdp m p) (hptr : rsdtPointer m p = 0) :
    ∃ e, parseRSDP m p = .error e := by
  rw [rsdtPointer] at hptr
  rw [parseRSDP, if_neg (not_not.mpr h.checksum)]
  simp only [if_pos h.revision, hptr]
  exact ⟨_, rfl⟩

/-- A turn at a location without a RSDP goes on to the next one. -/
theorem searchFrom_skip_one (h : ¬ IsRsdp m p) (n : Nat) (reads : List Int) :
    ∃ reads', searchFrom m (n + 1) p reads = searchFrom m n (p + 16) reads' ∧
      span p 8 ++ reads ⊆ reads' := by
  rw [searchFrom]
  by_cases hsig : m.u64 p = rsdpSignature
  · rw [if_pos hsig]
    simp only [parseRSDP_none h hsig]
    exact ⟨_, rfl, List.subset_append_right _ _⟩
  · rw [if_neg hsig]
    exact ⟨_, rfl, List.Subset.refl _⟩

/-- A turn at a RSDP is the last one. -/
theorem searchFrom_hit (h : IsRsdp m p) (n : Nat) (reads : List Int) :
    ∃ reads', searchFrom m (n + 1) p reads = ⟨parseRSDP m p, reads'⟩ ∧
      span p 8 ++ reads ⊆ reads' := by
  rw [searchFrom, if_pos h.signature]
  by_cases hptr : rsdtPointer m p = 0
  · obtain ⟨e, he⟩ := parseRSDP_error h hptr
    simp only [he]
    exact ⟨_, rfl, List.subset_append_right _ _⟩
  · simp only [parseRSDP_some h hptr]
    exact ⟨_, rfl, List.subset_append_right _ _⟩

/-! ### Whole searches -/

theorem searchFrom_skip (h : ∀ i : Nat, i < k → ¬ IsRsdp m (p + 16 * i)) (n : Nat)
    (reads : List Int) :
    ∃ reads', searchFrom m (k + n) p reads = searchFrom m n (p + 16 * k) reads' := by
  induction k generalizing p reads with
  | zero => exact ⟨reads, by simp⟩
  | succ k ih =>
      have hfirst : ¬ IsRsdp m p := by simpa using h 0 (Nat.succ_pos k)
      obtain ⟨reads₁, hstep, -⟩ := searchFrom_skip_one hfirst (k + n) reads
      obtain ⟨reads₂, hrest⟩ := ih (p := p + 16) (fun i hi => by
        have hnext := h (i + 1) (by omega)
        have haddr : p + 16 * ((i + 1 : Nat) : Int) = p + 16 + 16 * (i : Int) := by omega
        rwa [haddr] at hnext) reads₁
      refine ⟨reads₂, ?_⟩
      have haddr : p + 16 * ((k + 1 : Nat) : Int) = p + 16 + 16 * (k : Int) := by omega
      rw [Nat.succ_add, hstep, hrest, haddr]

/-- The log only grows, by the signature in every turn. -/
theorem mem_searchFrom_reads {reads : List Int} {x : Int} (hx : x ∈ reads) :
    x ∈ (searchFrom m n p reads).reads := by
  induction n generalizing p reads with
  | zero => exact hx
  | succ n ih =>
      by_cases h : IsRsdp m p
      · obtain ⟨reads', heq, hsub⟩ := searchFrom_hit h n reads
        rw [heq]
        exact hsub (List.mem_append_right _ hx)
      · obtain ⟨reads', heq, hsub⟩ := searchFrom_skip_one h n reads
        rw [heq]
        exact ih (hsub (List.mem_append_right _ hx))

theorem start_mem_searchFrom_reads (m : Bytes) (n : Nat) (p : Int) (reads : List Int) :
    p ∈ (searchFrom m (n + 1) p reads).reads := by
  have hp : p ∈ span p 8 ++ reads := List.mem_append_left _ (by simp)
  by_cases h : IsRsdp m p
  · obtain ⟨reads', heq, hsub⟩ := searchFrom_hit h n reads
    rw [heq]
    exact hsub hp
  · obtain ⟨reads', heq, hsub⟩ := searchFrom_skip_one h n reads
    rw [heq]
    exact mem_searchFrom_reads (hsub hp)

/-- The first aligned location from the start of the area on that holds a RSDP. -/
structure FirstRsdp (m : Bytes) (a : Nat) : Prop where
  start_le : searchStart ≤ a
  aligned : 16 ∣ a
  isRsdp : IsRsdp m (kptr (some a))
  first : ∀ a', searchStart ≤ a' → 16 ∣ a' → a' < a → ¬ IsRsdp m (kptr (some a'))

/-- The search passes the locations below `a` if none of them holds a RSDP. -/
theorem search_skip (hle : searchStart ≤ a) (hal : 16 ∣ a) (hlt : a < searchEnd)
    (h : ∀ a', searchStart ≤ a' → 16 ∣ a' → a' < a → ¬ IsRsdp m (kptr (some a'))) :
    ∃ n reads, search m = searchFrom m (n + 1) (kptr (some a)) reads := by
  have hstart : searchStart = 16 * 0xe000 := rfl
  have hend : searchEnd = 16 * 0x100000 := rfl
  obtain ⟨j, rfl⟩ := hal
  obtain ⟨k, rfl⟩ : ∃ k, j = 0xe000 + k := ⟨j - 0xe000, by omega⟩
  obtain ⟨n, hn⟩ : ∃ n, (searchEnd - searchStart) / 16 = k + (n + 1) :=
    ⟨0xf1fff - k, by omega⟩
  have hskip : ∀ i : Nat, i < k → ¬ IsRsdp m (kptr (some searchStart) + 16 * i) := by
    intro i hi
    have haddr : kptr (some searchStart) + 16 * (i : Int) = kptr (some (16 * (0xe000 + i))) := by
      simp only [kptr, hstart]
      omega
    rw [haddr]
    exact h _ (by omega) (Nat.dvd_mul_right _ _) (by omega)
  obtain ⟨reads, hreads⟩ := searchFrom_skip hskip (n + 1) []
  have haddr : kptr (some searchStart) + 16 * (k : Int) = kptr (some (16 * (0xe000 + k))) := by
    simp only [kptr, hstart]
    omega
  refine ⟨n, reads, ?_⟩
  rw [search, hn, hreads, haddr]

theorem FirstRsdp.outcome (h : FirstRsdp m a) (hlt : a < searchEnd) :
    (search m).outcome = parseRSDP m (kptr (some a)) := by
  obtain ⟨n, reads, hsearch⟩ := search_skip h.start_le h.aligned hlt h.first
  obtain ⟨reads', hhit, -⟩ := searchFrom_hit h.isRsdp n reads
  rw [hsearch, hhit]

/-- What a search of the BIOS area comes to: the RSDT pointer of the first RSDP in it; or
nothing, without a read outside. -/
structure Discovers (m : Bytes) : Prop where
  first : ∀ a, FirstRsdp m a → a < biosEnd →
    (search m).outcome = .ok (some (rsdtPointer m (kptr (some a))))
  none : (∀ a, FirstRsdp m a → ¬ a < biosEnd) → (search m).outcome = .ok none ∧
    ∀ x ∈ (search m).reads, kptr (some searchStart) ≤ x ∧ x < kptr (some biosEnd)

/-- Without a RSDP in the area the search reads the byte behind it. -/
theorem biosEnd_mem_reads (h : ∀ a, FirstRsdp m a → ¬ a < biosEnd) :
    kptr (some biosEnd) ∈ (search m).reads := by
  have hskip : ∀ a', searchStart ≤ a' → 16 ∣ a' → a' < biosEnd →
      ¬ IsRsdp m (kptr (some a')) := by
    -- the least one would be the first
    intro a'
    induction a' using Nat.strong_induction_on with
    | _ a' ih =>
        intro hle hal hlt hrsdp
        exact h a' ⟨hle, hal, hrsdp, fun b hb hbal hba => ih b hba hb hbal (hba.trans hlt)⟩ hlt
  obtain ⟨n, reads, hsearch⟩ := search_skip (by decide) (by decide) (by decide) hskip
  rw [hsearch]
  exact start_mem_searchFrom_reads m n _ reads

/-- For every content of memory: the search is one of the BIOS area exactly if the area has
a RSDP and the first one has a RSDT pointer, which `Init` then follows. -/
theorem discovers_iff (m : Bytes) :
    (Discovers m ↔ ∃ a, FirstRsdp m a ∧ a < biosEnd ∧ rsdtPointer m (kptr (some a)) ≠ 0) ∧
      ∀ a, FirstRsdp m a → a < biosEnd → rsdtPointer m (kptr (some a)) ≠ 0 →
        ∀ fuel ps, initTables m fuel ps =
          andThen (parseRSDT m (kptr (some (rsdtPointer m (kptr (some a))))) fuel ps)
            requireIoApics := by
  have hends : biosEnd < searchEnd := by decide
  have hfound : ∀ a, FirstRsdp m a → a < biosEnd → rsdtPointer m (kptr (some a)) ≠ 0 →
      (search m).outcome = .ok (some (rsdtPointer m (kptr (some a)))) := by
    intro a hfirst hlt hptr
    rw [hfirst.outcome (hlt.trans hends), parseRSDP_some hfirst.isRsdp hptr]
  refine ⟨⟨fun D => ?_, ?_⟩, fun a hfirst hlt hptr fuel ps => ?_⟩
  · by_contra hnot
    by_cases harea : ∃ a, FirstRsdp m a ∧ a < biosEnd
    · obtain ⟨a, hfirst, hlt⟩ := harea
      have hptr : rsdtPointer m (kptr (some a)) = 0 := by
        by_contra hptr
        exact hnot ⟨a, hfirst, hlt, hptr⟩
      obtain ⟨e, he⟩ := parseRSDP_error hfirst.isRsdp hptr
      have hok := D.first a hfirst hlt
      rw [hfirst.outcome (hlt.trans hends), he] at hok
      cases hok
    · have hnone : ∀ a, FirstRsdp m a → ¬ a < biosEnd := fun a hfirst hlt =>
        harea ⟨a, hfirst, hlt⟩
      exact absurd (D.none hnone).2 fun hreads =>
        lt_irrefl _ (hreads _ (biosEnd_mem_reads hnone)).2
  · rintro ⟨a, hfirst, hlt, hptr⟩
    refine ⟨fun b hb hltb => ?_, fun hnone => absurd hlt (hnone a hfirst)⟩
    have heq : b = a := by
      rcases Nat.lt_trichotomy a b with hab | hab | hab
      · exact absurd hfirst.isRsdp (hb.first a hfirst.start_le hfirst.aligned hab)
      · exact hab.symm
      · exact absurd hb.isRsdp (hfirst.first b hb.start_le hb.aligned hab)
    rw [heq]
    exact hfound a hfirst hlt hptr
  · rw [initTables, hfound a hfirst hlt hptr]

/-- A RSDP at `a` that points to `0x2000`, in memory of zeros. -/
def memoryWithRsdp (a : Nat) : Bytes :=
  .ofList (kptr (some a)) ([0x52#8, 0x53#8, 0x44#8, 0x20#8, 0x50#8, 0x54#8, 0x52#8, 0x20#8, 0xc1#8]
    ++ (List.replicate 7 0#8 ++ Bytes.le32 0x2000))

theorem isRsdp_low : IsRsdp (memoryWithRsdp searchStart) (kptr (some searchStart)) :=
  ⟨by decide, by decide, by decide⟩

theorem discovers_iff_low : Discovers (memoryWithRsdp searchStart) :=
  (discovers_iff _).1.mpr ⟨searchStart, ⟨le_rfl, by decide, isRsdp_low,
    fun a' hle _ hlt => absurd hlt (Nat.not_lt.mpr hle)⟩, by decide, by decide⟩

/-- A RSDP right behind the area is followed. -/
theorem follows_behind_area :
    (∀ a, searchStart ≤ a → 16 ∣ a → a < biosEnd →
      ¬ IsRsdp (memoryWithRsdp biosEnd) (kptr (some a))) ∧
    (search (memoryWithRsdp biosEnd)).outcome = .ok (some 0x2000) := by
  have hlow : ∀ a, searchStart ≤ a → 16 ∣ a → a < biosEnd →
      ¬ IsRsdp (memoryWithRsdp biosEnd) (kptr (some a)) := by
    intro a _ _ hlt hrsdp
    have hsig := hrsdp.signature
    have hbyte : (memoryWithRsdp biosEnd).u8 (kptr (some a)) = 0 := by
      have hbelow : kptr (some a) < kptr (some biosEnd) := by
        simp only [kptr]
        omega
      rw [Bytes.u8, memoryWithRsdp, Bytes.ofList, if_pos hbelow]
      rfl
    have hodd : rsdpSignature % 256 = 0x52 := rfl
    rw [Bytes.u64, Bytes.u32, hbyte] at hsig
    omega
  have hrsdp : IsRsdp (memoryWithRsdp biosEnd) (kptr (some biosEnd)) :=
    ⟨by decide, by decide, by decide⟩
  have hfirst : FirstRsdp (memoryWithRsdp biosEnd) biosEnd := ⟨by decide, by decide, hrsdp, hlow⟩
  refine ⟨hlow, ?_⟩
  rw [hfirst.outcome (by decide), parseRSDP_some hrsdp (by decide)]
  decide

end Acpi

end Chestnut
