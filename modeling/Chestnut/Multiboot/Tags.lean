import Chestnut.Lib.Walk
import Chestnut.Multiboot.Model
import Mathlib.Tactic.Common

/-!
# Walking the tags

On a list of tags the walk lands on every tag header and on nothing else, and
keeps the last tag of each type. On arbitrary bytes it ends inside its buffer
exactly if every header it comes to lies inside and has a rounded size other
than zero.
-/

namespace Chestnut

open Lib Bytes

namespace Multiboot

variable {m : Bytes} {mbi : Int}

theorem parse_eq_some_iff {r : Except Fault TagWalk} :
    (∃ fuel, parseMultibootInfo m mbi fuel = some r) ↔
      Ends (moreTags m mbi) (pureBody (visitTag m))
        { tagPtr := mbi + 8, reads := span mbi 4 } r :=
  exists_whileLoop_iff fun s => fuelMono_pureBody _ s

/-! ### Tag lists -/

/-- A tag: the type, the bytes behind the two header words, and the bytes up to the next
multiple of eight. -/
structure Tag where
  type : Nat
  payload : List (BitVec 8)
  padding : List (BitVec 8)
  type_lt : type < 2 ^ 32
  padding_length : padding.length = (8 - payload.length % 8) % 8

theorem mod_word_lt (n : Nat) : n % 2 ^ 32 < 2 ^ 32 := Nat.mod_lt n (by decide)

namespace Tag

/-- The tag with the given payload, padded with zeros. -/
def ofPayload (type : Nat) (payload : List (BitVec 8)) : Tag :=
  ⟨type % 2 ^ 32, payload, List.replicate ((8 - payload.length % 8) % 8) 0#8, mod_word_lt type,
    List.length_replicate⟩

/-- `tag->size`, which counts the header. -/
def size (t : Tag) : Nat := 8 + t.payload.length

def bytes (t : Tag) : List (BitVec 8) :=
  le32 t.type ++ (le32 t.size ++ (t.payload ++ t.padding))

theorem length_bytes (t : Tag) : t.bytes.length = 8 + t.payload.length + t.padding.length := by
  simp only [bytes, List.length_append, length_le32]
  omega

/-- The walk steps over the tag and its padding. -/
theorem roundedSize_size (t : Tag) (h : t.bytes.length < 2 ^ 31) :
    roundedSize t.size = t.bytes.length := by
  have hpad := t.padding_length
  rw [length_bytes] at h ⊢
  rw [roundedSize, size]
  omega

end Tag

/-- The bytes of the tags, one after another. -/
def tagBytes (tags : List Tag) : List (BitVec 8) := tags.flatMap Tag.bytes

/-- The boot information: its size, a reserved word and the tags. -/
def encode (reserved : BitVec 32) (tags : List Tag) : List (BitVec 8) :=
  le32 (8 + (tagBytes tags).length) ++ (le32 reserved.toNat ++ tagBytes tags)

/-- The types of the tags and where they start. -/
def placed : List Tag → Int → List (Nat × Int)
  | [], _ => []
  | t :: ts, a => (t.type, a) :: placed ts (a + t.bytes.length)

/-- The last tag of a type. -/
def lastOf (type : Nat) (ts : List (Nat × Int)) : Option Int :=
  ((ts.filter fun t => t.1 = type).getLast?).map Prod.snd

theorem lastOf_cons (type : Nat) (t : Nat × Int) (ts : List (Nat × Int)) :
    lastOf type (t :: ts) = (lastOf type ts).or (if t.1 = type then some t.2 else none) := by
  rw [lastOf, lastOf, List.filter_cons]
  by_cases ht : t.1 = type
  · simp only [ht, decide_true, if_true]
    cases hrest : (ts.filter fun t => t.1 = type).getLast? with
    | none => simp [List.getLast?_cons, hrest]
    | some u => simp [List.getLast?_cons, hrest]
  · simp [ht]

/-- The information that a list of tags adds. -/
def found (ts : List (Nat × Int)) (info : MultibootInfo) : MultibootInfo where
  bootMemMap := (lastOf tagTypeMmap ts).or info.bootMemMap
  bootVbe := (lastOf tagTypeVbe ts).or info.bootVbe
  bootFramebuf := (lastOf tagTypeFramebuffer ts).or info.bootFramebuf

theorem found_cons (type : Nat) (a : Int) (ts : List (Nat × Int)) (info : MultibootInfo) :
    found ((type, a) :: ts) info = found ts (record type a info) := by
  simp only [found, lastOf_cons, record, tagTypeMmap, tagTypeVbe, tagTypeFramebuffer]
  by_cases h6 : type = 6
  · subst h6
    simp
  · by_cases h7 : type = 7
    · subst h7
      simp
    · by_cases h8 : type = 8
      · subst h8
        simp
      · simp [h6, h7, h8]

/-- The walk over the tags that are left. -/
theorem ends_tags (m : Bytes) (mbi : Int) (tags : List Tag) {w : TagWalk}
    (hw : m.Holds w.tagPtr (tagBytes tags))
    (hend : w.tagPtr + (tagBytes tags).length = mbi + m.i32 mbi)
    (hlen : (tagBytes tags).length < 2 ^ 31) :
    ∃ w', Ends (ε := Fault) (moreTags m mbi) (pureBody (visitTag m)) w (.ok w') ∧
      w'.info = found (placed tags w.tagPtr) w.info ∧
      ∀ x ∈ w'.reads, x ∈ w.reads ∨ w.tagPtr ≤ x ∧ x < w.tagPtr + (tagBytes tags).length := by
  induction tags generalizing w with
  | nil =>
      refine ⟨w, .done ?_, rfl, fun x hx => .inl hx⟩
      simp only [tagBytes, List.flatMap_nil, List.length_nil] at hend
      simp only [moreTags, decide_eq_false_iff_not]
      omega
  | cons t ts ih =>
      have hcons : tagBytes (t :: ts) = t.bytes ++ tagBytes ts := List.flatMap_cons
      rw [hcons, List.length_append] at hend hlen
      rw [hcons, holds_append] at hw
      obtain ⟨hbytes, hrest⟩ := hw
      have hsize := t.length_bytes
      rw [Tag.bytes, holds_append, holds_append] at hbytes
      obtain ⟨htype, hword, -⟩ := hbytes
      -- the two header words are the ones of the tag
      have htype : m.u32 w.tagPtr = t.type := htype.u32_eq t.type_lt
      have hword : m.u32 (w.tagPtr + 4) = t.size := hword.u32_eq (by rw [Tag.size]; omega)
      have hnext : (visitTag m w).tagPtr = w.tagPtr + t.bytes.length := by
        rw [visitTag, hword, t.roundedSize_size (by omega)]
      have hguard : moreTags m mbi w = true := by
        simp only [moreTags, decide_eq_true_eq]
        omega
      rw [← hnext] at hrest
      obtain ⟨w', hends, hinfo, hreads⟩ := ih hrest (by rw [hnext]; omega) (by omega)
      refine ⟨w', .turn (n := 0) hguard rfl hends, ?_, fun x hx => ?_⟩
      · rw [hinfo, hnext, placed, found_cons, ← htype]
        rfl
      · rw [hcons, List.length_append]
        rw [hnext] at hreads
        rcases hreads x hx with hx | hx
        · rcases List.mem_append.mp hx with hx | hx
          · rw [mem_span] at hx
            exact .inr (by omega)
          · exact .inl hx
        · exact .inr (by omega)

/-- Boot information that encodes a list of tags is decoded: for each of the three types
the result is the address of the last tag of that type, or null without one. -/
theorem parse_encode (reserved : BitVec 32) (tags : List Tag) (m : Bytes) (mbi : Int)
    (hm : m.Holds mbi (encode reserved tags)) (hlen : (encode reserved tags).length < 2 ^ 31) :
    ∃ n, ∀ fuel, n ≤ fuel → ∃ w, parseMultibootInfo m mbi fuel = some (.ok w) ∧
      w.info.bootMemMap = lastOf tagTypeMmap (placed tags (mbi + 8)) ∧
      w.info.bootVbe = lastOf tagTypeVbe (placed tags (mbi + 8)) ∧
      w.info.bootFramebuf = lastOf tagTypeFramebuffer (placed tags (mbi + 8)) := by
  simp only [encode, List.length_append, length_le32] at hlen
  rw [encode, holds_append, holds_append] at hm
  obtain ⟨htotal, -, htags⟩ := hm
  have htotal : m.u32 mbi = 8 + (tagBytes tags).length := htotal.u32_eq (by omega)
  have hsize : m.i32 mbi = 8 + (tagBytes tags).length := by
    rw [i32_of_lt (by omega), htotal]
    rfl
  have hstart : mbi + 8 = mbi + ((le32 (8 + (tagBytes tags).length)).length : Int) +
      ((le32 reserved.toNat).length : Int) := by
    rw [length_le32, length_le32]
    omega
  rw [← hstart] at htags
  obtain ⟨w, hends, hinfo, -⟩ := ends_tags m mbi tags
    (w := { tagPtr := mbi + 8, reads := span mbi 4 }) htags
    (by rw [hsize]; exact Int.add_assoc _ _ _) (by omega)
  obtain ⟨n, hn⟩ := hends.whileLoop fun s => fuelMono_pureBody _ s
  refine ⟨n, fun fuel hfuel => ⟨w, hn fuel hfuel, ?_⟩⟩
  rw [hinfo]
  simp [found]

/-- A framebuffer tag between two memory maps. -/
def sampleTags : List Tag := [.ofPayload 6 [], .ofPayload 8 [1#8, 2#8], .ofPayload 6 []]

theorem parse_encode_sampleTags :
    ∃ n, ∀ fuel, n ≤ fuel →
      ∃ w, parseMultibootInfo (ofList 0x1000 (encode 0#32 sampleTags)) 0x1000 fuel =
          some (.ok w) ∧
        w.info.bootMemMap = some 0x1020 ∧ w.info.bootVbe = none ∧
        w.info.bootFramebuf = some 0x1010 :=
  parse_encode 0#32 sampleTags _ 0x1000 (holds_ofList _ _) (by decide)

/-! ### Arbitrary bytes -/

/-- Every tag that the walk comes to from an offset on has its header inside a buffer of `n`
bytes and moves the walk. -/
def TagsWithin (m : Bytes) (mbi : Int) (n : Nat) (a : Int) : Prop :=
  WalkWithin (mbi + n) (fun a => a + 8 ≤ mbi + n) (fun a => roundedSize (m.u32 (a + 4))) a

variable {n : Nat}

/-- A walk that ended inside the buffer passed tags that stay inside. -/
theorem tagsWithin_of_ends (hn : m.i32 mbi = n) {w w' : TagWalk} {r : Except Fault TagWalk}
    (h : Ends (moreTags m mbi) (pureBody (visitTag m)) w r) (hr : r = .ok w')
    (hin : ∀ a ∈ w'.reads, mbi ≤ a ∧ a < mbi + n) :
    (∀ a ∈ w.reads, a ∈ w'.reads) ∧ TagsWithin m mbi n w.tagPtr := by
  induction h with
  | @done s hg =>
      cases hr
      simp only [moreTags, decide_eq_false_iff_not, hn] at hg
      exact ⟨fun a ha => ha, .done (by omega)⟩
  | fault _ hb => cases hb
  | @turn s s' r k hg hb _ ih =>
      cases hb
      obtain ⟨hsub, hwithin⟩ := ih hr
      have hmem : ∀ a ∈ (visitTag m s).reads, a ∈ w'.reads := hsub
      simp only [visitTag, List.mem_append] at hmem
      refine ⟨fun a ha => hmem a (.inr ha), ?_⟩
      have hlast := hin (s.tagPtr + 7) (hmem _ (.inl (mem_span.mpr (by omega))))
      by_cases hz : roundedSize (m.u32 (s.tagPtr + 4)) = 0
      · -- a tag of size zero leads back to itself
        simpa [visitTag, hz] using hwithin
      · exact .entry (by omega) hz hwithin

/-- Over tags that stay inside, the walk ends and has read only bytes of the buffer. -/
theorem ends_of_tagsWithin (hn : m.i32 mbi = n) {a : Int} (h : TagsWithin m mbi n a)
    {w : TagWalk} (hw : w.tagPtr = a) (ha : mbi ≤ a)
    (hin : ∀ x ∈ w.reads, mbi ≤ x ∧ x < mbi + n) :
    ∃ w', Ends (ε := Fault) (moreTags m mbi) (pureBody (visitTag m)) w (.ok w') ∧
      ∀ x ∈ w'.reads, mbi ≤ x ∧ x < mbi + n := by
  refine h.induct (motive := fun a => ∀ w : TagWalk, w.tagPtr = a → mbi ≤ a →
    (∀ x ∈ w.reads, mbi ≤ x ∧ x < mbi + n) →
    ∃ w', Ends (ε := Fault) (moreTags m mbi) (pureBody (visitTag m)) w (.ok w') ∧
      ∀ x ∈ w'.reads, mbi ≤ x ∧ x < mbi + n) ?_ ?_ w hw ha hin
  · intro a hstop w hw _ hin
    refine ⟨w, .done ?_, hin⟩
    simp only [moreTags, decide_eq_false_iff_not, hn]
    omega
  · rintro a hlt hheader ih w rfl ha hin
    have hguard : moreTags m mbi w = true := by
      simp only [moreTags, decide_eq_true_eq, hn]
      exact hlt
    obtain ⟨w', hends, hin'⟩ := ih (visitTag m w) rfl (by omega) (by
      intro x hx
      simp only [visitTag, List.mem_append, mem_span] at hx
      rcases hx with hx | hx
      · omega
      · exact hin x hx)
    exact ⟨w', .turn (n := 0) hguard rfl hends, hin'⟩

/-- On a buffer whose first word is its own length, whatever else it holds, the walk ends
and has read only bytes of the buffer exactly if every tag header it comes to lies inside
and has a rounded size other than zero. -/
theorem parse_within_iff (m : Bytes) (mbi : Int) (n : Nat) (h4 : 4 ≤ n) (hn : m.u32 mbi = n)
    (hlt : n < 2 ^ 31) :
    (∃ fuel w, parseMultibootInfo m mbi fuel = some (.ok w) ∧
      ∀ a ∈ w.reads, mbi ≤ a ∧ a < mbi + n) ↔ TagsWithin m mbi n (mbi + 8) := by
  have hi : m.i32 mbi = n := by rw [i32_of_lt (by omega), hn]
  constructor
  · rintro ⟨fuel, w, hrun, hin⟩
    exact (tagsWithin_of_ends hi (parse_eq_some_iff.mp ⟨fuel, hrun⟩) rfl hin).2
  · intro h
    obtain ⟨w, hends, hin⟩ := ends_of_tagsWithin hi h
      (w := { tagPtr := mbi + 8, reads := span mbi 4 }) rfl (by omega) (by
        intro x hx
        rw [mem_span] at hx
        omega)
    obtain ⟨fuel, hfuel⟩ := parse_eq_some_iff.mpr hends
    exact ⟨fuel, w, hfuel, hin⟩

/-- Three tags, the second of which is padded. -/
theorem parse_within_iff_sampleTags :
    ∃ fuel w, parseMultibootInfo (ofList 0x1000 (encode 0#32 sampleTags)) 0x1000 fuel =
        some (.ok w) ∧ ∀ a ∈ w.reads, 0x1000 ≤ a ∧ a < 0x1000 + ((40 : Nat) : Int) := by
  apply (parse_within_iff _ 0x1000 40 (by decide) (by decide) (by decide)).mpr
  refine .entry (by decide) (by decide) ?_
  refine .entry (by decide) (by decide) ?_
  exact .entry (by decide) (by decide) (.done (by decide))

/-- Boot information of 16 bytes with one tag, whose size word is `size`. -/
def oneTag (size : Nat) : Bytes := ofList 0 (le32 16 ++ le32 0 ++ le32 0 ++ le32 size)

/-- A size word of zero: the walk never leaves the tag. -/
theorem parse_oneTag_zero :
    (oneTag 0).u32 0 = 16 ∧ ∀ fuel r, parseMultibootInfo (oneTag 0) 0 fuel ≠ some r := by
  refine ⟨by decide, ?_⟩
  intro fuel r hrun
  have hends := parse_eq_some_iff.mp ⟨fuel, hrun⟩
  have hguard : ∀ w : TagWalk, w.tagPtr = 8 → moreTags (oneTag 0) 0 w = true := by
    intro w hw
    rw [moreTags, hw]
    decide
  have hstays : ∀ (w : TagWalk) (n : Nat) (w' : TagWalk), w.tagPtr = 8 →
      pureBody (ε := Fault) (visitTag (oneTag 0)) n w = some (.ok w') → w'.tagPtr = 8 := by
    intro w n w' hw hb
    cases hb
    have hsize : roundedSize ((oneTag 0).u32 (8 + 4)) = 0 := by decide
    simp only [visitTag, hw, hsize]
    rfl
  obtain ⟨n, w, e, -, hb, -⟩ := hends.error_of_guard hguard hstays rfl
  cases hb

end Multiboot

end Chestnut
