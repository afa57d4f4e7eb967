import Chestnut.Acpi.Tables
import Chestnut.System.Isolation

/-!
# Device pages in the kernel's tables

Behind the boot, `Acpi::Init`, `LocalApic::InitCpu` and `IoApic::Init` map the pages
they are about to read with `MapPage(paddr, false, true)`. A call is fatal under a
1 GiB leaf. No such leaf lies over a device page if the other pages of its gigabyte
are not all mapped alike, and this can be read off the memory map. Then, whatever
heap calls and stores come in between, the device pages are uncached, everything
else is as the boot has mapped it, and the search for the RSDP reads what is mapped.
At the end stands `Acpi::Init` as a whole, as `KernelMain` calls it.
-/

namespace Chestnut

open Lib

namespace KernelWorld

variable {img : KernelImage} {es : List MmapEntry} {nodes : Links NodeRef}
variable {slab : Nat → SlabRec} {t : BootTables} {s : Paging} {root : Nat} {w₀ w w' : KernelWorld}
variable {pages : List Nat} {calls : List Paging.MapCall} {G : Ghost} {T : PageTree}

/-- `MapPage(paddr, false, true)`. -/
def deviceCall (paddr : Nat) : Paging.MapCall := ⟨paddr, false, true⟩

/-- Apart from the device pages, the gigabyte of `p` is mapped with the same flags throughout. -/
def AlikeAround (es : List MmapEntry) (pages : List Nat) (p : Nat) : Prop :=
  ∃ c, ∀ y, y / 512 ^ 2 = p / pageSize / 512 ^ 2 → (∀ q ∈ pages, q / pageSize ≠ y) →
    MappedBy es y c

/-- Pages that a driver may map. -/
structure DevicePages (es : List MmapEntry) (pages : List Nat) : Prop where
  aligned : ∀ p ∈ pages, p % pageSize = 0
  low : ∀ p ∈ pages, p < 2 ^ 39
  mixed : ∀ p ∈ pages, ¬ AlikeAround es pages p

/-- Heap calls and stores as the kernel makes them, and calls for device pages. -/
def DeviceOp (pages : List Nat) (w : KernelWorld) : KernelOp → Prop
  | .heap op words => w.Allowed (.heap op words)
  | .mapPage c => ∃ p ∈ pages, c = deviceCall p
  | .store addr v => w.Allowed (.store addr v)

/-! ### What the calls leave -/

/-- The pages of some calls are uncached, the others as the boot map says. -/
def withDevices (es : List MmapEntry) (calls : List Paging.MapCall) (y : Nat) (c : Caching) :
    Prop :=
  if y ∈ calls.map (·.paddr / pageSize) then c = ⟨false, true⟩ else MappedBy es y c

theorem withDevices_of_mem {call : Paging.MapCall} (hcall : call ∈ calls) :
    withDevices es calls (call.paddr / pageSize) ⟨false, true⟩ :=
  (if_pos (List.mem_map.mpr ⟨call, hcall, rfl⟩)).mpr rfl

/-- Calls for device pages leave the other pages alone. -/
theorem withDevices_iff_of_far (h : ∀ call ∈ calls, ∃ p ∈ pages, call = deviceCall p) {y : Nat}
    (hfar : ∀ q ∈ pages, q / pageSize ≠ y) (c : Caching) :
    withDevices es calls y c ↔ MappedBy es y c := by
  rw [withDevices, if_neg]
  intro hmem
  obtain ⟨call, hcall, hy⟩ := List.mem_map.mp hmem
  obtain ⟨q, hq, rfl⟩ := h call hcall
  exact hfar q hq hy

theorem mappedAfter_deviceCalls (h : ∀ call ∈ calls, ∃ p ∈ pages, call = deviceCall p) (y : Nat)
    (c : Caching) : mappedAfter es calls y c ↔ withDevices es calls y c := by
  induction calls with
  | nil => simp [mappedAfter, withDevices]
  | cons call calls ih =>
      obtain ⟨p, -, hcall⟩ := h call List.mem_cons_self
      rw [mappedAfter, withDevices]
      by_cases hp : call.paddr / pageSize = y
      · rw [if_pos hp, if_pos (List.mem_map.mpr ⟨call, List.mem_cons_self, hp⟩), hcall]
        rfl
      · have hmem : y ∈ (call :: calls).map (·.paddr / pageSize) ↔
            y ∈ calls.map (·.paddr / pageSize) := by
          rw [List.map_cons, List.mem_cons, or_iff_right (Ne.symm hp)]
        rw [if_neg hp, ih fun call' h' => h call' (List.mem_cons_of_mem _ h'), withDevices,
          if_congr hmem rfl rfl]

theorem Shows.iff {D D' : Nat → Caching → Prop} (h : Shows D s) (hD : ∀ y c, D y c ↔ D' y c) :
    Shows D' s := by
  refine ⟨fun a ha t => ?_, fun a ha c hc => h.cacheDisabled a ha c ((hD _ _).mpr hc)⟩
  rw [h.walk_iff a ha t]
  simp only [hD]

/-- A page that the tree maps is shown with its flags. -/
theorem Shows.of_mapped {D : Nat → Caching → Prop} {free : List Nat} (h : Shows D s)
    (I : Paging.Installed root T free s) {y : Nat} (hy : y < 2 ^ 27) {c : Caching}
    (hc : T.Mapped 512 y c) : D y c := by
  have ha : pageSize * y < 2 ^ 39 := by
    rw [pageSize]
    omega
  have hpage : pageSize * y / pageSize = y := Nat.mul_div_cancel_left y (by decide)
  have hwalk := (I.holds.walk_eq_some_iff I.cr3_eq ha ⟨pageSize * y, true, c.wt⟩).mpr
    ⟨c, hpage.symm ▸ hc, rfl⟩
  obtain ⟨c', hD, hwt⟩ := (h.walk_iff _ ha _).mp hwalk
  obtain ⟨l, e, hleaf, hcd⟩ := h.cacheDisabled _ ha c' hD
  obtain ⟨k, hk⟩ := hc
  have hown : s.leafOf (pageSize * y) = some (k, encode k (y / 512 ^ k) (.leaf c)) := by
    refine (I.holds.leafOf_eq_some_iff I.cr3_eq ha k _).mpr ⟨c, ?_, ?_⟩ <;> rw [hpage]
    exact hk
  have hsame : c'.cd = c.cd := by
    obtain ⟨rfl, rfl⟩ := Prod.mk.inj (Option.some.inj (hown.symm.trans hleaf))
    rw [← hcd, (Paging.leaf_bits k _ c).2.2.2.1]
  obtain rfl : c' = c := by
    cases c
    cases c'
    simp only [Translation.mk.injEq, true_and] at hwt
    simp only at hsame
    rw [hwt, hsame]
  rwa [hpage] at hD

/-- A 1 GiB leaf would map the other pages of its gigabyte alike. -/
theorem alikeAround_of_underHuge (I : KernelInv root G T w)
    (hcalls : ∀ call ∈ calls, ∃ p ∈ pages, call = deviceCall p)
    (h : Shows (mappedAfter es calls) w.paging) {p : Nat} (hp : p < 2 ^ 39)
    (hhuge : w.paging.UnderHuge p) : AlikeAround es pages p := by
  obtain ⟨c, hc⟩ := (I.tables.underHuge_iff hp).mp hhuge
  refine ⟨c, fun y hy hout => ?_⟩
  have hlt : y < 2 ^ 27 := by
    have hpage := Paging.page_lt hp
    omega
  have hshown := h.of_mapped I.tables hlt ⟨2, hy ▸ hc⟩
  rwa [mappedAfter_deviceCalls hcalls, withDevices_iff_of_far hcalls hout] at hshown

theorem DevicePages.allowed (P : DevicePages es pages) (I : KernelInv root G T w)
    (hcalls : ∀ call ∈ calls, ∃ p ∈ pages, call = deviceCall p)
    (h : Shows (mappedAfter es calls) w.paging) {op : KernelOp} (ha : w.DeviceOp pages op) :
    w.Allowed op := by
  cases op with
  | heap op words => exact ha
  | store addr v => exact ha
  | mapPage c =>
      obtain ⟨p, hp, rfl⟩ := ha
      exact ⟨P.aligned p hp, P.low p hp, fun hhuge =>
        P.mixed p hp (alikeAround_of_underHuge I hcalls h (P.low p hp) hhuge)⟩

/-! ### Runs -/

theorem mapCalls_append (tr tr' : List (KernelWorld × KernelOp)) :
    mapCalls (tr ++ tr') = mapCalls tr ++ mapCalls tr' :=
  List.filterMap_append

/-- What holds along a run of such operations. -/
structure DeviceInv (es : List MmapEntry) (root : Nat) (pages : List Nat)
    (tr : List (KernelWorld × KernelOp)) (w : KernelWorld) : Prop where
  kernel : ∃ G T, KernelInv root G T w
  calls : ∀ call ∈ mapCalls tr, ∃ p ∈ pages, call = deviceCall p
  shown : Shows (mappedAfter es (mapCalls tr)) w.paging

theorem DeviceInv.step {tr : List (KernelWorld × KernelOp)} (P : DevicePages es pages)
    (J : DeviceInv es root pages tr w) {op : KernelOp} (ha : w.DeviceOp pages op)
    (hs : w.step op = .ok w') : DeviceInv es root pages ((w, op) :: tr) w' := by
  obtain ⟨G, T, I⟩ := J.kernel
  have hallowed := P.allowed I J.calls J.shown ha
  have hshown := shows_step I J.shown hallowed hs
  refine ⟨I.step hallowed hs, fun call hcall => ?_, ?_⟩
  · cases op with
    | heap op words => exact J.calls call hcall
    | store addr v => exact J.calls call hcall
    | mapPage c =>
        rcases List.mem_cons.mp hcall with rfl | hcall
        · exact ha
        · exact J.calls call hcall
  · cases op <;> exact hshown

theorem DeviceInv.devices {tr : List (KernelWorld × KernelOp)}
    (J : DeviceInv es root pages tr w) : Shows (withDevices es (mapCalls tr)) w.paging :=
  J.shown.iff (mappedAfter_deviceCalls J.calls)

theorem deviceInv_of_run {tr : List (KernelWorld × KernelOp)} (B : Bootable img es t s)
    (hboot : boot img es nodes slab s = .ok w₀) (hleft : w₀.PageLeft) (P : DevicePages es pages)
    (hrun : Steps step (DeviceOp pages) w₀ tr w) : DeviceInv es t.pml4 pages tr w := by
  obtain ⟨G, T, I, hmap⟩ := boot_inv B hboot hleft
  refine hrun.inv (I := DeviceInv es t.pml4 pages) ⟨⟨G, T, I⟩, ?_, .of_installed I.tables hmap⟩
    fun tr w op w' J ha hs => J.step P ha hs
  exact fun call hcall => absurd hcall List.not_mem_nil

/-- Drivers that map their pages in any order, among any heap calls and stores: the heap stays
safe, mapped and apart from the tables, and a kernel address translates uncached if its page is
one of those mapped, else as the boot map says. -/
theorem devices_of_run {tr : List (KernelWorld × KernelOp)} (B : Bootable img es t s)
    (hboot : boot img es nodes slab s = .ok w₀) (hleft : w₀.PageLeft) (P : DevicePages es pages)
    (hrun : Steps step (DeviceOp pages) w₀ tr w) :
    w.heap.Safe ∧ w.TablesApart ∧ w.HeapMapped ∧
      Shows (withDevices es (mapCalls tr)) w.paging := by
  have J := deviceInv_of_run B hboot hleft P hrun
  obtain ⟨G, T, I⟩ := J.kernel
  exact ⟨HeapWorld.safe_of_inv I.heap, tablesApart_of_inv I, heapMapped_of_inv I, J.devices⟩

/-- The small machine has no memory at 256 MiB. -/
theorem devicePages_small {pages : List Nat} (hal : ∀ p ∈ pages, p % pageSize = 0)
    (hlow : ∀ p ∈ pages, p < 0x10000000) : DevicePages smallMap pages := by
  refine ⟨hal, fun p hp => (hlow p hp).trans (by decide), fun p hp => ?_⟩
  rintro ⟨c, hc⟩
  have hp := hlow p hp
  have hfar : ∀ q ∈ pages, q / pageSize ≠ 0x10000 := by
    intro q hq
    have hq := hlow q hq
    rw [pageSize]
    omega
  obtain ⟨e, he, -, ⟨a, ha, hcovers⟩, -⟩ := hc 0x10000 (by rw [pageSize]; omega) hfar
  rw [pageSize] at ha
  simp only [smallMap, List.mem_cons, List.not_mem_nil, or_false] at he
  rcases he with rfl | rfl
  all_goals
    simp only [MmapEntry.Covers, MmapEntry.ofWords, u64Size] at hcovers
    omega

/-- The small machine boots with a page left. -/
theorem smallBoot_then {p : KernelWorld → Bool} (h : okAnd smallBoot (fun w₀ =>
    (okAnd w₀.paging.pages.allocPage fun r => r.1 == .pg 4) && p w₀) = true) :
    ∃ w₀, smallBoot = .ok w₀ ∧ w₀.PageLeft ∧ p w₀ = true := by
  obtain ⟨w₀, hboot, hrun⟩ := exists_of_okAnd h
  obtain ⟨hleft, hp⟩ := Bool.and_eq_true_iff.mp hrun
  obtain ⟨⟨q, m⟩, halloc, hq⟩ := exists_of_okAnd hleft
  obtain rfl : q = .pg 4 := beq_iff_eq.mp hq
  exact ⟨w₀, hboot, ⟨4, m, halloc⟩, hp⟩

theorem devices_of_run_small :
    ∃ w₀ w : KernelWorld, smallBoot = .ok w₀ ∧
      Steps step (DeviceOp [0x10000]) w₀ [(w₀, .mapPage (deviceCall 0x10000))] w ∧
      Paging.walk w.mem w.cr3 (kernOffset + 0x10123) = some ⟨0x10123, true, false⟩ := by
  obtain ⟨w₀, hboot, hleft, hrun⟩ := smallBoot_then
    (p := fun w₀ => okAnd (w₀.step (.mapPage (deviceCall 0x10000))) fun _ => true)
    (by decide +kernel)
  obtain ⟨w, hs, -⟩ := exists_of_okAnd hrun
  have hsteps : Steps step (DeviceOp [0x10000]) w₀ [(w₀, .mapPage (deviceCall 0x10000))] w :=
    .next .start ⟨0x10000, List.mem_cons_self, rfl⟩ hs
  obtain ⟨-, -, -, hshown⟩ := devices_of_run smallBoot_bootable hboot hleft
    (devicePages_small (by decide) (by decide)) hsteps
  have hmem : 0x10123 / pageSize ∈ [0x10000 / pageSize] := by decide
  exact ⟨w₀, w, hboot, hsteps, (hshown.walk_iff 0x10123 (by decide) _).mpr
    ⟨⟨false, true⟩, (if_pos hmem).mpr rfl, rfl⟩⟩

end KernelWorld

/-! ### The search for the RSDP -/

namespace Acpi

variable {m : Bytes} {p : Int} {n k : Nat}

/-- One turn reads the twenty bytes of a RSDP at most. -/
theorem searchFrom_turn (m : Bytes) (n : Nat) (p : Int) (reads : List Int) :
    ∃ reads', (∀ x ∈ reads', x ∈ reads ∨ p ≤ x ∧ x < p + 20) ∧
      ((searchFrom m (n + 1) p reads).reads = reads' ∨
        ¬ IsRsdp m p ∧ searchFrom m (n + 1) p reads = searchFrom m n (p + 16) reads') := by
  have hspan : ∀ x ∈ span p 20 ++ (span p 8 ++ reads), x ∈ reads ∨ p ≤ x ∧ x < p + 20 := by
    intro x hx
    simp only [List.mem_append, mem_span, Nat.cast_ofNat] at hx
    rcases hx with hx | hx | hx
    · exact .inr hx
    · exact .inr ⟨hx.1, by omega⟩
    · exact .inl hx
  rw [searchFrom]
  by_cases hsig : m.u64 p = rsdpSignature
  · rw [if_pos hsig]
    by_cases hp : IsRsdp m p
    · refine ⟨_, hspan, .inl ?_⟩
      by_cases hptr : rsdtPointer m p = 0
      · obtain ⟨e, he⟩ := parseRSDP_error hp hptr
        simp only [he]
      · simp only [parseRSDP_some hp hptr]
    · refine ⟨_, hspan, .inr ⟨hp, ?_⟩⟩
      simp only [parseRSDP_none hp hsig]
  · rw [if_neg hsig]
    refine ⟨_, fun x hx => hspan x (List.mem_append_right _ hx), .inr ⟨?_, rfl⟩⟩
    exact fun hp => hsig hp.signature

/-- A search that meets a RSDP in turn `k` reads nothing behind it. -/
theorem searchFrom_reads_of_isRsdp (h : IsRsdp m (p + 16 * k)) (hk : k < n) (reads : List Int)
    {x : Int} (hx : x ∈ (searchFrom m n p reads).reads) :
    x ∈ reads ∨ p ≤ x ∧ x < p + 16 * k + 20 := by
  induction n generalizing p k reads with
  | zero => cases hk
  | succ n ih =>
      obtain ⟨reads', hreads', hend | ⟨hp, hnext⟩⟩ := searchFrom_turn m n p reads
      · rw [hend] at hx
        exact (hreads' x hx).imp_right fun hin => ⟨hin.1, by omega⟩
      · have hpos : k ≠ 0 := by
          rintro rfl
          exact hp (by simpa using h)
        obtain ⟨k, rfl⟩ := Nat.exists_eq_succ_of_ne_zero hpos
        have haddr : p + 16 * ((k + 1 : Nat) : Int) = p + 16 + 16 * k := by omega
        rw [Nat.succ_eq_add_one, haddr] at h ⊢
        rw [hnext] at hx
        rcases ih h (by omega) reads' hx with hx | hx
        · exact (hreads' x hx).imp_right fun hin => ⟨hin.1, by omega⟩
        · exact .inr ⟨by omega, hx.2⟩

/-- With a RSDP in the area the search stays within it. -/
theorem search_reads_of_firstRsdp {a : Nat} (h : FirstRsdp m a) (ha : a + 20 ≤ biosEnd) {x : Int}
    (hx : x ∈ (search m).reads) :
    ∃ b : Nat, x = kptr (some b) ∧ searchStart ≤ b ∧ b < biosEnd := by
  have hstart : searchStart = 0xe0000 := rfl
  have hends : biosEnd = 0x100000 := rfl
  have hle := h.start_le
  obtain ⟨j, hj⟩ := h.aligned
  obtain ⟨k, rfl⟩ : ∃ k, a = searchStart + 16 * k := ⟨(a - searchStart) / 16, by omega⟩
  have haddr : kptr (some (searchStart + 16 * k)) = kptr (some searchStart) + 16 * k := by
    simp only [kptr]
    omega
  have hturn : k < (searchEnd - searchStart) / 16 := by
    rw [searchEnd]
    omega
  rcases searchFrom_reads_of_isRsdp (haddr ▸ h.isRsdp) hturn [] hx with hx | ⟨hlo, hhi⟩
  · cases hx
  · obtain ⟨i, hi⟩ := Int.le.dest hlo
    refine ⟨searchStart + i, ?_, Nat.le_add_right _ _, ?_⟩
    · rw [← hi]
      simp only [kptr]
      omega
    · omega

/-- The loop goes through all pages of the area. -/
theorem div_mem_biosPages {b : Nat} (hlo : searchStart ≤ b) (hhi : b < biosEnd) :
    b / pageSize ∈ biosPages.map (· / pageSize) := by
  have hpages : biosPages.map (· / pageSize) = List.range' 0xe0 32 := by decide
  rw [hpages, List.mem_range'_1]
  simp only [searchStart, biosEnd, pageSize] at hlo hhi ⊢
  omega

open KernelWorld

variable {img : KernelImage} {es : List MmapEntry} {nodes : Links NodeRef}
variable {slab : Nat → SlabRec} {t : BootTables} {s : Paging} {w₀ w w' w₁ : KernelWorld}
variable {pages : List Nat} {tr tr₁ : List (KernelWorld × KernelOp)}

/-- Calls for device pages, one after another, as a run. -/
theorem steps_of_mapPages {qs : List Nat} {s' : Paging} (hsub : ∀ q ∈ qs, q ∈ pages)
    (h : qs.foldlM (fun s p => s.mapPage p false true) w.paging = .ok s') :
    ∃ tr, Steps step (DeviceOp pages) w tr (w.withPaging s') ∧
      mapCalls tr = (qs.map deviceCall).reverse := by
  induction qs generalizing w with
  | nil =>
      cases h
      exact ⟨[], .start, rfl⟩
  | cons q qs ih =>
      rw [List.foldlM_cons] at h
      obtain ⟨s₁, hs, hrest⟩ := bind_ok h
      have hstep : w.step (.mapPage (deviceCall q)) = .ok (w.withPaging s₁) := by
        rw [step, deviceCall, hs]
        rfl
      obtain ⟨tr, hrun, hcalls⟩ := ih (w := w.withPaging s₁)
        (fun q' hq' => hsub q' (List.mem_cons_of_mem _ hq')) hrest
      have hop : w.DeviceOp pages (.mapPage (deviceCall q)) := ⟨q, hsub q List.mem_cons_self, rfl⟩
      refine ⟨tr ++ [(w, .mapPage (deviceCall q))], (Steps.next .start hop hstep).trans hrun, ?_⟩
      rw [mapCalls_append, List.map_cons, List.reverse_cons, ← hcalls]
      rfl

/-- A search that finds a RSDP in the area reads mapped and uncached bytes, once there was a call
for each page of the area. -/
theorem search_walks {calls : List Paging.MapCall}
    (hshown : Shows (withDevices es calls) w.paging)
    (hcalls : ∀ q ∈ biosPages, deviceCall q ∈ calls) {m : Bytes} {a : Nat}
    (hrsdp : FirstRsdp m a) (ha : a + 20 ≤ biosEnd) {x : Int} (hx : x ∈ (search m).reads) :
    ∃ b : Nat, x = kptr (some b) ∧
      Paging.walk w.mem w.cr3 (kernOffset + b) = some ⟨b, true, false⟩ ∧
      ∃ l e, w.paging.leafOf b = some (l, e) ∧ e.getLsbD 4 = true := by
  obtain ⟨b, rfl, hlo, hhi⟩ := search_reads_of_firstRsdp hrsdp ha hx
  have hb : b < 2 ^ 39 := hhi.trans (by decide)
  have hpage : withDevices es calls (b / pageSize) ⟨false, true⟩ := by
    obtain ⟨q, hq, hqb⟩ := List.mem_map.mp (div_mem_biosPages hlo hhi)
    rw [← hqb]
    exact withDevices_of_mem (hcalls q hq)
  exact ⟨b, rfl, (hshown.walk_iff b hb _).mpr ⟨_, hpage, rfl⟩, hshown.cacheDisabled b hb _ hpage⟩

/-- After the first loop of `Init`, and whatever run comes before and behind it, a search that
finds a RSDP in the BIOS area reads mapped and uncached bytes only. One that does not goes on to
the byte at 1 MiB, which is mapped exactly if the boot map, or a driver, has mapped it. -/
theorem search_reads_mapped {s' : Paging} (B : Bootable img es t s)
    (hboot : boot img es nodes slab s = .ok w₀) (hleft : w₀.PageLeft) (P : DevicePages es pages)
    (hbios : ∀ p ∈ biosPages, p ∈ pages) (hrun : Steps step (DeviceOp pages) w₀ tr w)
    (hmap : mapBios w.paging = .ok s')
    (hrun₁ : Steps step (DeviceOp pages) (w.withPaging s') tr₁ w₁) (m : Bytes) :
    (∀ a, FirstRsdp m a → a + 20 ≤ biosEnd → ∀ x ∈ (search m).reads, ∃ b : Nat,
      x = kptr (some b) ∧ Paging.walk w₁.mem w₁.cr3 (kernOffset + b) = some ⟨b, true, false⟩ ∧
        ∃ l e, w₁.paging.leafOf b = some (l, e) ∧ e.getLsbD 4 = true) ∧
    ((∀ a, FirstRsdp m a → ¬ a < biosEnd) → kptr (some biosEnd) ∈ (search m).reads ∧
      (biosEnd ∉ pages → ((Paging.walk w₁.mem w₁.cr3 (kernOffset + biosEnd)).isSome ↔
        ∃ c, MappedBy es (biosEnd / pageSize) c))) := by
  obtain ⟨tr', hsteps, hcalls⟩ := steps_of_mapPages hbios hmap
  have J := deviceInv_of_run B hboot hleft P ((hrun.trans hsteps).trans hrun₁)
  have hshown := J.devices
  have hends : biosEnd < 2 ^ 39 := by decide
  have hbefore : ∀ q ∈ biosPages, deviceCall q ∈ mapCalls (tr₁ ++ (tr' ++ tr)) := by
    intro q hq
    rw [mapCalls_append, mapCalls_append, hcalls]
    exact List.mem_append_right _ (List.mem_append_left _
      (List.mem_reverse.mpr (List.mem_map_of_mem hq)))
  refine ⟨fun a ha hlow x hx => search_walks hshown hbefore ha hlow hx,
    fun hnone => ⟨biosEnd_mem_reads hnone, fun hout => ?_⟩⟩
  · have hfar : ∀ q ∈ pages, q / pageSize ≠ biosEnd / pageSize := by
      intro q hq hy
      have hal := P.aligned q hq
      have heq : q = biosEnd := by
        simp only [pageSize, biosEnd] at hal hy ⊢
        omega
      exact hout (heq ▸ hq)
    have hwalk : ∀ t, Paging.walk w₁.mem w₁.cr3 (kernOffset + biosEnd) = some t ↔
        ∃ c, withDevices es (mapCalls (tr₁ ++ (tr' ++ tr))) (biosEnd / pageSize) c ∧
          t = ⟨biosEnd, true, c.wt⟩ := hshown.walk_iff biosEnd hends
    rw [Option.isSome_iff_exists]
    simp only [hwalk, withDevices_iff_of_far J.calls hfar]
    constructor
    · rintro ⟨-, c, hc, -⟩
      exact ⟨c, hc⟩
    · rintro ⟨c, hc⟩
      exact ⟨_, c, hc, rfl⟩

theorem search_reads_mapped_small :
    ∃ w₀ s', smallBoot = .ok w₀ ∧ mapBios w₀.paging = .ok s' ∧
      ∀ x ∈ (search (memoryWithRsdp searchStart)).reads, ∃ b : Nat, x = kptr (some b) ∧
        Paging.walk s'.mem s'.cr3 (kernOffset + b) = some ⟨b, true, false⟩ := by
  obtain ⟨w₀, hboot, hleft, hrun⟩ := smallBoot_then
    (p := fun w₀ => okAnd (mapBios w₀.paging) fun _ => true) (by decide +kernel)
  obtain ⟨s', hmap, -⟩ := exists_of_okAnd hrun
  have hfirst : FirstRsdp (memoryWithRsdp searchStart) searchStart :=
    ⟨le_rfl, by decide, isRsdp_low, fun a' hle _ hlt => absurd hlt (Nat.not_lt.mpr hle)⟩
  have hreads := (search_reads_mapped smallBoot_bootable hboot hleft
    (devicePages_small (by decide) (by decide)) (fun _ hp => hp) .start hmap .start _).1 searchStart
    hfirst (by decide)
  exact ⟨w₀, s', hboot, hmap, fun x hx => (hreads x hx).imp fun b hb => ⟨hb.1, hb.2.1⟩⟩

/-! ### `Init` as a whole -/

/-- A read that the page tables do not map. -/
def Missed (s : Paging) (e : Fault × Parse) : Prop :=
  e.1 = .pageFault ∧ ∃ x ∈ e.2.reads, ¬ s.Readable x.addr

/-- What the page tables make of a parse: its own result, or a read that they do not map. -/
theorem throughTables_meets {Q : Parse → Prop} {E : Fault × Parse → Prop}
    {r : Except (Fault × Parse) Parse} (h : Meets r Q E) (s : Paging) :
    Meets (throughTables s r)
      (fun o => o.2 = s ∧ (∀ x ∈ o.1.reads, s.Readable x.addr) ∧ Q o.1)
      fun e => Missed s e ∨ E e := by
  cases r with
  | ok ps =>
      rw [throughTables]
      split
      next hall => exact meets_ok.mpr ⟨rfl, hall, meets_ok.mp h⟩
      next hmiss => exact meets_error.mpr (.inl ⟨rfl, by simpa using hmiss⟩)
  | error e =>
      obtain ⟨e, ps⟩ := e
      rw [throughTables]
      split
      next hall => exact meets_error.mpr (.inr (meets_error.mp h))
      next hmiss => exact meets_error.mpr (.inl ⟨rfl, by simpa using hmiss⟩)

theorem fuelMono_init (m : Bytes) (s : Paging) (ps : Parse) :
    FuelMono fun fuel => init m fuel s ps := by
  unfold init
  refine fuelMono_andThen (fuelMono_const _) fun s' => ?_
  split
  · intro n k r hnk hr
    obtain ⟨r', hr', rfl⟩ := Option.map_eq_some_iff.mp hr
    exact Option.map_eq_some_iff.mpr ⟨r', fuelMono_initTables m _ n k r' hnk hr', rfl⟩
  · exact fuelMono_const _

/-- Before the first heap call the caches are those of `InitSlab`, whatever pages the tables
took. -/
theorem boot_heap (hboot : boot img es nodes slab s = .ok w₀) (mp : MemPages) :
    { w₀.heap.heap with pages := mp } = (HeapWorld.initial mp nodes slab).heap := by
  obtain ⟨_, -, hboot⟩ := bind_ok hboot
  obtain ⟨_, -, hret⟩ := bind_ok hboot
  cases hret
  rfl

/-- `Init` as `KernelMain` calls it, right behind the boot, on memory whose first RSDP lies in
the BIOS area and leads to these tables. It returns with the processors and the IO APICs of all
the records, in order, in the two vectors; unless a call of its first loop fails, a table is not
mapped where it is read, a request for memory fails, or there is no IO APIC, on which it
panics. -/
theorem init_collects (B : Bootable img es t s) (hboot : boot img es nodes slab s = .ok w₀)
    (hleft : w₀.PageLeft) (P : DevicePages es biosPages) (bus : Bus) {m : Bytes} {a : Nat}
    (hrsdp : FirstRsdp m a) (ha : a + 20 ≤ biosEnd) (hptr : rsdtPointer m (kptr (some a)) ≠ 0)
    {tables : List (BitVec 32 × List MadtRecord)}
    (T : RsdtAt m (kptr (some (rsdtPointer m (kptr (some a))))) tables) :
    ∃ k, ∀ fuel, k ≤ fuel → ∃ r,
      init m fuel w₀.paging ⟨{ store := ⟨w₀.heap.heap, bus⟩ }, []⟩ = some r ∧
      Meets r
        (fun o => mapBios w₀.paging = .ok o.2 ∧ (∀ x ∈ o.1.reads, o.2.Readable x.addr) ∧
          ioApicsOf (recordsOf tables) ≠ [] ∧
          Represents o.2.pages nodes slab o.1.acpi (cpusOf (recordsOf tables))
            (ioApicsOf (recordsOf tables)) (cpusOf (recordsOf tables)).length)
        fun e => mapBios w₀.paging = .error e.1 ∨
          (∃ s', mapBios w₀.paging = .ok s' ∧ Missed s' e) ∨ Stopped e ∨
          ioApicsOf (recordsOf tables) = [] ∧ NoIoApic e := by
  have hpages : { w₀.paging with pages := w₀.heap.heap.pages } = w₀.paging := rfl
  cases hmap : mapBios w₀.paging with
  | error e =>
      refine ⟨0, fun fuel _ => ⟨.error (e, ⟨{ store := ⟨w₀.heap.heap, bus⟩ }, []⟩), ?_,
        meets_error.mpr (.inl rfl)⟩⟩
      simp only [init, hpages, hmap]
      rfl
  | ok s' =>
      obtain ⟨tr', hsteps, hcalls⟩ := steps_of_mapPages (fun _ hp => hp) hmap
      have J := deviceInv_of_run B hboot hleft P hsteps
      obtain ⟨G, T', I⟩ := J.kernel
      have hreads : ∀ x ∈ (search m).reads, s'.Readable x := by
        intro x hx
        obtain ⟨b, rfl, hwalk, -⟩ := search_walks J.devices
          (fun q hq => hcalls ▸ List.mem_reverse.mpr (List.mem_map_of_mem hq)) hrsdp ha hx
        have hnat : (kptr (some b)).toNat = kernOffset + b := by
          simp only [kptr]
          omega
        rw [Paging.Readable, hnat]
        exact Option.isSome_of_eq_some hwalk
      have hlt : a < searchEnd := by
        simp only [biosEnd, searchEnd] at ha ⊢
        omega
      have hret := returns_initTables I.heap.pages.list
        ⟨{ store := ⟨{ w₀.heap.heap with pages := s'.pages }, bus⟩ }, []⟩
        (by rw [boot_heap hboot]; exact represents_empty .start bus) hrsdp hlt hptr T
      obtain ⟨k, hk⟩ := hret.eventually (fuelMono_initTables m _)
      refine ⟨k, fun fuel hfuel => ?_⟩
      obtain ⟨r, hr, hmeets⟩ := hk fuel hfuel
      refine ⟨throughTables s' r, ?_, ?_⟩
      · simp only [init, hpages, hmap, stopAt, andThen_ok, if_pos hreads, hr]
        rfl
      · refine (throughTables_meets hmeets s').imp ?_ ?_
        · rintro ⟨ps, s''⟩ ⟨rfl, hall, hxs, R⟩
          exact ⟨rfl, hall, hxs, R⟩
        · rintro e (hmiss | hstop | hnone)
          · exact .inr (.inl ⟨s', rfl, hmiss⟩)
          · exact .inr (.inr (.inl hstop))
          · exact .inr (.inr (.inr hnone))

/-- A RSDP at the start of the BIOS area, behind it its RSDT, a table of another kind and the
MADT of `sampleRecords`. -/
def sampleFirmware : List (BitVec 8) :=
  [0x52#8, 0x53#8, 0x44#8, 0x20#8, 0x50#8, 0x54#8, 0x52#8, 0x20#8, 0xbf#8] ++
    (List.replicate 7 0#8 ++ (Bytes.le32 0xe0014 ++
    (Bytes.le32 0x54445352 ++ (Bytes.le32 44 ++ (List.replicate 28 0#8 ++
      ((Bytes.le32 0xe0040 ++ Bytes.le32 0xe0048) ++
    (Bytes.le32 0x50434146 ++ (Bytes.le32 8 ++
    (Bytes.le32 apicSignature ++ (Bytes.le32 74 ++ (List.replicate 28 0#8 ++
      (Bytes.le32 0xfee00000 ++ (Bytes.le32 1 ++
        sampleRecords.flatMap MadtRecord.bytes)))))))))))))

def sampleMemory : Bytes := .ofList (kptr (some searchStart)) sampleFirmware

def sampleTables : List (BitVec 32 × List MadtRecord) :=
  [(0xe0040#32, []), (0xe0048#32, sampleRecords)]

theorem rsdtAt_sampleMemory : RsdtAt sampleMemory (kptr (some 0xe0014)) sampleTables := by
  have hheld := Bytes.holds_ofList (kptr (some searchStart)) sampleFirmware
  simp only [sampleFirmware, Bytes.holds_append] at hheld
  obtain ⟨-, -, -, -, -, -, hptrs, -, -, -, -, -, -, -, hrecs⟩ := hheld
  refine ⟨by decide, Bytes.holds_append.mpr hptrs, ?_⟩
  refine List.forall_mem_cons.mpr ⟨.other (by decide), List.forall_mem_singleton.mpr ?_⟩
  exact .madt (by decide) ⟨by decide, by decide, hrecs⟩

theorem init_collects_sample :
    ∃ w₀ fuel ps s', smallBoot = .ok w₀ ∧
      init sampleMemory fuel w₀.paging
        ⟨{ store := ⟨w₀.heap.heap, ⟨fun _ => 0#8, []⟩⟩ }, []⟩ = some (.ok (ps, s')) ∧
      Represents s'.pages ⟨fun x => x, fun x => x⟩ (fun _ => {}) ps.acpi
        [⟨1, 2, true⟩] [⟨3#32, kernOffset + 0xfec00000, 0#32⟩] 1 := by
  obtain ⟨w₀, hboot, hleft, hrun⟩ := smallBoot_then
    (p := fun w₀ => (init sampleMemory 6 w₀.paging
      ⟨{ store := ⟨w₀.heap.heap, ⟨fun _ => 0#8, []⟩⟩ }, []⟩).any Except.isOk) (by decide +kernel)
  have hrsdp : FirstRsdp sampleMemory searchStart :=
    ⟨le_rfl, by decide, ⟨by decide, by decide, by decide⟩,
      fun a' hle _ hlt => absurd hlt (Nat.not_lt.mpr hle)⟩
  have hptr : rsdtPointer sampleMemory (kptr (some searchStart)) = 0xe0014 := by decide
  have hspec := init_collects smallBoot_bootable hboot hleft
    (devicePages_small (by decide) (by decide)) ⟨fun _ => 0#8, []⟩ hrsdp (by decide)
    (by rw [hptr]; decide) (by rw [hptr]; exact rsdtAt_sampleMemory)
  obtain ⟨⟨ps, s'⟩, hps, hcoll⟩ := exists_ok_of_eventually hspec (fuelMono_init _ _ _) hrun
  exact ⟨w₀, 6, ps, s', hboot, hps, hcoll.2.2.2⟩

end Acpi

end Chestnut
