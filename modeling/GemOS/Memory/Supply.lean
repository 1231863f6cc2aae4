import GemOS.Memory.Grant

/-!
# Supply of frames over sequences of calls

A client of one region calls `os_pfn_alloc` and frees frames it holds. The bookkeeping invariant
`Tracks` says that the marked bits are the bitmap pages and the held frames, and that `free_pages`
counts the rest. It survives every free, and every allocation made while the scan can reach a frame
that is not held (`Servable`); in a state where it cannot, the allocator hands out frame 32 of the
region although that frame is held.
-/

namespace GemOS

open Foundation Memory

inductive RegionCall where
  | alloc
  | free (pfn : ℕ)

/-- Memory together with the frames of the region that were handed out and not freed since. -/
structure Holding where
  mem : Memory
  held : Finset ℕ

namespace Holding

variable {region : Region}

def call (region : Region) (s : Holding) : RegionCall → Holding
  | .alloc =>
    { mem := (osPfnAlloc region s.mem).2
      held := if (osPfnAlloc region s.mem).1 = 0 then s.held
        else insert (osPfnAlloc region s.mem).1 s.held }
  | .free pfn => { mem := osPfnFree region pfn s.mem, held := s.held.erase pfn }

def calls (region : Region) (s : Holding) (cs : List RegionCall) : Holding :=
  cs.foldl (call region) s

/-- The state set up by `init_pagelists`, with nothing handed out. -/
def boot (phys : PhysMem) (apicBase : ApicBase) : Holding where
  mem := Memory.init phys apicBase
  held := ∅

/-- Every freed frame is one currently held. -/
inductive Admissible (region : Region) : Holding → List RegionCall → Prop
  | nil (s : Holding) : Admissible region s []
  | alloc {s : Holding} {cs : List RegionCall} (tail : Admissible region (s.call region .alloc) cs) :
      Admissible region s (.alloc :: cs)
  | free {s : Holding} {pfn : ℕ} {cs : List RegionCall} (held : pfn ∈ s.held)
      (tail : Admissible region (s.call region (.free pfn)) cs) : Admissible region s (.free pfn :: cs)

/-- The next `os_pfn_alloc` is right: while some frame of the region is not held it returns such a
frame, and it returns 0 only when every frame is held. -/
def Right (region : Region) (s : Holding) : Prop :=
  ((∃ pfn, region.Usable pfn ∧ pfn ∉ s.held) →
    region.Usable (osPfnAlloc region s.mem).1 ∧ (osPfnAlloc region s.mem).1 ∉ s.held ∧
      (osPfnAlloc region s.mem).1 ≠ 0) ∧
  ((osPfnAlloc region s.mem).1 = 0 → ∀ pfn, region.Usable pfn → pfn ∈ s.held)

/-- Every frame is held, or some frame not held is among the first 33 of the region or between the
word cursor and the scan bound `size >> 8`. -/
def Servable (region : Region) (s : Holding) : Prop :=
  (∀ pfn, region.Usable pfn → pfn ∈ s.held) ∨
    ∃ i, region.Usable (region.base + i) ∧ region.base + i ∉ s.held ∧
      (i ≤ 32 ∨ 32 * (s.mem.pglists region).lastFreePos ≤ i ∧ i < 32 * (region.frames / 256))

structure Tracks (region : Region) (s : Holding) : Prop where
  regions_ok : s.mem.RegionsOk
  usable : ∀ pfn ∈ s.held, region.Usable pfn
  marked_iff : ∀ i < region.frames, (s.mem.pglists region).bitmap.test i = true ↔
    i < region.reserved ∨ region.base + i ∈ s.held
  count : (s.mem.pglists region).freePages + s.held.card + region.reserved = region.frames

theorem freePages_initPagelists (region : Region) :
    (initPagelists region).freePages + region.reserved = region.frames := by
  cases region <;> decide

theorem tracks_boot (phys : PhysMem) (apicBase : ApicBase) : (boot phys apicBase).Tracks region where
  regions_ok := regionsOk_init phys apicBase
  usable pfn h := absurd h (Finset.notMem_empty pfn)
  marked_iff i _ := by
    cases region <;>
      · simp only [boot, Memory.init, initPagelists, PageList.initPagelist, PageList.test_reserve,
          decide_eq_true_eq, Finset.notMem_empty, or_false]
        exact Iff.rfl
  count := by
    simpa only [boot, Memory.init, Finset.card_empty, add_zero] using freePages_initPagelists region

/-- The frames a client can hold. -/
def usableFrames (region : Region) : Finset ℕ :=
  Finset.Ico (region.base + region.reserved) (region.base + region.frames)

theorem mem_usableFrames {pfn : ℕ} : pfn ∈ usableFrames region ↔ region.Usable pfn :=
  Finset.mem_Ico

theorem Tracks.subset {s : Holding} (h : s.Tracks region) : s.held ⊆ usableFrames region :=
  fun pfn hpfn ↦ mem_usableFrames.2 (h.usable pfn hpfn)

theorem card_usableFrames (region : Region) :
    (usableFrames region).card + region.reserved = region.frames := by
  rw [usableFrames, Nat.card_Ico]
  cases region <;> decide

theorem Tracks.freePages_eq_zero_iff {s : Holding} (h : s.Tracks region) :
    (s.mem.pglists region).freePages = 0 ↔ ∀ pfn, region.Usable pfn → pfn ∈ s.held := by
  have hcard := card_usableFrames region
  have hcount := h.count
  constructor
  · intro hzero pfn hpfn
    have heq := Finset.eq_of_subset_of_card_le h.subset (by omega)
    rw [heq]
    exact mem_usableFrames.2 hpfn
  · intro hall
    have hle := Finset.card_le_card (fun pfn hpfn ↦ hall pfn (mem_usableFrames.1 hpfn))
    omega

/-- A bit is clear exactly when its frame is usable and not held. -/
theorem Tracks.clear_iff {s : Holding} (h : s.Tracks region) {i : ℕ} (hi : i < region.frames) :
    (s.mem.pglists region).bitmap.test i = false ↔
      region.Usable (region.base + i) ∧ region.base + i ∉ s.held := by
  rw [← Bool.not_eq_true, h.marked_iff i hi, not_or, Nat.not_lt]
  refine and_congr_left fun _ ↦ ?_
  unfold Region.Usable
  omega

theorem Tracks.reachable_iff {s : Holding} (h : s.Tracks region) :
    (∃ i, (s.mem.pglists region).bitmap.test i = false ∧
        PageList.Reachable region (s.mem.pglists region) i) ↔
      ∃ i, region.Usable (region.base + i) ∧ region.base + i ∉ s.held ∧
        (i ≤ 32 ∨ 32 * (s.mem.pglists region).lastFreePos ≤ i ∧ i < 32 * (region.frames / 256)) := by
  have hwords := region.words_le
  have htwo := region.two_le_words
  refine exists_congr fun i ↦ ?_
  constructor
  · rintro ⟨hclear, hreach⟩
    have hi : i < region.frames := by rcases hreach with ⟨_, hlt⟩ | hle <;> omega
    obtain ⟨husable, hfree⟩ := (h.clear_iff hi).1 hclear
    exact ⟨husable, hfree, hreach.symm⟩
  · rintro ⟨husable, hfree, hreach⟩
    have hi : i < region.frames := by have := husable.2; omega
    exact ⟨(h.clear_iff hi).2 ⟨husable, hfree⟩, hreach.symm⟩

theorem Tracks.alloc_of_pos {s : Holding} (h : s.Tracks region)
    (hpos : (s.mem.pglists region).freePages ≠ 0) :
    (osPfnAlloc region s.mem).1 = region.base + (s.mem.pglists region).scanIndex := by
  rw [osPfnAlloc_of_pos hpos]
  exact PageList.getFreePage_fst (h.regions_ok region).shape

/-- With a free page left, the call is right exactly when the chosen bit is clear. -/
theorem Tracks.fresh_iff {s : Holding} (h : s.Tracks region)
    (hpos : (s.mem.pglists region).freePages ≠ 0) :
    region.Usable (osPfnAlloc region s.mem).1 ∧ (osPfnAlloc region s.mem).1 ∉ s.held ↔
      (s.mem.pglists region).bitmap.test (s.mem.pglists region).scanIndex = false := by
  rw [h.alloc_of_pos hpos, h.clear_iff (PageList.scanIndex_lt (h.regions_ok region).shape)]

/-- In a tracked state the next call is right exactly when it is servable. -/
theorem Tracks.right_iff_servable {s : Holding} (h : s.Tracks region) :
    s.Right region ↔ s.Servable region := by
  by_cases hall : ∀ pfn, region.Usable pfn → pfn ∈ s.held
  · refine iff_of_true ⟨?_, fun _ ↦ hall⟩ (Or.inl hall)
    rintro ⟨pfn, husable, hfree⟩
    exact absurd (hall pfn husable) hfree
  · have hpos : (s.mem.pglists region).freePages ≠ 0 := mt h.freePages_eq_zero_iff.1 hall
    have hsome : ∃ pfn, region.Usable pfn ∧ pfn ∉ s.held := by simpa using hall
    have hservable : s.Servable region ↔
        (s.mem.pglists region).bitmap.test (s.mem.pglists region).scanIndex = false := by
      rw [PageList.scanIndex_clear_iff (h.regions_ok region).shape, h.reachable_iff, Servable]
      exact or_iff_right hall
    rw [hservable, ← h.fresh_iff hpos]
    constructor
    · intro hright
      exact ⟨(hright.1 hsome).1, (hright.1 hsome).2.1⟩
    · rintro ⟨husable, hfree⟩
      exact ⟨fun _ ↦ ⟨husable, hfree, husable.ne_zero⟩, fun hzero ↦ absurd hzero husable.ne_zero⟩

theorem Tracks.call_alloc {s : Holding} (h : s.Tracks region) (hservable : s.Servable region) :
    (s.call region .alloc).Tracks region := by
  by_cases hall : ∀ pfn, region.Usable pfn → pfn ∈ s.held
  · have hzero := h.freePages_eq_zero_iff.2 hall
    simp only [call, osPfnAlloc_of_zero hzero]
    exact ⟨h.regions_ok, h.usable, h.marked_iff, h.count⟩
  · have hpos : (s.mem.pglists region).freePages ≠ 0 := mt h.freePages_eq_zero_iff.1 hall
    have hright := h.right_iff_servable.2 hservable
    obtain ⟨husable, hfree, hne⟩ := hright.1 (by simpa using hall)
    have hindex := h.alloc_of_pos hpos
    have hregions := regionsOk_osPfnAlloc region h.regions_ok
    have hlist : ((osPfnAlloc region s.mem).2.pglists region) =
        (s.mem.pglists region).getFreePage.2 := by
      rw [osPfnAlloc_of_pos hpos]
      exact Function.update_self ..
    simp only [call, if_neg hne]
    refine ⟨hregions, ?_, ?_, ?_⟩
    · intro pfn hpfn
      rcases Finset.mem_insert.1 hpfn with rfl | hold
      · exact husable
      · exact h.usable pfn hold
    · intro i hi
      rw [hlist]
      simp only [PageList.getFreePage, PageList.test_bmapSet, Bool.or_eq_true, decide_eq_true_eq,
        Finset.mem_insert, h.marked_iff i hi, hindex, Nat.add_left_cancel_iff]
      tauto
    · have hcount := h.count
      rw [hlist, Finset.card_insert_of_notMem hfree]
      simp only [PageList.getFreePage]
      omega

theorem Tracks.call_free {s : Holding} (h : s.Tracks region) {pfn : ℕ} (hpfn : pfn ∈ s.held) :
    (s.call region (.free pfn)).Tracks region := by
  have husable := h.usable pfn hpfn
  have hlow := husable.1
  have hhigh := husable.2
  have hreserved := region.reserved_pos
  have hframes := region.frames_lt
  have hlist : ((osPfnFree region pfn s.mem).pglists region) =
      { s.mem.pglists region with
        bitmap := PageList.bmapClear (s.mem.pglists region).bitmap (pfn - region.base)
        freePages := ((s.mem.pglists region).freePages + 1) % 2 ^ 32 } := by
    simp only [osPfnFree, Function.update_self]
    rw [osPfnFree_address, Nat.mod_eq_of_lt (husable.contains.lt.trans (by norm_num)),
      PageList.osPageFree_frame (h.regions_ok region).shape, if_neg (by omega)]
  refine ⟨regionsOk_osPfnFree h.regions_ok (Or.inr husable), ?_, ?_, ?_⟩
  · exact fun other hother ↦ h.usable other (Finset.mem_of_mem_erase hother)
  · intro i hi
    have hsame : i = pfn - region.base ↔ region.base + i = pfn := by omega
    have hkept : i < region.reserved → region.base + i ≠ pfn := by omega
    simp only [call]
    rw [hlist]
    simp only [PageList.test_bmapClear, Bool.and_eq_true, Bool.not_eq_true', decide_eq_false_iff_not,
      Finset.mem_erase, h.marked_iff i hi, hsame]
    tauto
  · have hcount := h.count
    have hcard := Finset.card_erase_add_one hpfn
    simp only [call]
    rw [hlist]
    simp only
    rw [Nat.mod_eq_of_lt (by omega)]
    omega

@[simp]
theorem calls_nil (region : Region) (s : Holding) : s.calls region [] = s := rfl

@[simp]
theorem calls_cons (region : Region) (s : Holding) (c : RegionCall) (cs : List RegionCall) :
    s.calls region (c :: cs) = (s.call region c).calls region cs := rfl

theorem forall_prefix_cons {α : Type} {P : List α → Prop} (a : α) (l : List α) :
    (∀ p, p <+: a :: l → P p) ↔ P [] ∧ ∀ p, p <+: l → P (a :: p) := by
  constructor
  · intro h
    exact ⟨h [] List.nil_prefix, fun p hp ↦ h (a :: p) ((List.prefix_cons_inj a).2 hp)⟩
  · rintro ⟨hnil, hcons⟩ p hp
    cases p with
    | nil => exact hnil
    | cons b p =>
      obtain ⟨rfl, htail⟩ := List.cons_prefix_cons.1 hp
      exact hcons p htail

/-- Along an admissible sequence from a tracked state, all calls are right exactly when all are
servable: the first state that is not servable is still tracked. -/
theorem Tracks.right_iff_servable_prefixes {s : Holding} (h : s.Tracks region)
    (cs : List RegionCall) (hadm : Admissible region s cs) :
    (∀ p, p <+: cs → (s.calls region p).Right region) ↔
      ∀ p, p <+: cs → (s.calls region p).Servable region := by
  induction hadm with
  | nil s => simpa using h.right_iff_servable
  | alloc _ ih =>
    rw [forall_prefix_cons, forall_prefix_cons, calls_nil, h.right_iff_servable]
    exact and_congr_right fun hservable ↦ ih (h.call_alloc hservable)
  | free hheld _ ih =>
    rw [forall_prefix_cons, forall_prefix_cons, calls_nil, h.right_iff_servable]
    exact and_congr_right fun _ ↦ ih (h.call_free hheld)

/-- In a region that has only been allocated from, frames come out in increasing order. -/
structure InOrder (region : Region) (n : ℕ) (s : Holding) : Prop where
  tracks : s.Tracks region
  held_eq : s.held =
    Finset.Ico (region.base + region.reserved) (region.base + region.reserved + n)
  cursor_le : 32 * (s.mem.pglists region).lastFreePos ≤ region.reserved + n

theorem InOrder.clear {s : Holding} {n i : ℕ} (h : s.InOrder region n)
    (hlow : region.reserved + n ≤ i) (hi : i < region.frames) :
    (s.mem.pglists region).bitmap.test i = false := by
  rw [h.tracks.clear_iff hi, h.held_eq, Finset.mem_Ico]
  exact ⟨⟨by omega, by omega⟩, by omega⟩

theorem InOrder.scanIndex_eq {s : Holding} {n : ℕ} (h : s.InOrder region n)
    (hn : region.reserved + n < 32 * (region.frames / 256)) :
    (s.mem.pglists region).scanIndex = region.reserved + n := by
  have hwords := region.words_le
  refine (PageList.scanIndex_eq_of_filled (h.tracks.regions_ok region).shape hn h.cursor_le (fun i hi ↦ ?_)
    (h.clear le_rfl (by omega))).1
  rw [h.tracks.marked_iff i (by omega), h.held_eq, Finset.mem_Ico]
  omega

theorem InOrder.call_alloc {s : Holding} {n : ℕ} (h : s.InOrder region n)
    (hn : region.reserved + n < 32 * (region.frames / 256)) :
    (s.call region .alloc).InOrder region (n + 1) := by
  have hwords := region.words_le
  have hindex := h.scanIndex_eq hn
  have hclear := h.clear le_rfl (show region.reserved + n < region.frames by omega)
  rw [h.tracks.clear_iff (by omega)] at hclear
  have hpos : (s.mem.pglists region).freePages ≠ 0 :=
    mt h.tracks.freePages_eq_zero_iff.1 fun hall ↦ hclear.2 (hall _ hclear.1)
  have halloc := h.tracks.alloc_of_pos hpos
  rw [hindex] at halloc
  have hne : (osPfnAlloc region s.mem).1 ≠ 0 := by
    rw [halloc]
    exact hclear.1.ne_zero
  have hservable : s.Servable region :=
    Or.inr ⟨_, hclear.1, hclear.2, Or.inr ⟨h.cursor_le, hn⟩⟩
  refine ⟨h.tracks.call_alloc hservable, ?_, ?_⟩
  · change (if (osPfnAlloc region s.mem).1 = 0 then s.held
      else insert (osPfnAlloc region s.mem).1 s.held) = _
    rw [if_neg hne, halloc, h.held_eq]
    ext pfn
    simp only [Finset.mem_insert, Finset.mem_Ico]
    omega
  · simp only [call, osPfnAlloc_of_pos hpos, Function.update_self, PageList.getFreePage]
    rw [PageList.scanIndex_eq] at hindex
    omega

theorem inOrder_replicate (region : Region) (phys : PhysMem) (apicBase : ApicBase) (n : ℕ)
    (hn : region.reserved + n ≤ 32 * (region.frames / 256)) :
    ((boot phys apicBase).calls region (List.replicate n .alloc)).InOrder region n := by
  induction n with
  | zero =>
    have hcursor : (initPagelists region).lastFreePos = 0 := by cases region <;> decide
    refine ⟨tracks_boot phys apicBase, by simp [calls, boot], ?_⟩
    simp [calls, boot, Memory.init, hcursor]
  | succ n ih =>
    have hstep := (ih (by omega)).call_alloc (by omega)
    rw [List.replicate_succ']
    simpa only [calls, List.foldl_append, List.foldl_cons, List.foldl_nil] using hstep

/-- Once the frames below the scan bound are handed out, the call is not right. -/
theorem InOrder.not_right {s : Holding} {n : ℕ} (h : s.InOrder region n)
    (hn : region.reserved + n = 32 * (region.frames / 256)) : ¬ s.Right region := by
  have hwords := region.words_le
  have htwo := region.two_le_words
  rw [h.tracks.right_iff_servable, Servable, h.held_eq]
  simp only [Region.Usable, Finset.mem_Ico]
  rintro (hall | ⟨i, husable, hfree, hreach⟩)
  · have hlast := hall (region.base + region.reserved + n) ⟨by omega, by omega⟩
    omega
  · omega

theorem admissible_replicate (region : Region) (s : Holding) (n : ℕ) :
    Admissible region s (List.replicate n .alloc) := by
  induction n generalizing s with
  | zero => exact .nil s
  | succ n ih => exact .alloc (ih _)

/-- For each region and every admissible sequence of calls after boot, every `os_pfn_alloc` is right
exactly when a frame not held is always within the scan's reach. -/
theorem alloc_right_iff_servable (region : Region) (phys : PhysMem) (apicBase : ApicBase)
    (cs : List RegionCall) (hadm : Admissible region (boot phys apicBase) cs) :
    (∀ p, p <+: cs → ((boot phys apicBase).calls region p).Right region) ↔
      ∀ p, p <+: cs → ((boot phys apicBase).calls region p).Servable region :=
  (tracks_boot phys apicBase).right_iff_servable_prefixes cs hadm

theorem alloc_right_iff_servable_alloc_free :
    (∀ p, p <+: [RegionCall.alloc, .free 0x801] →
        ((boot (fun _ _ ↦ 0) .reset).calls .osDs p).Right .osDs) ↔
      ∀ p, p <+: [RegionCall.alloc, .free 0x801] →
        ((boot (fun _ _ ↦ 0) .reset).calls .osDs p).Servable .osDs :=
  alloc_right_iff_servable .osDs _ _ _ (.alloc (.free (by decide +kernel) (.nil _)))

/-- After 767 allocations in the OS_DS region the scan has reached its bound, word 0 is full, and the
next call hands out a frame that is held although 5376 frames are free. -/
theorem alloc_not_right_after_767 :
    Admissible .osDs (boot (fun _ _ ↦ 0) .reset) (List.replicate 767 .alloc) ∧
      ¬ ((boot (fun _ _ ↦ 0) .reset).calls .osDs (List.replicate 767 .alloc)).Right .osDs := by
  have horder := inOrder_replicate .osDs (fun _ _ ↦ 0) .reset 767 (by decide)
  exact ⟨admissible_replicate _ _ _, horder.not_right (by decide)⟩

end Holding

end GemOS
