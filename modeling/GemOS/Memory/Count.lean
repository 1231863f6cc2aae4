import GemOS.Foundation.Runs
import GemOS.Memory.Supply

/-!
# The page counter and the bitmap

`free_pages` and the bitmap of a region are updated side by side. They agree over a sequence of calls with
arbitrary frame numbers exactly when each allocation finds a clear bit and each free is of a frame that is
marked, or is refused for its address: `os_page_free` counts a page whose bit is clear already, as in the two
frees of the last process's kernel stack, and an allocation whose scan ends at a full word counts one less.
-/

namespace GemOS

open Foundation

namespace PageList

/-- The clear bits among the first `size` bits. -/
def clearBits (pgl : PageList) : Finset ℕ := (Finset.range pgl.size).filter fun i ↦ pgl.bitmap.test i = false

/-- `free_pages` is the number of clear bits. -/
def Counts (pgl : PageList) : Prop := pgl.freePages = pgl.clearBits.card

instance (pgl : PageList) : Decidable pgl.Counts := by
  unfold Counts
  infer_instance

variable {region : Region} {pgl : PageList}

theorem mem_clearBits {i : ℕ} : i ∈ pgl.clearBits ↔ i < pgl.size ∧ pgl.bitmap.test i = false := by
  rw [clearBits, Finset.mem_filter, Finset.mem_range]

theorem card_clearBits_le (h : RegionShape region pgl) : pgl.clearBits.card ≤ region.frames := by
  calc
    pgl.clearBits.card ≤ (Finset.range pgl.size).card := Finset.card_filter_le _ _
    _ = region.frames := by rw [Finset.card_range, h.size_eq]

theorem clearBits_getFreePage (pgl : PageList) : pgl.getFreePage.2.clearBits = pgl.clearBits.erase pgl.scanIndex := by
  ext i
  rw [Finset.mem_erase, mem_clearBits, mem_clearBits]
  simp only [getFreePage, test_bmapSet, Bool.or_eq_false_iff, decide_eq_false_iff_not]
  tauto

/-- Taking a page keeps the count exactly when its bit was clear. -/
theorem counts_getFreePage_iff (h : RegionShape region pgl) (hcounts : pgl.Counts) (hpos : pgl.freePages ≠ 0) :
    pgl.getFreePage.2.Counts ↔ pgl.bitmap.test pgl.scanIndex = false := by
  have hfree : pgl.getFreePage.2.freePages = pgl.freePages - 1 := rfl
  unfold Counts at *
  rw [clearBits_getFreePage, hfree]
  by_cases hclear : pgl.bitmap.test pgl.scanIndex = false
  · have hmem : pgl.scanIndex ∈ pgl.clearBits := mem_clearBits.2 ⟨h.size_eq ▸ scanIndex_lt h, hclear⟩
    exact iff_of_true (by rw [Finset.card_erase_of_mem hmem, hcounts]) hclear
  · have hmem : pgl.scanIndex ∉ pgl.clearBits := fun hmem ↦ hclear (mem_clearBits.1 hmem).2
    exact iff_of_false (by rw [Finset.erase_eq_of_notMem hmem]; omega) hclear

theorem clearBits_clear (pgl : PageList) {i freePages : ℕ} (hi : i < pgl.size) :
    ({ pgl with bitmap := bmapClear pgl.bitmap i, freePages := freePages } : PageList).clearBits =
      insert i pgl.clearBits := by
  ext j
  rw [Finset.mem_insert, mem_clearBits, mem_clearBits]
  simp only [test_bmapClear, Bool.and_eq_false_iff, Bool.not_eq_false', decide_eq_true_eq]
  constructor
  · tauto
  · rintro (rfl | ⟨hj, hclear⟩)
    · exact ⟨hi, Or.inr rfl⟩
    · exact ⟨hj, Or.inl hclear⟩

/-- Giving a page back keeps the count exactly when its bit was set. -/
theorem counts_clear_iff (h : RegionShape region pgl) (hcounts : pgl.Counts) {i : ℕ} (hi : i < region.frames) :
    ({ pgl with bitmap := bmapClear pgl.bitmap i, freePages := (pgl.freePages + 1) % 2 ^ 32 } : PageList).Counts ↔
      pgl.bitmap.test i = true := by
  have hle := card_clearBits_le h
  have hframes := region.frames_lt
  have hsize : i < pgl.size := h.size_eq ▸ hi
  unfold Counts at *
  rw [clearBits_clear pgl hsize]
  simp only
  rw [Nat.mod_eq_of_lt (by omega)]
  by_cases hset : pgl.bitmap.test i = true
  · have hmem : i ∉ pgl.clearBits := fun hmem ↦ by
      rw [(mem_clearBits.1 hmem).2] at hset
      exact Bool.noConfusion hset
    exact iff_of_true (by rw [Finset.card_insert_of_notMem hmem, hcounts]) hset
  · have hmem : i ∈ pgl.clearBits := mem_clearBits.2 ⟨hsize, Bool.not_eq_true _ ▸ hset⟩
    exact iff_of_false (by rw [Finset.insert_eq_of_mem hmem]; omega) hset

theorem regionShape_osPageFree (h : RegionShape region pgl) (paddress : ℕ) :
    RegionShape region (pgl.osPageFree paddress) := by
  unfold osPageFree
  split
  · exact h
  · exact ⟨h.size_eq, h.start_eq, h.cursor_lt⟩

theorem counts_initPagelists (region : Region) : (initPagelists region).Counts := by
  have hshape := (regionOk_initPagelists region).shape
  have hfree := Holding.freePages_initPagelists region
  have hclear : (initPagelists region).clearBits = Finset.Ico region.reserved region.frames := by
    ext i
    rw [mem_clearBits, hshape.size_eq, Finset.mem_Ico]
    cases region <;>
      · simp only [initPagelists, initPagelist, test_reserve, decide_eq_false_iff_not, not_lt]
        exact and_comm
  unfold Counts
  rw [hclear, Nat.card_Ico]
  omega

end PageList

namespace Memory

variable {region : Region} {m : Memory}

/-- One call for the region. -/
def call (region : Region) : RegionCall → Memory → Memory
  | .alloc, m => (osPfnAlloc region m).2
  | .free pfn, m => osPfnFree region pfn m

/-- After the call the counter is right, and it changed nothing if it freed a frame that was not allocated. -/
structure Lawful (region : Region) (m : Memory) (c : RegionCall) : Prop where
  counts : ((call region c m).pglists region).Counts
  unchanged : ∀ pfn, c = .free pfn → m.allocated region pfn = false →
    { call region c m with trace := m.trace } = m

/-- `os_page_free` refuses the frame for its address. -/
def Refused (region : Region) (pfn : ℕ) : Prop :=
  pfn % 2 ^ 52 ≤ region.base ∨ region.base + region.frames ≤ pfn % 2 ^ 52

/-- An allocation has no free page, or a clear bit within the reach of its scan; a freed frame is allocated or
refused. -/
def Sane (region : Region) (m : Memory) : RegionCall → Prop
  | .alloc => (m.pglists region).freePages = 0 ∨
      ∃ i, (m.pglists region).bitmap.test i = false ∧ PageList.Reachable region (m.pglists region) i
  | .free pfn => m.allocated region pfn = true ∨ Refused region pfn

theorem osPfnFree_pglists (m : Memory) (pfn : ℕ) :
    (osPfnFree region pfn m).pglists region = (m.pglists region).osPageFree ((pfn % 2 ^ 52) * 4096) := by
  rw [← osPfnFree_address]
  exact Function.update_self ..

theorem shape_call (h : RegionShape region (m.pglists region)) (c : RegionCall) :
    RegionShape region ((call region c m).pglists region) := by
  cases c with
  | alloc =>
    by_cases hzero : (m.pglists region).freePages = 0
    · rw [call, osPfnAlloc_of_zero hzero]
      exact h
    · rw [call, osPfnAlloc_of_pos hzero]
      simp only [Function.update_self]
      exact ⟨h.size_eq, h.start_eq, (PageList.scanPos_spec h).1⟩
  | free pfn =>
    rw [call, osPfnFree_pglists]
    exact PageList.regionShape_osPageFree h _

theorem lawful_alloc_iff (h : RegionShape region (m.pglists region)) (hcounts : (m.pglists region).Counts) :
    Lawful region m .alloc ↔ Sane region m .alloc := by
  have hiff : Lawful region m .alloc ↔ ((call region .alloc m).pglists region).Counts :=
    ⟨Lawful.counts, fun hcounts ↦ ⟨hcounts, fun _ hfree ↦ RegionCall.noConfusion hfree⟩⟩
  rw [hiff, call, Sane]
  by_cases hzero : (m.pglists region).freePages = 0
  · rw [osPfnAlloc_of_zero hzero]
    exact iff_of_true hcounts (Or.inl hzero)
  · rw [osPfnAlloc_of_pos hzero]
    simp only [Function.update_self]
    rw [PageList.counts_getFreePage_iff h hcounts hzero, PageList.scanIndex_clear_iff h]
    exact (or_iff_right hzero).symm

theorem lawful_free_iff (h : RegionShape region (m.pglists region)) (hcounts : (m.pglists region).Counts) (pfn : ℕ) :
    Lawful region m (.free pfn) ↔ Sane region m (.free pfn) := by
  have hframe := PageList.osPageFree_frame h (pfn % 2 ^ 52)
  have hafter : (osPfnFree region pfn m).pglists region = _ := osPfnFree_pglists m pfn
  by_cases hrefused : Refused region pfn
  · rw [if_pos (show _ ∨ _ from hrefused)] at hframe
    rw [hframe] at hafter
    refine iff_of_true ⟨?_, fun _ _ _ ↦ ?_⟩ (Or.inr hrefused)
    · rw [call, hafter]
      exact hcounts
    · have hsame : (osPfnFree region pfn m).pglists = m.pglists := by
        funext other
        by_cases heq : other = region
        · rw [heq, hafter]
        · exact Function.update_of_ne heq ..
      change ({ m with pglists := (osPfnFree region pfn m).pglists } : Memory) = m
      rw [hsame]
  rw [if_neg (show ¬ (_ ∨ _) from hrefused)] at hframe
  rw [hframe] at hafter
  have hin : region.base < pfn % 2 ^ 52 ∧ pfn % 2 ^ 52 < region.base + region.frames :=
    not_or.1 hrefused |>.imp not_le.1 not_le.1
  have hindex : pfn % 2 ^ 52 - region.base < region.frames := by omega
  have hcount : ((call region (.free pfn) m).pglists region).Counts ↔
      (m.pglists region).bitmap.test (pfn % 2 ^ 52 - region.base) = true := by
    rw [call, hafter]
    exact PageList.counts_clear_iff h hcounts hindex
  rw [Sane, or_iff_left hrefused]
  constructor
  · intro hlawful
    by_contra hclear
    have hsame := congrArg (fun m' ↦ (Memory.pglists m' region).bitmap.test (pfn % 2 ^ 52 - region.base))
      (hlawful.unchanged pfn rfl (Bool.not_eq_true _ ▸ hclear))
    have hset := hcount.1 hlawful.counts
    simp only [call, hafter, PageList.test_bmapClear, decide_true, Bool.not_true, Bool.and_false, hset] at hsame
    exact Bool.noConfusion hsame
  · intro hallocated
    refine ⟨hcount.2 ?_, fun other hfree hclear ↦ ?_⟩
    · obtain ⟨hcontains, hset⟩ := (PageList.allocated_iff h pfn).1 hallocated
      have hframes := region.base_add_frames_le
      rwa [Nat.mod_eq_of_lt (hcontains.lt.trans (by norm_num))]
    · cases hfree
      rw [hallocated] at hclear
      exact Bool.noConfusion hclear

/-- Over every sequence of calls for a region, with frees of any frame numbers, the counter is right after each
call and a free of a frame that is not allocated changes nothing, exactly when each allocation finds a clear bit
and each freed frame is allocated or refused. -/
theorem lawful_iff_sane (region : Region) (phys : PhysMem) (apicBase : ApicBase) (calls : List RegionCall) :
    (∀ before c later, calls = before ++ c :: later → Lawful region (run (call region) (init phys apicBase) before) c) ↔
      Along (call region) (Sane region) (init phys apicBase) calls := by
  rw [← along_iff (C := Lawful region)]
  apply along_congr (I := fun m ↦ RegionShape region (m.pglists region) ∧ (m.pglists region).Counts)
  · exact ⟨(PageList.regionOk_initPagelists region).shape, PageList.counts_initPagelists region⟩
  · rintro m c ⟨hshape, hcounts⟩
    cases c with
    | alloc => exact lawful_alloc_iff hshape hcounts
    | free pfn => exact lawful_free_iff hshape hcounts pfn
  · rintro m c ⟨hshape, -⟩ hlawful
    exact ⟨shape_call hshape c, hlawful.counts⟩

/-- The second free of a frame raises the counter once more. -/
theorem not_lawful_double_free :
    ¬ Lawful .osPt (run (call .osPt) (init (fun _ _ ↦ 0) .reset) [.alloc, .free 0x2001]) (.free 0x2001) := by
  intro hlawful
  have hchanged := congrArg (fun m ↦ (Memory.pglists m .osPt).freePages)
    (hlawful.unchanged 0x2001 rfl (by decide +kernel))
  revert hchanged
  decide +kernel

end Memory

end GemOS
