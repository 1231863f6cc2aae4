import GemOS.Memory.Supply

/-!
# Filling a region up to the scan bound

In a region from which nothing was freed `os_pfn_alloc` hands out one frame after the other, up to the bound of its word
scan. What memory looks like then is written down in one step, so that a run with thousands of calls need not be
replayed. From then on each further call returns the first frame of word 1, as long as no frame is freed.
-/

namespace GemOS

open Foundation Memory

variable {region : Region} {pgl pgl' : PageList} {m m' : Memory} {n first count : ℕ}

/-- The number of frames below the scan bound. -/
def Region.scanned (region : Region) : ℕ := 32 * (region.frames / 256)

/-- Marked up to a frame and not beyond, as far as the scan goes, with the cursor at the last one marked. -/
structure Filled (region : Region) (n : ℕ) (pgl : PageList) : Prop where
  shape : RegionShape region pgl
  cursor_eq : pgl.lastFreePos = (n - 1) / 32
  marked : ∀ i < region.scanned, pgl.bitmap.test i = decide (i < n)

theorem Filled.scanIndex_eq (h : Filled region n pgl) (hn : n < region.scanned) :
    pgl.scanIndex = n ∧ pgl.scanPos = n / 32 := by
  have hcursor := h.cursor_eq
  refine PageList.scanIndex_eq_of_filled h.shape hn (by omega) (fun i hi ↦ ?_) ?_
  · rw [h.marked i (hi.trans hn), decide_eq_true hi]
  · rw [h.marked n hn, decide_eq_false (lt_irrefl n)]

/-- One more page. -/
theorem Filled.getFreePage (h : Filled region n pgl) (hn : n < region.scanned) :
    pgl.getFreePage.1 = region.base + n ∧ pgl.available (region.base + n) = true ∧
      Filled region (n + 1) pgl.getFreePage.2 := by
  obtain ⟨hindex, hpos⟩ := h.scanIndex_eq hn
  have hwords := region.words_le
  unfold Region.scanned at hn
  refine ⟨by rw [PageList.getFreePage_fst h.shape, hindex], ?_,
    ⟨h.shape.size_eq, h.shape.start_eq, (PageList.scanPos_spec h.shape).1⟩, hpos, fun i hi ↦ ?_⟩
  · rw [PageList.available_iff h.shape, Nat.add_sub_cancel_left, h.marked n hn]
    exact ⟨⟨Nat.le_add_right _ _, by omega⟩, decide_eq_false (lt_irrefl n)⟩
  · rw [PageList.getFreePage, PageList.test_bmapSet, hindex, h.marked i hi, ← Bool.decide_or]
    exact decide_eq_decide.2 (by omega)

/-- A bitmap that is filled, word by word. -/
theorem Filled.of_words (hshape : RegionShape region pgl) (hcursor : pgl.lastFreePos = (n - 1) / 32)
    (hwords : ∀ w < region.frames / 256, pgl.bitmap w =
      if w < n / 32 then BitVec.allOnes 32 else if w = n / 32 then BitVec.ofNat 32 (2 ^ (n % 32) - 1) else 0#32) :
    Filled region n pgl := by
  refine ⟨hshape, hcursor, fun i hi ↦ ?_⟩
  have hbit : i % 32 < 32 := Nat.mod_lt i (by decide)
  unfold Region.scanned at hi
  rw [BitTable.test, hwords (i / 32) (by omega)]
  split_ifs with hlow hword
  · rw [decide_eq_true (by omega)]
    exact (BitTable.eq_allOnes_iff _).1 rfl _ hbit
  · rw [BitVec.getLsbD_ofNat, Nat.testBit_two_pow_sub_one, decide_eq_true hbit, Bool.true_and]
    exact decide_eq_decide.2 (by omega)
  · rw [decide_eq_false (by omega)]
    simp

/-- The frames from `first` on were handed out. -/
structure Row (region : Region) (first count : ℕ) (pgl pgl' : PageList) : Prop where
  before : Filled region first pgl
  after : Filled region (first + count) pgl'
  type_eq : pgl'.type = pgl.type
  free_eq : pgl'.freePages = pgl.freePages - count
  beyond : ∀ w, region.frames / 256 ≤ w → pgl'.bitmap w = pgl.bitmap w

namespace Row

theorem refl (h : Filled region first pgl) : Row region first 0 pgl pgl := ⟨h, h, rfl, rfl, fun _ _ ↦ rfl⟩

theorem next (h : Row region first count pgl pgl') (hcount : first + count < region.scanned) :
    Row region first (count + 1) pgl pgl'.getFreePage.2 := by
  have hfree := h.free_eq
  refine ⟨h.before, (h.after.getFreePage hcount).2.2, h.type_eq, ?_, fun w hw ↦ ?_⟩
  · simp only [PageList.getFreePage]
    omega
  · simp only [PageList.getFreePage, PageList.bmapSet_eq_insert, (h.after.scanIndex_eq hcount).1]
    rw [← h.beyond w hw]
    refine Function.update_of_ne ?_ _ _
    unfold Region.scanned at hcount
    omega

end Row

/-- The list of a region after all its frames from `first` to `last`, the end of a word, were handed out. -/
def PageList.fillUp (region : Region) (first last : ℕ) (pgl : PageList) : PageList where
  type := pgl.type
  size := region.frames
  freePages := pgl.freePages - (last - first)
  lastFreePos := (last - 1) / 32
  startAddress := region.base * 4096
  bitmap w := if w < last / 32 then BitVec.allOnes 32 else pgl.bitmap w

theorem Row.eq_fillUp {last : ℕ} (h : Row region first (last - first) pgl pgl') (hfirst : first ≤ last)
    (hlast : last ≤ region.scanned) (hword : last % 32 = 0) : pgl' = pgl.fillUp region first last := by
  have hbefore := h.before
  have hafter := h.after
  rw [Nat.add_sub_cancel' hfirst] at hafter
  unfold Region.scanned at hlast
  have hbitmap : pgl'.bitmap = (pgl.fillUp region first last).bitmap := by
    funext w
    change _ = if w < last / 32 then _ else _
    split
    · refine (BitTable.word_full_iff (by norm_num) _ _).2 fun i hi ↦ ?_
      rw [hafter.marked i (by unfold Region.scanned; omega), decide_eq_true (by omega)]
    · by_cases hscan : w < region.frames / 256
      · refine BitVec.eq_of_getLsbD_eq fun j hj ↦ ?_
        have hindex : (32 * w + j) / 32 = w ∧ (32 * w + j) % 32 = j := by omega
        have hclear : ∀ n list, Filled region n list → n ≤ last → (list.bitmap w).getLsbD j = false := by
          intro n list hfilled hn
          have hmarked := hfilled.marked (32 * w + j) (by unfold Region.scanned; omega)
          rw [BitTable.test, hindex.1, hindex.2] at hmarked
          rw [hmarked, decide_eq_false (by omega)]
        rw [hclear _ _ hafter le_rfl, hclear _ _ hbefore hfirst]
      · exact h.beyond w (by omega)
  calc
    pgl' = ⟨pgl'.type, pgl'.size, pgl'.freePages, pgl'.lastFreePos, pgl'.startAddress, pgl'.bitmap⟩ := rfl
    _ = pgl.fillUp region first last := by
      rw [h.type_eq, h.free_eq, hafter.cursor_eq, hafter.shape.size_eq, hafter.shape.start_eq, hbitmap]
      rfl

/-- The calls that hand out the frames of a row. -/
def rowEvents (region : Region) (first : ℕ) : ℕ → List MemEvent
  | 0 => []
  | count + 1 => .alloc region (region.base + first + count) true :: rowEvents region first count

/-- One frame more of the row. -/
theorem Row.alloc (h : Row region first count (m.pglists region) (m'.pglists region))
    (hcount : first + count < region.scanned) (hfree : count < (m.pglists region).freePages) :
    osPfnAlloc region m' = (region.base + first + count,
      { m' with
        pglists := Function.update m'.pglists region (m'.pglists region).getFreePage.2
        phys := if region = .osPt then m'.phys.zero (region.base + first + count) else m'.phys
        trace := .alloc region (region.base + first + count) true :: m'.trace }) := by
  obtain ⟨hframe, havailable, -⟩ := h.after.getFreePage hcount
  have hfree_eq := h.free_eq
  rw [← Nat.add_assoc] at hframe havailable
  rw [osPfnAlloc_of_pos (by omega), hframe, havailable]

/-- A row of frames was handed out, and nothing else happened. -/
structure HandsOut (region : Region) (first count : ℕ) (m m' : Memory) : Prop where
  row : Row region first count (m.pglists region) (m'.pglists region)
  others : ∀ other, other ≠ region → m'.pglists other = m.pglists other
  phys_eq : ∀ pfn i, m'.phys pfn i =
    if region = .osPt ∧ region.base + first ≤ pfn ∧ pfn < region.base + first + count then 0 else m.phys pfn i
  pmd_eq : m'.osPmdPfn = m.osPmdPfn
  apic_eq : m'.apicBase = m.apicBase
  trace_eq : m'.trace = rowEvents region first count ++ m.trace

namespace HandsOut

theorem refl (h : Filled region first (m.pglists region)) : HandsOut region first 0 m m :=
  ⟨.refl h, fun _ _ ↦ rfl, fun _ _ ↦ (if_neg (by omega)).symm, rfl, rfl, rfl⟩

theorem next (h : HandsOut region first count m m') (hcount : first + count < region.scanned)
    (hfree : count < (m.pglists region).freePages) :
    (osPfnAlloc region m').1 = region.base + first + count ∧
      HandsOut region first (count + 1) m (osPfnAlloc region m').2 := by
  rw [h.row.alloc hcount hfree]
  refine ⟨rfl, ?_, fun other hother ↦ ?_, fun pfn i ↦ ?_, h.pmd_eq, h.apic_eq, ?_⟩
  · simpa only [Function.update_self] using h.row.next hcount
  · exact (Function.update_of_ne hother _ _).trans (h.others other hother)
  · by_cases hosPt : region = .osPt
    · simp only [if_pos hosPt, PhysMem.zero, h.phys_eq]
      simp only [hosPt, true_and]
      split_ifs <;> first | rfl | omega
    · simp only [h.phys_eq, hosPt, false_and, if_false]
  · simp only [rowEvents, h.trace_eq, List.cons_append]

end HandsOut

/-- Memory after all frames of a region from `first` to `last` were handed out. -/
def Memory.fillUp (region : Region) (first last : ℕ) (m : Memory) : Memory where
  pglists := Function.update m.pglists region ((m.pglists region).fillUp region first last)
  phys pfn i := if region = .osPt ∧ region.base + first ≤ pfn ∧ pfn < region.base + last then 0 else m.phys pfn i
  osPmdPfn := m.osPmdPfn
  apicBase := m.apicBase
  trace := rowEvents region first (last - first) ++ m.trace

/-- When the row ends a word all of memory is known. -/
theorem HandsOut.eq_fillUp {last : ℕ} (h : HandsOut region first (last - first) m m') (hfirst : first ≤ last)
    (hlast : last ≤ region.scanned) (hword : last % 32 = 0) : m' = m.fillUp region first last := by
  have hlists : m'.pglists = (m.fillUp region first last).pglists := by
    funext other
    by_cases hother : other = region
    · rw [hother, h.row.eq_fillUp hfirst hlast hword, fillUp]
      simp only [Function.update_self]
    · rw [h.others other hother]
      exact (Function.update_of_ne hother _ _).symm
  have hphys : m'.phys = (m.fillUp region first last).phys := by
    funext pfn i
    rw [h.phys_eq, Nat.add_assoc, Nat.add_sub_cancel' hfirst]
    rfl
  have htrace := h.trace_eq
  have hpmd := h.pmd_eq
  have hapic := h.apic_eq
  obtain ⟨lists, phys, pmd, apic, trace⟩ := m'
  simp only at hlists hphys htrace hpmd hapic
  rw [hlists, hphys, htrace, hpmd, hapic]
  rfl

end GemOS
