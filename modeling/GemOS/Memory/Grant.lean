import GemOS.Memory.Scan

/-!
# Specification of `os_pfn_alloc` and `os_pfn_free`

A call of the allocator that is recorded as granted hands out a frame of the region outside its
bitmap pages whose bit was clear, marks exactly that frame, and clears it in the page-table region.
A free clears at most one bit. Both keep the region invariants, a free of a user frame only when the
frame is not one of the bitmap pages.
-/

namespace GemOS

open Foundation

namespace Region

/-- Any frame of the region. -/
def Contains (region : Region) (pfn : ℕ) : Prop :=
  region.base ≤ pfn ∧ pfn < region.base + region.frames

/-- A frame of the region that is not one of its bitmap pages. -/
def Usable (region : Region) (pfn : ℕ) : Prop :=
  region.base + region.reserved ≤ pfn ∧ pfn < region.base + region.frames

instance (region : Region) (pfn : ℕ) : Decidable (region.Usable pfn) := by
  unfold Usable
  infer_instance

theorem Usable.contains {region : Region} {pfn : ℕ} (h : region.Usable pfn) :
    region.Contains pfn := ⟨by have := h.1; omega, h.2⟩

theorem Usable.ne_zero {region : Region} {pfn : ℕ} (h : region.Usable pfn) : pfn ≠ 0 := by
  have hpos := region.base_pos
  have hlow := h.1
  omega

theorem Contains.lt {region : Region} {pfn : ℕ} (h : region.Contains pfn) : pfn < 0x20000 :=
  h.2.trans_le region.base_add_frames_le

theorem Contains.eq {first second : Region} {pfn : ℕ} (hfirst : first.Contains pfn)
    (hsecond : second.Contains pfn) : first = second :=
  eq_of_mem hfirst.1 hfirst.2 hsecond.1 hsecond.2

end Region

namespace PageList

variable {region : Region} {pgl : PageList}

theorem allocated_iff (h : RegionShape region pgl) (pfn : ℕ) :
    pgl.allocated pfn = true ↔
      region.Contains pfn ∧ pgl.bitmap.test (pfn - region.base) = true := by
  unfold allocated Region.Contains
  rw [start_shift h, h.size_eq]
  simp only [Bool.and_eq_true, decide_eq_true_eq]

theorem available_iff (h : RegionShape region pgl) (pfn : ℕ) :
    pgl.available pfn = true ↔
      region.Contains pfn ∧ pgl.bitmap.test (pfn - region.base) = false := by
  unfold available Region.Contains
  rw [start_shift h, h.size_eq]
  simp only [Bool.and_eq_true, decide_eq_true_eq, Bool.not_eq_true']

/-- A clear bit is not the bit of a bitmap page. -/
theorem reserved_le_of_clear (h : RegionOk region pgl) {i : ℕ} (hclear : pgl.bitmap.test i = false) :
    region.reserved ≤ i := by
  by_contra hlt
  rw [h.reserved_set i (by omega)] at hclear
  exact Bool.noConfusion hclear

theorem getFreePage_fst (h : RegionShape region pgl) :
    pgl.getFreePage.1 = region.base + pgl.scanIndex := by
  rw [getFreePage, start_shift h, Nat.add_comm]

theorem regionOk_getFreePage (h : RegionOk region pgl) : RegionOk region pgl.getFreePage.2 where
  size_eq := h.size_eq
  start_eq := h.start_eq
  cursor_lt := (scanPos_spec h.shape).1
  reserved_set i hi := by simp [getFreePage, h.reserved_set i hi]

/-- `os_page_free` in terms of frame numbers. -/
theorem osPageFree_frame (h : RegionShape region pgl) (pfn : ℕ) :
    pgl.osPageFree (pfn * 4096) =
      if pfn ≤ region.base ∨ region.base + region.frames ≤ pfn then pgl
      else
        { pgl with
          bitmap := bmapClear pgl.bitmap (pfn - region.base)
          freePages := (pgl.freePages + 1) % 2 ^ 32 } := by
  have hframes := region.frames_lt
  have hsize : (region.frames <<< 12) % 2 ^ 32 = region.frames * 4096 := by
    rw [Nat.shiftLeft_eq, Nat.mod_eq_of_lt (by omega)]
  have hiff : (pfn * 4096 ≤ region.base * 4096 ∨
      pfn * 4096 ≥ region.base * 4096 + region.frames * 4096) ↔
      (pfn ≤ region.base ∨ region.base + region.frames ≤ pfn) := by omega
  unfold osPageFree
  rw [h.size_eq, h.start_eq, hsize]
  by_cases hout : pfn ≤ region.base ∨ region.base + region.frames ≤ pfn
  · rw [if_pos (hiff.2 hout), if_pos hout]
  · have hindex : ((pfn * 4096 - region.base * 4096) >>> pageShift) % 2 ^ 32 = pfn - region.base := by
      rw [← Nat.sub_mul, Nat.shiftRight_eq_div_pow]
      simp only [pageShift]
      omega
    rw [if_neg (fun hcond ↦ hout (hiff.1 hcond)), if_neg hout, hindex]

theorem regionOk_osPageFree (h : RegionOk region pgl) (pfn : ℕ)
    (hreserved : region = .osPt ∨ region.base + region.reserved ≤ pfn) :
    RegionOk region (pgl.osPageFree (pfn * 4096)) := by
  rw [osPageFree_frame h.shape]
  split
  · exact h
  · rename_i hin
    refine ⟨h.size_eq, h.start_eq, h.cursor_lt, fun i hi ↦ ?_⟩
    have hne : i ≠ pfn - region.base := by
      rcases hreserved with rfl | hle
      · simp only [Region.reserved] at hi
        omega
      · omega
    simp [h.reserved_set i hi, hne]

end PageList

namespace Memory

/-- Every page list satisfies its region's invariant. -/
def RegionsOk (m : Memory) : Prop := ∀ region, RegionOk region (m.pglists region)

theorem regionsOk_init (phys : PhysMem) (apicBase : ApicBase) : (init phys apicBase).RegionsOk :=
  PageList.regionOk_initPagelists

variable {m : Memory} {region : Region}

theorem osPfnAlloc_of_zero (hzero : (m.pglists region).freePages = 0) :
    osPfnAlloc region m = (0, { m with trace := .alloc region 0 false :: m.trace }) := by
  rw [osPfnAlloc, if_pos hzero]

theorem osPfnAlloc_of_pos (hpos : (m.pglists region).freePages ≠ 0) :
    osPfnAlloc region m = ((m.pglists region).getFreePage.1,
      { m with
        pglists := Function.update m.pglists region (m.pglists region).getFreePage.2
        phys := if region = .osPt then m.phys.zero (m.pglists region).getFreePage.1 else m.phys
        trace := .alloc region (m.pglists region).getFreePage.1
          ((m.pglists region).available (m.pglists region).getFreePage.1) :: m.trace }) := by
  rw [osPfnAlloc, if_neg hpos]

@[simp]
theorem osPfnAlloc_pmd (region : Region) (m : Memory) : (osPfnAlloc region m).2.osPmdPfn = m.osPmdPfn := by
  by_cases hzero : (m.pglists region).freePages = 0
  · rw [osPfnAlloc_of_zero hzero]
  · rw [osPfnAlloc_of_pos hzero]

theorem osPfnAlloc_trace (region : Region) (m : Memory) :
    ∃ event, (osPfnAlloc region m).2.trace = event :: m.trace := by
  by_cases hzero : (m.pglists region).freePages = 0
  · exact ⟨_, by rw [osPfnAlloc_of_zero hzero]⟩
  · exact ⟨_, by rw [osPfnAlloc_of_pos hzero]⟩

/-- Memories are compared by the allocator calls made so far. -/
instance : Preorder Memory where
  le m m' := m.trace <:+ m'.trace
  le_refl _ := List.suffix_rfl
  le_trans _ _ _ := List.IsSuffix.trans

theorem AllocsGranted.anti {m' : Memory} (hle : m ≤ m') (h : m'.AllocsGranted) : m.AllocsGranted :=
  fun event hevent ↦ h event (List.IsSuffix.subset hle hevent)

theorem le_of_trace_eq {m' : Memory} (h : m'.trace = m.trace) : m ≤ m' := by
  change m.trace <:+ m'.trace
  rw [h]

theorem le_osPfnAlloc (region : Region) (m : Memory) : m ≤ (osPfnAlloc region m).2 := by
  obtain ⟨event, htrace⟩ := osPfnAlloc_trace region m
  change m.trace <:+ (osPfnAlloc region m).2.trace
  rw [htrace]
  exact List.suffix_cons _ _

theorem le_osPfnFree (region : Region) (pfn : ℕ) (m : Memory) : m ≤ osPfnFree region pfn m :=
  List.suffix_cons _ _

theorem AllocsGranted.of_osPfnAlloc (h : (osPfnAlloc region m).2.AllocsGranted) :
    m.AllocsGranted := by
  obtain ⟨event, htrace⟩ := osPfnAlloc_trace region m
  intro other hother
  exact h other (by rw [htrace]; exact List.mem_cons_of_mem _ hother)

theorem AllocsGranted.of_osPfnFree {pfn : ℕ} (h : (osPfnFree region pfn m).AllocsGranted) :
    m.AllocsGranted := fun event hevent ↦ h event (List.mem_cons_of_mem _ hevent)

theorem AllocsGranted.osPfnFree {pfn : ℕ} (h : m.AllocsGranted) :
    (osPfnFree region pfn m).AllocsGranted := by
  intro event hevent
  rcases List.mem_cons.1 hevent with rfl | hmem
  · trivial
  · exact h event hmem

/-- What a granted call of `os_pfn_alloc` does. -/
structure Grant (region : Region) (m m' : Memory) (pfn : ℕ) : Prop where
  usable : region.Usable pfn
  not_allocated : m.allocated region pfn = false
  allocated_iff : ∀ other frame, m'.allocated other frame = true ↔
    m.allocated other frame = true ∨ (other = region ∧ frame = pfn)
  phys_eq : m'.phys = if region = .osPt then m.phys.zero pfn else m.phys
  regions_ok : m'.RegionsOk
  pmd_eq : m'.osPmdPfn = m.osPmdPfn
  apic_eq : m'.apicBase = m.apicBase

theorem regionsOk_osPfnAlloc (region : Region) (h : m.RegionsOk) : (osPfnAlloc region m).2.RegionsOk := by
  by_cases hpos : (m.pglists region).freePages = 0
  · rw [osPfnAlloc_of_zero hpos]
    exact h
  · rw [osPfnAlloc_of_pos hpos]
    intro other
    by_cases heq : other = region
    · subst other
      simpa using PageList.regionOk_getFreePage (h region)
    · simpa [heq] using h other

theorem osPfnAlloc_grant (h : m.RegionsOk) (hgranted : (osPfnAlloc region m).2.AllocsGranted) :
    Grant region m (osPfnAlloc region m).2 (osPfnAlloc region m).1 := by
  have hregions := regionsOk_osPfnAlloc region h
  by_cases hpos : (m.pglists region).freePages = 0
  · rw [osPfnAlloc_of_zero hpos] at hgranted
    exact absurd (hgranted _ (List.mem_cons_self ..)) (by simp [MemEvent.Granted])
  · rw [osPfnAlloc_of_pos hpos] at hgranted hregions ⊢
    have havailable := hgranted _ (List.mem_cons_self ..)
    simp only [MemEvent.Granted] at havailable
    have hregion := h region
    rw [PageList.available_iff hregion.shape, PageList.getFreePage_fst hregion.shape] at havailable
    obtain ⟨hcontains, hclear⟩ := havailable
    rw [Nat.add_sub_cancel_left] at hclear
    have hreserved := PageList.reserved_le_of_clear hregion hclear
    have hfst := PageList.getFreePage_fst hregion.shape
    refine ⟨?_, ?_, ?_, rfl, hregions, rfl, rfl⟩
    · rw [hfst]
      exact ⟨by omega, hcontains.2⟩
    · rw [hfst, ← Bool.not_eq_true, allocated, PageList.allocated_iff hregion.shape]
      rintro ⟨_, hset⟩
      rw [Nat.add_sub_cancel_left, hclear] at hset
      exact Bool.noConfusion hset
    · intro other frame
      by_cases heq : other = region
      · subst other
        simp only [allocated, Function.update_self, true_and]
        rw [PageList.allocated_iff (PageList.regionOk_getFreePage hregion).shape,
          PageList.allocated_iff hregion.shape, hfst]
        simp only [PageList.getFreePage, PageList.test_bmapSet, Bool.or_eq_true, decide_eq_true_eq]
        constructor
        · rintro ⟨hin, hset | hnew⟩
          · exact Or.inl ⟨hin, hset⟩
          · exact Or.inr (by have := hin.1; omega)
        · rintro (⟨hin, hset⟩ | rfl)
          · exact ⟨hin, Or.inl hset⟩
          · exact ⟨hcontains, Or.inr (Nat.add_sub_cancel_left _ _)⟩
      · simp [allocated, heq]

theorem osPfnFree_address (pfn : ℕ) : (pfn <<< pageShift) % 2 ^ 64 = (pfn % 2 ^ 52) * 4096 := by
  rw [Nat.shiftLeft_eq]
  simp only [pageShift]
  omega

theorem regionsOk_osPfnFree (h : m.RegionsOk) {pfn : ℕ}
    (hpfn : region = .osPt ∨ region.Usable pfn) : (osPfnFree region pfn m).RegionsOk := by
  intro other
  by_cases heq : other = region
  · subst other
    simp only [osPfnFree, Function.update_self]
    rw [osPfnFree_address]
    refine PageList.regionOk_osPageFree (h region) _ (hpfn.imp id fun husable ↦ ?_)
    rw [Nat.mod_eq_of_lt (husable.contains.lt.trans (by norm_num))]
    exact husable.1
  · simpa [osPfnFree, heq] using h other

/-- A free clears no bit but the one of its frame. -/
theorem allocated_osPfnFree (h : m.RegionsOk) {pfn : ℕ} (husable : region.Usable pfn)
    (other : Region) (frame : ℕ) :
    (osPfnFree region pfn m).allocated other frame = true ↔
      m.allocated other frame = true ∧ ¬ (other = region ∧ frame = pfn) := by
  have hafter := regionsOk_osPfnFree h (Or.inr husable)
  by_cases heq : other = region
  · subst other
    have hregion := h region
    have hafter' := hafter region
    simp only [allocated]
    rw [PageList.allocated_iff hafter'.shape, PageList.allocated_iff hregion.shape]
    simp only [osPfnFree, Function.update_self, true_and]
    rw [osPfnFree_address, Nat.mod_eq_of_lt (husable.contains.lt.trans (by norm_num)),
      PageList.osPageFree_frame hregion.shape]
    have hlow := husable.1
    have hreserved := region.reserved_pos
    rw [if_neg (by have := husable.2; omega)]
    simp only [PageList.test_bmapClear, Bool.and_eq_true, Bool.not_eq_true', decide_eq_false_iff_not,
      and_assoc]
    refine and_congr_right fun hin ↦ and_congr_right fun _ ↦ ?_
    have := hin.1
    exact not_congr (by omega)
  · simp [allocated, osPfnFree, heq]

/-- A free of one frame leaves the others marked. -/
theorem still_allocated_osPfnFree (h : m.RegionsOk) {pfn frame : ℕ} {other : Region} (hpfn : pfn < 2 ^ 52)
    (hne : frame ≠ pfn) (hframe : m.allocated other frame = true) :
    (osPfnFree region pfn m).allocated other frame = true := by
  by_cases heq : other = region
  · subst other
    simp only [allocated, osPfnFree, Function.update_self] at hframe ⊢
    rw [osPfnFree_address, Nat.mod_eq_of_lt hpfn, PageList.osPageFree_frame (h region).shape]
    obtain ⟨hcontains, hset⟩ := (PageList.allocated_iff (h region).shape frame).1 hframe
    split
    · exact hframe
    · unfold PageList.allocated at hframe ⊢
      have hbit : frame - region.base ≠ pfn - region.base := by
        have := hcontains.1
        omega
      rw [PageList.start_shift (h region).shape] at hframe ⊢
      simpa [hbit] using hframe
  · simpa [allocated, osPfnFree, heq] using hframe

end Memory

end GemOS
