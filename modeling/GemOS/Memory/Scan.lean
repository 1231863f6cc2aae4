import GemOS.Memory.Frames

/-!
# What the bitmap scan finds

`get_free_page` starts at a word cursor that persists between calls, skips full words below the bound
`size >> 8`, wraps to word 0 at that bound, and takes the first clear bit of the word it stopped at
without asking whether there was one. The region invariant `RegionOk` fixes the constants of a region
and keeps the cursor below the bound; under it `scanIndex` is a clear bit exactly when some clear bit
lies between the cursor and the bound or among the first 33.
-/

namespace GemOS

open Foundation

/-- The constants of a region, a cursor below the scan bound, and its bitmap pages marked. -/
structure RegionOk (region : Region) (pgl : PageList) : Prop where
  size_eq : pgl.size = region.frames
  start_eq : pgl.startAddress = region.base * 4096
  cursor_lt : pgl.lastFreePos < region.frames / 256
  reserved_set : ∀ i < region.reserved, pgl.bitmap.test i = true

/-- What arbitrary calls keep of it: the constants and the cursor. -/
structure RegionShape (region : Region) (pgl : PageList) : Prop where
  size_eq : pgl.size = region.frames
  start_eq : pgl.startAddress = region.base * 4096
  cursor_lt : pgl.lastFreePos < region.frames / 256

theorem RegionOk.shape {region : Region} {pgl : PageList} (h : RegionOk region pgl) : RegionShape region pgl :=
  ⟨h.size_eq, h.start_eq, h.cursor_lt⟩

namespace Region

theorem two_le_words (region : Region) : 2 ≤ region.frames / 256 := by cases region <;> decide

theorem reserved_le (region : Region) : region.reserved ≤ 32 := by cases region <;> decide

theorem reserved_pos (region : Region) : 0 < region.reserved := by cases region <;> decide

theorem base_pos (region : Region) : 0 < region.base := by cases region <;> decide

theorem words_le (region : Region) : 32 * (region.frames / 256) < region.frames := by
  cases region <;> decide

theorem frames_lt (region : Region) : region.frames < 2 ^ 17 := by cases region <;> decide

theorem base_add_frames_le (region : Region) : region.base + region.frames ≤ 0x20000 := by
  cases region <;> decide

/-- Frames of different regions do not coincide. -/
theorem eq_of_mem {first second : Region} {pfn : ℕ} (hfirst : first.base ≤ pfn)
    (hfirst' : pfn < first.base + first.frames) (hsecond : second.base ≤ pfn)
    (hsecond' : pfn < second.base + second.frames) : first = second := by
  cases first <;> cases second <;> simp_all [base, frames] <;> omega

end Region

namespace PageList

theorem regionOk_initPagelists (region : Region) : RegionOk region (initPagelists region) where
  size_eq := by cases region <;> decide
  start_eq := by cases region <;> decide
  cursor_lt := by cases region <;> decide
  reserved_set i hi := by
    cases region <;>
      · simp only [initPagelists, initPagelist, test_reserve, decide_eq_true_eq]
        exact hi

variable {region : Region} {pgl : PageList}

theorem sizeInU32_eq (h : RegionShape region pgl) : pgl.sizeInU32 = region.frames / 256 := by
  rw [sizeInU32, h.size_eq, Nat.shiftRight_eq_div_pow]

theorem start_shift (h : RegionShape region pgl) : pgl.startAddress >>> pageShift = region.base := by
  rw [h.start_eq, Nat.shiftRight_eq_div_pow]
  exact Nat.mul_div_cancel _ (by norm_num [pageShift])

/-- Where the word scan stops: at the first word from the cursor that is not full, or at word 0
after every word up to the bound was found full. -/
theorem scanPos_spec (h : RegionShape region pgl) :
    pgl.scanPos < region.frames / 256 ∧
      ((pgl.lastFreePos ≤ pgl.scanPos ∧ pgl.bitmap pgl.scanPos ≠ BitVec.allOnes 32 ∧
          ∀ k, pgl.lastFreePos ≤ k → k < pgl.scanPos → pgl.bitmap k = BitVec.allOnes 32) ∨
        (pgl.scanPos = 0 ∧
          ∀ k, pgl.lastFreePos ≤ k → k < region.frames / 256 →
            pgl.bitmap k = BitVec.allOnes 32)) := by
  have hcursor := h.cursor_lt
  have hbound := region.two_le_words
  have hspec := BitTable.skipFull_spec pgl.bitmap (region.frames / 256)
    (region.frames / 256 - pgl.lastFreePos) pgl.lastFreePos (by omega) hcursor.le
  have hdef : pgl.scanStop = pgl.bitmap.skipFull (region.frames / 256)
      (region.frames / 256 - pgl.lastFreePos) pgl.lastFreePos := by
    rw [scanStop, sizeInU32_eq h]
  rw [← hdef] at hspec
  obtain ⟨hlow, hhigh, hstop, hfull⟩ := hspec
  unfold scanPos
  rw [sizeInU32_eq h]
  split
  · rename_i hge
    exact ⟨by omega, Or.inr ⟨rfl, fun k hk hlt ↦ hfull k hk (by omega)⟩⟩
  · rename_i hlt
    exact ⟨by omega, Or.inl ⟨hlow, hstop (by omega), hfull⟩⟩

theorem scanIndex_eq (pgl : PageList) :
    pgl.scanIndex = pgl.scanPos * 32 + BitTable.firstClear (pgl.bitmap pgl.scanPos) 32 0 := by
  rw [scanIndex, Nat.shiftLeft_eq]

theorem scanIndex_lt (h : RegionShape region pgl) : pgl.scanIndex < region.frames := by
  have hpos := (scanPos_spec h).1
  have hbit := BitTable.firstClear_le (pgl.bitmap pgl.scanPos) 32 0
  have hwords := region.words_le
  rw [scanIndex_eq]
  omega

/-- In a word that is not full the scan takes a clear bit of that word. -/
theorem scanIndex_of_ne (hne : pgl.bitmap pgl.scanPos ≠ BitVec.allOnes 32) :
    pgl.scanIndex / 32 = pgl.scanPos ∧ pgl.bitmap.test pgl.scanIndex = false := by
  have hlt := (BitTable.firstClear_lt_iff _).2 hne
  have hdiv : pgl.scanIndex / 32 = pgl.scanPos := by rw [scanIndex_eq]; omega
  have hmod : pgl.scanIndex % 32 = BitTable.firstClear (pgl.bitmap pgl.scanPos) 32 0 := by
    rw [scanIndex_eq]
    omega
  refine ⟨hdiv, ?_⟩
  rw [BitTable.test, hdiv, hmod]
  exact BitTable.getLsbD_firstClear _ 32 0 (by omega)

/-- In a full word the search runs off the end: the index is bit 0 of the next word. -/
theorem scanIndex_of_full (hfull : pgl.bitmap pgl.scanPos = BitVec.allOnes 32) :
    pgl.scanIndex = pgl.scanPos * 32 + 32 := by
  rw [scanIndex_eq, BitTable.firstClear_eq_of_full]
  intro j _ hj
  exact (BitTable.eq_allOnes_iff _).1 hfull j (by omega)

/-- In a region that is marked up to a bit, the scan takes that bit, unless it begins beyond it. -/
theorem scanIndex_eq_of_filled (h : RegionShape region pgl) {n : ℕ} (hn : n < 32 * (region.frames / 256))
    (hcursor : 32 * pgl.lastFreePos ≤ n) (hmarked : ∀ i < n, pgl.bitmap.test i = true)
    (hclear : pgl.bitmap.test n = false) : pgl.scanIndex = n ∧ pgl.scanPos = n / 32 := by
  have hword : pgl.bitmap (n / 32) ≠ BitVec.allOnes 32 := by
    intro hfull
    rw [(BitTable.word_full_iff (by norm_num) _ _).1 hfull _ rfl] at hclear
    exact Bool.noConfusion hclear
  obtain ⟨hbound, ⟨hlow, hne, hfull⟩ | ⟨hzero, hfull⟩⟩ := scanPos_spec h
  · have hle : pgl.scanPos ≤ n / 32 := by
      by_contra hgt
      exact hword (hfull _ (by omega) (by omega))
    obtain ⟨hdiv, hchosen⟩ := scanIndex_of_ne hne
    have hge : n ≤ pgl.scanIndex := by
      by_contra hlt
      rw [hmarked _ (by omega)] at hchosen
      exact Bool.noConfusion hchosen
    have hfirst := BitTable.firstClear_le_of_clear (pgl.bitmap pgl.scanPos) 32 0 (n % 32) (Nat.zero_le _) (by omega) (by
      have hpos : pgl.scanPos = n / 32 := by omega
      rw [hpos]
      exact hclear)
    rw [scanIndex_eq] at hge ⊢
    omega
  · exact absurd (hfull _ (by omega) (by omega)) hword

/-- A clear bit the scan can reach: between the cursor and the bound, or among the first 33. -/
def Reachable (region : Region) (pgl : PageList) (i : ℕ) : Prop :=
  (32 * pgl.lastFreePos ≤ i ∧ i < 32 * (region.frames / 256)) ∨ i ≤ 32

/-- The chosen bit is clear exactly when a reachable bit is clear. -/
theorem scanIndex_clear_iff (h : RegionShape region pgl) :
    pgl.bitmap.test pgl.scanIndex = false ↔
      ∃ i, pgl.bitmap.test i = false ∧ Reachable region pgl i := by
  obtain ⟨hbound, hscan⟩ := scanPos_spec h
  constructor
  · intro hclear
    refine ⟨pgl.scanIndex, hclear, ?_⟩
    by_cases hfull : pgl.bitmap pgl.scanPos = BitVec.allOnes 32
    · rcases hscan with ⟨_, hne, _⟩ | ⟨hzero, _⟩
      · exact absurd hfull hne
      · rw [scanIndex_of_full hfull, hzero]
        exact Or.inr (by omega)
    · have hword := (scanIndex_of_ne hfull).1
      rcases hscan with ⟨hlow, _, _⟩ | ⟨hzero, _⟩
      · exact Or.inl ⟨by omega, by omega⟩
      · exact Or.inr (by omega)
  · rintro ⟨i, hclear, hreach⟩
    rcases hscan with ⟨_, hne, _⟩ | ⟨hzero, hfull⟩
    · exact (scanIndex_of_ne hne).2
    · by_cases hword : pgl.bitmap pgl.scanPos = BitVec.allOnes 32
      · have hindex := scanIndex_of_full hword
        rw [hzero] at hindex hword
        have hnot : ∀ k, pgl.bitmap k = BitVec.allOnes 32 → i / 32 ≠ k := by
          intro k hk hi
          rw [(BitTable.word_full_iff (by norm_num) _ k).1 hk i hi] at hclear
          exact Bool.noConfusion hclear
        have hfirst := hnot 0 hword
        rcases hreach with ⟨hlow, hhigh⟩ | hle
        · exact absurd rfl (hnot (i / 32) (hfull _ (by omega) (by omega)))
        · have hi : i = pgl.scanIndex := by omega
          rwa [← hi]
      · exact (scanIndex_of_ne hword).2

end PageList

end GemOS
