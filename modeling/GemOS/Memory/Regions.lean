import GemOS.Foundation.Runs
import GemOS.Memory.Supply

/-!
# The three regions together

Clients of the three regions interleave their calls. A scan that ends at a full word makes the allocator hand out a
frame that is in use, so a frame can be held more than once; what holds regardless is that a frame handed out for a
region is one of that region and none of its bitmap pages, and that the scan stays within the bitmap. Both follow
from `RegionOk`, which every call keeps as long as only held frames are freed.
-/

namespace GemOS

open Foundation Memory

/-- `get_mem_region`; `none` is the `-1` of the source. -/
def getMemRegion (pfn : ℕ) : Option Region :=
  let address := (pfn % 2 ^ 32) <<< pageShift
  if address < regionOsDsStart ∨ address > endMem then none
  else if address ≥ regionOsDsStart ∧ address < regionOsPtStart then some .osDs
  else if address ≥ regionOsPtStart ∧ address < regionUserStart then some .osPt
  else some .user

theorem Region.Contains.getMemRegion {region : Region} {pfn : ℕ} (h : region.Contains pfn) :
    GemOS.getMemRegion pfn = some region := by
  obtain ⟨hlow, hhigh⟩ := h
  have hlt : pfn < 2 ^ 32 := (Contains.lt ⟨hlow, hhigh⟩).trans (by norm_num)
  have haddress : (pfn % 2 ^ 32) <<< pageShift = pfn * 4096 := by
    rw [Nat.mod_eq_of_lt hlt, Nat.shiftLeft_eq]
    rfl
  have hds : regionOsDsStart = 0x800000 := rfl
  have hpt : regionOsPtStart = 0x2000000 := rfl
  have huser : regionUserStart = 0x6400000 := rfl
  have hend : endMem = 0x20000000 := rfl
  unfold GemOS.getMemRegion
  rw [haddress]
  cases region <;> simp only [base, frames] at hlow hhigh
  · rw [if_neg (by omega), if_pos (by omega)]
  · rw [if_neg (by omega), if_neg (by omega), if_pos (by omega)]
  · rw [if_neg (by omega), if_neg (by omega), if_neg (by omega)]

namespace PageList

variable {region : Region} {pgl : PageList}

/-- The bitmap words `get_free_page` accesses: those its `while` condition reads, the last of which can be the one
at the bound, the one it searches and the one it marks. -/
def allocWords (pgl : PageList) : List ℕ :=
  List.range' pgl.lastFreePos (pgl.scanStop - pgl.lastFreePos + 1) ++ [pgl.scanPos, pgl.scanIndex >>> 5]

/-- The bitmap word `os_page_free` accesses, unless it refuses the address. -/
def freeWords (pgl : PageList) (paddress : ℕ) : List ℕ :=
  if paddress ≤ pgl.startAddress ∨ paddress ≥ pgl.startAddress + (pgl.size <<< 12) % 2 ^ 32 then []
  else [(((paddress - pgl.startAddress) >>> pageShift) % 2 ^ 32) >>> 5]

theorem words_mul (region : Region) : region.frames = 32 * (region.frames / 32) := by cases region <;> decide

theorem scanStop_le (h : RegionShape region pgl) : pgl.scanStop ≤ region.frames / 256 := by
  have hspec := BitTable.skipFull_spec pgl.bitmap (region.frames / 256)
    (region.frames / 256 - pgl.lastFreePos) pgl.lastFreePos (by have := h.cursor_lt; omega) h.cursor_lt.le
  rw [scanStop, sizeInU32_eq h]
  exact hspec.2.1

/-- The scan stays within the bits of the region. -/
theorem allocWords_in (h : RegionShape region pgl) {word : ℕ} (hword : word ∈ pgl.allocWords) :
    32 * word + 32 ≤ pgl.size := by
  have hsize := words_mul region
  have hwords := region.words_le
  rw [h.size_eq]
  rcases List.mem_append.1 hword with hread | hlast
  · have hstop := scanStop_le h
    obtain ⟨hlow, hhigh⟩ := List.mem_range'_1.1 hread
    have hcursor := h.cursor_lt
    omega
  · rw [List.mem_cons, List.mem_singleton] at hlast
    rcases hlast with rfl | rfl
    · have hpos := (scanPos_spec h).1
      omega
    · have hindex := scanIndex_lt h
      rw [shiftRight_five]
      omega

theorem freeWords_in (h : RegionShape region pgl) {paddress word : ℕ} (hword : word ∈ pgl.freeWords paddress) :
    32 * word + 32 ≤ pgl.size := by
  have hsize := words_mul region
  have hframes := region.frames_lt
  unfold freeWords at hword
  rw [h.size_eq, h.start_eq] at *
  split at hword
  · cases hword
  · rename_i hin
    have hshift : (region.frames <<< 12) % 2 ^ 32 = region.frames * 4096 := by
      rw [Nat.shiftLeft_eq, Nat.mod_eq_of_lt (by omega)]
    rw [hshift] at hin
    rw [List.mem_singleton, shiftRight_five, Nat.shiftRight_eq_div_pow] at hword
    simp only [pageShift] at hword
    omega

/-- The bit chosen by the scan is not the bit of a bitmap page, even when the scan ends at a full word. -/
theorem reserved_le_scanIndex (h : RegionOk region pgl) : region.reserved ≤ pgl.scanIndex := by
  by_cases hfull : pgl.bitmap pgl.scanPos = BitVec.allOnes 32
  · have hindex := scanIndex_of_full hfull
    have hreserved := region.reserved_le
    omega
  · exact reserved_le_of_clear h (scanIndex_of_ne hfull).2

end PageList

theorem Memory.osPfnAlloc_usable {region : Region} {m : Memory} (h : m.RegionsOk)
    (hne : (osPfnAlloc region m).1 ≠ 0) : region.Usable (osPfnAlloc region m).1 := by
  by_cases hzero : (m.pglists region).freePages = 0
  · rw [osPfnAlloc_of_zero hzero] at hne
    exact absurd rfl hne
  · have hlow := PageList.reserved_le_scanIndex (h region)
    have hhigh := PageList.scanIndex_lt (h region).shape
    rw [osPfnAlloc_of_pos hzero]
    simp only
    rw [PageList.getFreePage_fst (h region).shape]
    exact ⟨by omega, by omega⟩

/-- Memory together with the frames that were handed out and not freed since, once for each time. -/
structure Shares where
  mem : Memory
  held : Region → Multiset ℕ

namespace Shares

/-- A call for one of the regions. -/
def step (c : Region × RegionCall) (s : Shares) : Shares :=
  match c with
  | (region, .alloc) =>
    { mem := (osPfnAlloc region s.mem).2
      held := if (osPfnAlloc region s.mem).1 = 0 then s.held
        else Function.update s.held region ((osPfnAlloc region s.mem).1 ::ₘ s.held region) }
  | (region, .free pfn) =>
    { mem := osPfnFree region pfn s.mem
      held := Function.update s.held region ((s.held region).erase pfn) }

/-- The state set up by `init_pagelists`, with nothing handed out. -/
def boot (phys : PhysMem) (apicBase : ApicBase) : Shares where
  mem := Memory.init phys apicBase
  held := fun _ ↦ 0

/-- A freed frame is held. -/
def Admissible (s : Shares) (c : Region × RegionCall) : Prop :=
  ∀ pfn, c.2 = .free pfn → pfn ∈ s.held c.1

/-- The bitmap words a call accesses. -/
def words (s : Shares) : Region × RegionCall → List ℕ
  | (region, .alloc) => if (s.mem.pglists region).freePages = 0 then [] else (s.mem.pglists region).allocWords
  | (region, .free pfn) => (s.mem.pglists region).freeWords ((pfn <<< pageShift) % 2 ^ 64)

/-- The frame a call returns. -/
def returned (s : Shares) : Region × RegionCall → Option ℕ
  | (region, .alloc) => some (osPfnAlloc region s.mem).1
  | (_, .free _) => none

/-- A nonzero frame the call returns is one of the region's own, none of its bitmap pages and in no other region,
and the words the call accesses lie within the region's bits. -/
structure Within (s : Shares) (c : Region × RegionCall) : Prop where
  usable : ∀ pfn, s.returned c = some pfn → pfn ≠ 0 → c.1.Usable pfn
  region_eq : ∀ pfn, s.returned c = some pfn → pfn ≠ 0 → getMemRegion pfn = some c.1
  apart : ∀ pfn other, s.returned c = some pfn → pfn ≠ 0 → other ≠ c.1 → ¬ other.Contains pfn
  words_in : ∀ word ∈ s.words c, 32 * word + 32 ≤ (s.mem.pglists c.1).size

/-- The page lists are in order and only frames of a region are held for it. -/
structure Ok (s : Shares) : Prop where
  regions_ok : s.mem.RegionsOk
  usable : ∀ region, ∀ pfn ∈ s.held region, region.Usable pfn

theorem ok_boot (phys : PhysMem) (apicBase : ApicBase) : (boot phys apicBase).Ok where
  regions_ok := regionsOk_init phys apicBase
  usable _ _ hpfn := absurd hpfn (Multiset.notMem_zero _)

theorem Ok.within {s : Shares} (h : s.Ok) (c : Region × RegionCall) : s.Within c := by
  obtain ⟨region, call⟩ := c
  have hshape := (h.regions_ok region).shape
  cases call with
  | alloc =>
    have husable : ∀ pfn, s.returned (region, .alloc) = some pfn → pfn ≠ 0 → region.Usable pfn := by
      intro pfn hreturned hne
      cases hreturned
      exact osPfnAlloc_usable h.regions_ok hne
    refine ⟨husable, fun pfn hreturned hne ↦ (husable pfn hreturned hne).contains.getMemRegion, ?_, ?_⟩
    · intro pfn other hreturned hne hother hcontains
      exact hother (hcontains.eq (husable pfn hreturned hne).contains)
    · intro word hword
      by_cases hzero : (s.mem.pglists region).freePages = 0
      · rw [words, if_pos hzero] at hword
        cases hword
      · rw [words, if_neg hzero] at hword
        exact PageList.allocWords_in hshape hword
  | free pfn =>
    refine ⟨fun _ hreturned ↦ ?_, fun _ hreturned ↦ ?_, fun _ _ hreturned ↦ ?_,
      fun _ hword ↦ PageList.freeWords_in hshape hword⟩ <;> cases hreturned

theorem Ok.step {s : Shares} (h : s.Ok) (c : Region × RegionCall) (hadmissible : s.Admissible c) :
    (Shares.step c s).Ok := by
  obtain ⟨region, call⟩ := c
  cases call with
  | alloc =>
    refine ⟨regionsOk_osPfnAlloc region h.regions_ok, fun other pfn hpfn ↦ ?_⟩
    unfold Shares.step at hpfn
    simp only at hpfn
    split at hpfn
    · exact h.usable other pfn hpfn
    · rename_i hne
      by_cases heq : other = region
      · subst other
        rw [Function.update_self, Multiset.mem_cons] at hpfn
        rcases hpfn with rfl | hold
        · exact osPfnAlloc_usable h.regions_ok hne
        · exact h.usable region pfn hold
      · rw [Function.update_of_ne heq] at hpfn
        exact h.usable other pfn hpfn
  | free freed =>
    have hheld := h.usable region freed (hadmissible freed rfl)
    refine ⟨regionsOk_osPfnFree h.regions_ok (Or.inr hheld), fun other pfn hpfn ↦ ?_⟩
    unfold Shares.step at hpfn
    simp only at hpfn
    by_cases heq : other = region
    · subst other
      rw [Function.update_self] at hpfn
      exact h.usable region pfn (Multiset.mem_of_mem_erase hpfn)
    · rw [Function.update_of_ne heq] at hpfn
      exact h.usable other pfn hpfn

/-- Over every interleaving of allocations and frees of held frames in the three regions, each call returns a frame
of its own region, if any, and stays within the region's bitmap. -/
theorem within_of_admissible (phys : PhysMem) (apicBase : ApicBase) (calls : List (Region × RegionCall))
    (hadmissible : Along step Admissible (boot phys apicBase) calls) :
    ∀ before c later, calls = before ++ c :: later → (run step (boot phys apicBase) before).Within c := by
  rintro before c later rfl
  have hok := hadmissible.of_append.1.invariant (ok_boot phys apicBase)
    fun s c hok hadmissible ↦ hok.step c hadmissible
  exact hok.within c

theorem within_of_admissible_interleaved :
    (run step (boot (fun _ _ ↦ 0) .reset) [(.user, .alloc), (.osPt, .alloc), (.user, .free 0x6404)]).Within
      (.osDs, .alloc) := by
  refine within_of_admissible _ _ [(.user, .alloc), (.osPt, .alloc), (.user, .free 0x6404), (.osDs, .alloc)]
    ?_ [(.user, .alloc), (.osPt, .alloc), (.user, .free 0x6404)] (.osDs, .alloc) [] rfl
  refine .cons (fun _ hfree ↦ by cases hfree) (.cons (fun _ hfree ↦ by cases hfree) (.cons ?_
    (.cons (fun _ hfree ↦ by cases hfree) (.nil _))))
  rintro pfn hfree
  cases hfree
  decide +kernel

end Shares

end GemOS
