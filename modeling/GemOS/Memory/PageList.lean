import GemOS.Foundation.Bitmap

/-!
# Page lists

`memory.c` manages three physical regions. Each has a `struct page_list` whose bitmap occupies the
first pages of the region itself; `init_pagelist` marks those pages used. This module is the part of
the allocator that touches only one list: the bitmap macros, `init_pagelist`, `get_free_page` and the
body of `os_page_free`. Frame numbers and the `u32` counters are naturals, reduced modulo `2^32`
where the source can wrap.
-/

namespace GemOS

def pageSize : ℕ := 4096
def pageShift : ℕ := 12

def regionOsDsStart : ℕ := 0x800000
def regionOsPtStart : ℕ := 0x2000000
def regionUserStart : ℕ := 0x6400000
def endMem : ℕ := 0x20000000

inductive Region where
  | osDs
  | osPt
  | user
  deriving DecidableEq, Repr

/-- `struct page_list`; `bitmap` is the word array at `startAddress`. -/
structure PageList where
  type : Region
  size : ℕ
  freePages : ℕ
  lastFreePos : ℕ
  startAddress : ℕ
  bitmap : Foundation.BitTable 32

namespace PageList

open Foundation

/-- `pgl_bmap_set`: word `i >> 5`, bit `i - (word << 5)`. -/
def bmapSet (bitmap : BitTable 32) (i : ℕ) : BitTable 32 :=
  Function.update bitmap (i >>> 5) (bitmap (i >>> 5) ||| (1#32 <<< (i - (i >>> 5) <<< 5)))

/-- `pgl_bmap_clear`, with the xor form of `clear_bit`. -/
def bmapClear (bitmap : BitTable 32) (i : ℕ) : BitTable 32 :=
  Function.update bitmap (i >>> 5)
    (bitmap (i >>> 5) ^^^
      (((bitmap (i >>> 5) >>> (i - (i >>> 5) <<< 5)) &&& 1#32) <<< (i - (i >>> 5) <<< 5)))

theorem shiftRight_five (i : ℕ) : i >>> 5 = i / 32 := Nat.shiftRight_eq_div_pow i 5

theorem sub_word_base (i : ℕ) : i - (i >>> 5) <<< 5 = i % 32 := by
  rw [shiftRight_five, Nat.shiftLeft_eq]
  omega

theorem bmapSet_eq_insert (bitmap : BitTable 32) (i : ℕ) : bmapSet bitmap i = bitmap.insert i := by
  unfold bmapSet BitTable.insert
  rw [sub_word_base, shiftRight_five]

theorem bmapClear_eq_erase (bitmap : BitTable 32) (i : ℕ) : bmapClear bitmap i = bitmap.erase i := by
  unfold bmapClear BitTable.erase
  rw [sub_word_base, shiftRight_five]

@[simp]
theorem test_bmapSet (bitmap : BitTable 32) (i j : ℕ) :
    (bmapSet bitmap i).test j = (bitmap.test j || decide (j = i)) := by
  rw [bmapSet_eq_insert, BitTable.test_insert (by norm_num)]

@[simp]
theorem test_bmapClear (bitmap : BitTable 32) (i j : ℕ) :
    (bmapClear bitmap i).test j = (bitmap.test j && !decide (j = i)) := by
  rw [bmapClear_eq_erase, BitTable.test_erase (by norm_num)]

/-- The number of pages that hold the bitmap of a region of `size` pages. -/
def pagesToReserve (size : ℕ) : ℕ :=
  let bytes := size >>> 3
  if (bytes >>> pageShift) <<< pageShift = bytes then bytes >>> pageShift
  else bytes >>> pageShift + 1

/-- The bits `0, …, count - 1` set over zeroed memory. -/
def reserve : ℕ → BitTable 32
  | 0 => fun _ ↦ 0#32
  | count + 1 => bmapSet (reserve count) count

theorem test_reserve (count i : ℕ) : (reserve count).test i = decide (i < count) := by
  induction count with
  | zero => simp [reserve, BitTable.test]
  | succ count ih =>
    rw [reserve, test_bmapSet, ih]
    by_cases hi : i = count
    · simp [hi]
    · have : i < count + 1 ↔ i < count := by omega
      simp [hi, this]

/-- `init_pagelist` over zeroed boot memory. -/
def initPagelist (type : Region) (start stop : ℕ) : PageList where
  type := type
  size := (stop - start) >>> pageShift
  freePages := (stop - start) >>> pageShift - pagesToReserve ((stop - start) >>> pageShift)
  lastFreePos := pagesToReserve ((stop - start) >>> pageShift) >>> 5
  startAddress := start
  bitmap := reserve (pagesToReserve ((stop - start) >>> pageShift))

def sizeInU32 (pgl : PageList) : ℕ := pgl.size >>> 8

/-- The word cursor after the `while` loop of `get_free_page`. -/
def scanStop (pgl : PageList) : ℕ :=
  pgl.bitmap.skipFull pgl.sizeInU32 (pgl.sizeInU32 - pgl.lastFreePos) pgl.lastFreePos

/-- The cursor after the wrap to word 0 at the bound. -/
def scanPos (pgl : PageList) : ℕ :=
  if pgl.scanStop ≥ pgl.sizeInU32 then 0 else pgl.scanStop

/-- The bit index `get_free_page` settles on; the search of a full word yields `32`. -/
def scanIndex (pgl : PageList) : ℕ :=
  (pgl.scanPos <<< 5) + BitTable.firstClear (pgl.bitmap pgl.scanPos) 32 0

/-- `get_free_page`: the frame number and the list afterwards. -/
def getFreePage (pgl : PageList) : ℕ × PageList :=
  (pgl.scanIndex + pgl.startAddress >>> pageShift,
    { pgl with
      bitmap := bmapSet pgl.bitmap pgl.scanIndex
      lastFreePos := pgl.scanPos
      freePages := pgl.freePages - 1 })

/-- `os_page_free` on the page at physical address `paddress`; an address outside the region, or the
first page of the region, is refused. -/
def osPageFree (pgl : PageList) (paddress : ℕ) : PageList :=
  if paddress ≤ pgl.startAddress ∨
      paddress ≥ pgl.startAddress + (pgl.size <<< 12) % 2 ^ 32 then pgl
  else
    { pgl with
      bitmap := bmapClear pgl.bitmap (((paddress - pgl.startAddress) >>> pageShift) % 2 ^ 32)
      freePages := (pgl.freePages + 1) % 2 ^ 32 }

/-- A frame is allocated when it lies in the region and its bit is set. -/
def allocated (pgl : PageList) (pfn : ℕ) : Bool :=
  decide (pgl.startAddress >>> pageShift ≤ pfn) &&
    decide (pfn < pgl.startAddress >>> pageShift + pgl.size) &&
      pgl.bitmap.test (pfn - pgl.startAddress >>> pageShift)

/-- A frame is available when it lies in the region and its bit is clear. -/
def available (pgl : PageList) (pfn : ℕ) : Bool :=
  decide (pgl.startAddress >>> pageShift ≤ pfn) &&
    decide (pfn < pgl.startAddress >>> pageShift + pgl.size) &&
      !pgl.bitmap.test (pfn - pgl.startAddress >>> pageShift)

end PageList

/-- `init_pagelists`. -/
def initPagelists : Region → PageList
  | .osDs => PageList.initPagelist .osDs regionOsDsStart regionOsPtStart
  | .osPt => PageList.initPagelist .osPt regionOsPtStart regionUserStart
  | .user => PageList.initPagelist .user regionUserStart endMem

namespace Region

/-- First frame of a region. -/
def base : Region → ℕ
  | .osDs => 0x800
  | .osPt => 0x2000
  | .user => 0x6400

/-- Number of frames of a region. -/
def frames : Region → ℕ
  | .osDs => 6144
  | .osPt => 17408
  | .user => 105472

/-- Number of bitmap frames of a region. -/
def reserved : Region → ℕ
  | .osDs => 1
  | .osPt => 1
  | .user => 4

end Region

end GemOS
