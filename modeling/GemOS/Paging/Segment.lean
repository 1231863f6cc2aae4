import GemOS.Paging.Tables

/-!
# Memory segments

The four segments of a process, their bounds, and the access flags that decide the write bit of
their pages.
-/

namespace GemOS

def mmRd : ℕ := 0x1
def mmWr : ℕ := 0x2
def mmEx : ℕ := 0x4

def codeStart : ℕ := 0x100000000
def rodataStart : ℕ := 0x140000000
def dataStart : ℕ := 0x180000000
def stackStart : ℕ := 0x800000000

def codePages : ℕ := 0x8

def maxStackSize : ℕ := 0x1000000

/-- Indices into `mms`. -/
inductive MmSeg where
  | code
  | rodata
  | data
  | stack
  deriving DecidableEq, Repr

/-- `struct mm_segment`. -/
structure MmSegment where
  start : ℕ
  stop : ℕ
  nextFree : ℕ
  accessFlags : ℕ
  deriving DecidableEq

/-- The segment is writable. -/
def MmSegment.writable (mm : MmSegment) : Bool := decide (mm.accessFlags &&& mmWr ≠ 0)

end GemOS
