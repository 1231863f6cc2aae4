import GemOS.Memory.PageList

/-!
# Physical frames and the frame allocator

`Memory` gathers what the memory subsystem owns: the three page lists, the contents of physical
frames as 64-bit words, and the two globals of the page-table code (`os_pmd_pfn` and the APIC base
register). Kernel records such as the process table are Lean values in other modules, so a frame
here is read and written only as a page table or as a user page.

Each call of the allocator leaves an event in `trace`. The trace is not read by any function of the
model; it lets a statement speak about all allocator calls of a run.
-/

namespace GemOS

/-- Physical memory as 64-bit words: frame number, then word index `0, …, 511`. -/
abbrev PhysMem := ℕ → ℕ → ℕ

namespace PhysMem

def write (phys : PhysMem) (pfn index value : ℕ) : PhysMem := fun pfn' index' ↦
  if pfn' = pfn ∧ index' = index then value else phys pfn' index'

/-- `bzero` of one page. -/
def zero (phys : PhysMem) (pfn : ℕ) : PhysMem := fun pfn' index' ↦
  if pfn' = pfn then 0 else phys pfn' index'

/-- `memcpy` of one page between page-aligned addresses. -/
def copy (phys : PhysMem) (dst src : ℕ) : PhysMem := fun pfn' index' ↦
  if pfn' = dst then phys src index' else phys pfn' index'

end PhysMem

inductive MemEvent where
  /-- `os_pfn_alloc` returned `pfn`; `fresh` when it is a frame of the region whose bit was clear. -/
  | alloc (region : Region) (pfn : ℕ) (fresh : Bool)
  /-- `os_pfn_free` was called on `pfn`; `wasAllocated` when the frame was marked in its region. -/
  | free (region : Region) (pfn : ℕ) (wasAllocated : Bool)
  deriving DecidableEq

/-- An allocator call that handed out a frame that was not in use. -/
def MemEvent.Granted : MemEvent → Prop
  | .alloc _ _ fresh => fresh = true
  | .free _ _ _ => True

/-- A free of a frame that was allocated at that time. -/
def MemEvent.ProperFree : MemEvent → Prop
  | .alloc _ _ _ => True
  | .free _ _ wasAllocated => wasAllocated = true

instance (event : MemEvent) : Decidable event.Granted := by
  cases event <;> unfold MemEvent.Granted <;> infer_instance

instance (event : MemEvent) : Decidable event.ProperFree := by
  cases event <;> unfold MemEvent.ProperFree <;> infer_instance

/-- The physical base of the local APIC, as the firmware set it: a page above all of memory whose
2 MB page meets no user segment. -/
structure ApicBase where
  value : ℕ
  aligned : value % 4096 = 0
  canonical : value < 2 ^ 47
  above_memory : endMem ≤ (value >>> 21) <<< 21
  outside_user : value < 0x100000000 ∨ 0x800000000 ≤ value

/-- The base after a processor reset. -/
def ApicBase.reset : ApicBase where
  value := 0xfee00000
  aligned := by decide
  canonical := by decide
  above_memory := by decide
  outside_user := by decide

structure Memory where
  pglists : Region → PageList
  phys : PhysMem
  osPmdPfn : ℕ
  apicBase : ApicBase
  trace : List MemEvent

namespace Memory

/-- Memory after `init_pagelists`, whatever the frames hold. -/
def init (phys : PhysMem) (apicBase : ApicBase) : Memory where
  pglists := initPagelists
  phys := phys
  osPmdPfn := 0
  apicBase := apicBase
  trace := []

def allocated (m : Memory) (region : Region) (pfn : ℕ) : Bool := (m.pglists region).allocated pfn

/-- `os_pfn_alloc`: frame `0` when the region has no free page, and a cleared frame in the page-table
region. -/
def osPfnAlloc (region : Region) (m : Memory) : ℕ × Memory :=
  let pgl := m.pglists region
  if pgl.freePages = 0 then
    (0, { m with trace := .alloc region 0 false :: m.trace })
  else
    let pfn := pgl.getFreePage.1
    (pfn,
      { m with
        pglists := Function.update m.pglists region pgl.getFreePage.2
        phys := if region = .osPt then m.phys.zero pfn else m.phys
        trace := .alloc region pfn (pgl.available pfn) :: m.trace })

/-- `os_pfn_free`. -/
def osPfnFree (region : Region) (pfn : ℕ) (m : Memory) : Memory :=
  { m with
    pglists := Function.update m.pglists region
      ((m.pglists region).osPageFree ((pfn <<< pageShift) % 2 ^ 64))
    trace := .free region pfn (m.allocated region pfn) :: m.trace }

/-- Every allocator call so far handed out a frame not in use. -/
def AllocsGranted (m : Memory) : Prop := ∀ event ∈ m.trace, event.Granted

end Memory

end GemOS
