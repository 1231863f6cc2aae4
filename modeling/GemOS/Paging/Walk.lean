import GemOS.Paging.Entry

/-!
# Reading page tables

`getUserPte` is the walk of the kernel, which asks for the present and user bits at each level;
`hwWalk` is the walk of the processor, with 2 MB pages at the third level, which also collects the
write permission. Both read the tables straight from physical memory.
-/

namespace GemOS

/-- `get_user_pte`: the frame and index of the page-table entry, `none` for `NULL`. -/
def getUserPte (phys : PhysMem) (pgd addr : ℕ) : Option (ℕ × ℕ) :=
  let pgdEntry := phys pgd (pgdIndex addr)
  let pudEntry := phys ((pgdEntry >>> pteShift) &&& 0xffffffff) (pudIndex addr)
  let pmdEntry := phys ((pudEntry >>> pteShift) &&& 0xffffffff) (pmdIndex addr)
  let pte := (pmdEntry >>> pteShift) &&& 0xffffffff
  if pgdEntry &&& 0x1 = 0 ∨ pgdEntry &&& 0x4 = 0 then none
  else if pudEntry &&& 0x1 = 0 ∨ pudEntry &&& 0x4 = 0 then none
  -- the source compares the huge-page bit with 1, which no entry satisfies
  else if pmdEntry &&& 0x1 = 0 ∨ pmdEntry &&& 0x4 = 0 ∨ pmdEntry &&& 0x80 = 1 then none
  else if phys pte (pteIndex addr) &&& 0x1 = 0 ∨ phys pte (pteIndex addr) &&& 0x4 = 0 then none
  else some (pte, pteIndex addr)

/-- Where an address is mapped, and with which rights. -/
structure Mapping where
  pfn : ℕ
  user : Bool
  writable : Bool
  deriving DecidableEq

/-- The frame an entry names for the processor, bits 12 to 51. -/
def hwFrame (e : ℕ) : ℕ := e / 2 ^ 12 % 2 ^ 40

theorem hwFrame_makeEntry {pfn flags : ℕ} (hpfn : pfn < 2 ^ 32) (hflags : flags < 4096) :
    hwFrame (makeEntry pfn flags) = pfn := by
  rw [hwFrame, makeEntry_frame pfn hflags, Nat.mod_eq_of_lt (hpfn.trans (by norm_num))]

/-- The processor's translation out of the entries of the four levels; the last one is not looked at
when the third is a 2 MB page. -/
def hwTranslate (pteIdx pgdEntry pudEntry pmdEntry pte : ℕ) : Option Mapping :=
  if pgdEntry &&& 0x1 = 0 ∨ pudEntry &&& 0x1 = 0 ∨ pmdEntry &&& 0x1 = 0 then none
  else if pmdEntry &&& 0x80 ≠ 0 then
    some
      { pfn := hwFrame pmdEntry / 512 * 512 + pteIdx
        user := pgdEntry.testBit 2 && pudEntry.testBit 2 && pmdEntry.testBit 2
        writable := pgdEntry.testBit 1 && pudEntry.testBit 1 && pmdEntry.testBit 1 }
  else if pte &&& 0x1 = 0 then none
  else
    some
      { pfn := hwFrame pte
        user := pgdEntry.testBit 2 && pudEntry.testBit 2 && pmdEntry.testBit 2 && pte.testBit 2
        writable := pgdEntry.testBit 1 && pudEntry.testBit 1 && pmdEntry.testBit 1 && pte.testBit 1 }

theorem hwTranslate_absent {pteIdx pgdEntry pudEntry pmdEntry pte : ℕ}
    (h : pgdEntry &&& 0x1 = 0 ∨ pudEntry &&& 0x1 = 0 ∨ pmdEntry &&& 0x1 = 0) :
    hwTranslate pteIdx pgdEntry pudEntry pmdEntry pte = none := if_pos h

/-- Below a 2 MB page nothing is read. -/
theorem hwTranslate_huge {pteIdx pgdEntry pudEntry pmdEntry pte pte' : ℕ} (h : ¬ pmdEntry &&& 0x80 = 0) :
    hwTranslate pteIdx pgdEntry pudEntry pmdEntry pte =
      hwTranslate pteIdx pgdEntry pudEntry pmdEntry pte' := by
  unfold hwTranslate
  rw [if_pos (show pmdEntry &&& 0x80 ≠ 0 from h), if_pos (show pmdEntry &&& 0x80 ≠ 0 from h)]

/-- The hardware four-level walk of `addr` from the table `pgd`. -/
def hwWalk (phys : PhysMem) (pgd addr : ℕ) : Option Mapping :=
  let pgdEntry := phys pgd (pgdIndex addr)
  let pudEntry := phys (hwFrame pgdEntry) (pudIndex addr)
  let pmdEntry := phys (hwFrame pudEntry) (pmdIndex addr)
  let pte := phys (hwFrame pmdEntry) (pteIndex addr)
  hwTranslate (pteIndex addr) pgdEntry pudEntry pmdEntry pte

/-- Addresses whose bits 48 to 63 repeat bit 47. -/
def Canonical (addr : ℕ) : Prop := addr < 2 ^ 47 ∨ (2 ^ 64 - 2 ^ 47 ≤ addr ∧ addr < 2 ^ 64)

instance (addr : ℕ) : Decidable (Canonical addr) := by
  unfold Canonical
  infer_instance

/-- User mode may make the access. -/
def Mapping.UserMay (mapping : Mapping) (write : Bool) : Prop :=
  mapping.user = true ∧ (write = true → mapping.writable = true)

/-- The kernel may make the access; without the write-protect bit it may write anywhere. -/
def Mapping.KernelMay (mapping : Mapping) (wp write : Bool) : Prop :=
  write = true → wp = true → mapping.writable = true

instance (mapping : Mapping) (write : Bool) : Decidable (mapping.UserMay write) := by
  unfold Mapping.UserMay
  infer_instance

instance (mapping : Mapping) (wp write : Bool) : Decidable (mapping.KernelMay wp write) := by
  unfold Mapping.KernelMay
  infer_instance

/-- The byte at `addr` is accessible to user mode through the table `pgd`. -/
def UserAccessible (phys : PhysMem) (pgd addr : ℕ) (write : Bool) : Prop :=
  Canonical addr ∧ ∃ mapping, hwWalk phys pgd addr = some mapping ∧ mapping.UserMay write

instance (phys : PhysMem) (pgd addr : ℕ) (write : Bool) :
    Decidable (UserAccessible phys pgd addr write) := by
  unfold UserAccessible
  rcases h : hwWalk phys pgd addr with _ | mapping
  · exact isFalse (by simp)
  · exact decidable_of_iff (Canonical addr ∧ mapping.UserMay write) (by simp)

end GemOS
