import GemOS.Memory.Grant
import Mathlib.Data.Nat.Bitwise

/-!
# Page-table indices and entries

The masks and shifts with which the source takes an address apart, the three ways it reads the frame
out of an entry, and what these compute on an entry of the form `(pfn << 12) | flags`. The pages of
a user segment share entry `0` of the first level and use the entries `4, …, 31` of the second;
`UserSlot` and `KernelTableSlot` record which slots a page table of this kernel uses for what.
-/

namespace GemOS

def pgdMask : ℕ := 0xff8000000000
def pudMask : ℕ := 0x7fc0000000
def pmdMask : ℕ := 0x3fe00000
def pteMask : ℕ := 0x1ff000

def pgdShift : ℕ := 39
def pudShift : ℕ := 30
def pmdShift : ℕ := 21
def pteShift : ℕ := 12

def flagMask : ℕ := 0x3ffffffff000

/-- Number of 2 MB entries of the identity window. -/
def osPtMaps : ℕ := 64

def pgdIndex (addr : ℕ) : ℕ := (addr &&& pgdMask) >>> pgdShift
def pudIndex (addr : ℕ) : ℕ := (addr &&& pudMask) >>> pudShift
def pmdIndex (addr : ℕ) : ℕ := (addr &&& pmdMask) >>> pmdShift
def pteIndex (addr : ℕ) : ℕ := (addr &&& pteMask) >>> pteShift

theorem and_shiftedMask (x n s : ℕ) : (x &&& ((2 ^ n - 1) <<< s)) >>> s = x / 2 ^ s % 2 ^ n := by
  rw [Nat.shiftRight_and_distrib, Nat.shiftLeft_shiftRight, Nat.and_two_pow_sub_one_eq_mod,
    Nat.shiftRight_eq_div_pow]

theorem pgdIndex_eq (addr : ℕ) : pgdIndex addr = addr / 2 ^ 39 % 512 :=
  and_shiftedMask addr 9 39

theorem pudIndex_eq (addr : ℕ) : pudIndex addr = addr / 2 ^ 30 % 512 :=
  and_shiftedMask addr 9 30

theorem pmdIndex_eq (addr : ℕ) : pmdIndex addr = addr / 2 ^ 21 % 512 :=
  and_shiftedMask addr 9 21

theorem pteIndex_eq (addr : ℕ) : pteIndex addr = addr / 2 ^ 12 % 512 :=
  and_shiftedMask addr 9 12

/-- The entry `(pfn << PAGE_SHIFT) | flags`. -/
def makeEntry (pfn flags : ℕ) : ℕ := (pfn <<< pageShift) ||| flags

theorem makeEntry_eq {pfn flags : ℕ} (hflags : flags < 4096) : makeEntry pfn flags = pfn * 4096 + flags := by
  rw [makeEntry, pageShift, ← Nat.shiftLeft_add_eq_or_of_lt (by simpa using hflags), Nat.shiftLeft_eq]

theorem makeEntry_shiftRight {pfn flags : ℕ} (hflags : flags < 4096) :
    makeEntry pfn flags >>> 12 = pfn := by
  rw [makeEntry_eq hflags, Nat.shiftRight_eq_div_pow]
  omega

theorem makeEntry_ne_zero {pfn flags : ℕ} (hflags : flags < 4096) (hne : flags ≠ 0) :
    makeEntry pfn flags ≠ 0 := by
  rw [makeEntry_eq hflags]
  omega

/-- A test against low bits of an entry is a test of its flags. -/
theorem makeEntry_and {pfn flags bits : ℕ} (hbits : bits < 4096) :
    makeEntry pfn flags &&& bits = flags &&& bits := by
  refine Nat.eq_of_testBit_eq fun k ↦ ?_
  rw [Nat.testBit_and, Nat.testBit_and, makeEntry, pageShift, Nat.testBit_or, Nat.testBit_shiftLeft]
  by_cases hk : k < 12
  · simp [show ¬ 12 ≤ k by omega]
  · have hpow : 2 ^ 12 ≤ 2 ^ k := Nat.pow_le_pow_right (by norm_num) (not_lt.1 hk)
    rw [Nat.testBit_lt_two_pow (hbits.trans_le hpow)]
    simp

theorem frame_of_flagMask (e : ℕ) : (e &&& flagMask) >>> 12 = e / 2 ^ 12 % 2 ^ 34 :=
  and_shiftedMask e 34 12

theorem frame_of_lowWord (e : ℕ) : (e >>> pteShift) &&& 0xffffffff = e / 2 ^ 12 % 2 ^ 32 := by
  rw [show (0xffffffff : ℕ) = 2 ^ 32 - 1 from rfl, Nat.and_two_pow_sub_one_eq_mod,
    Nat.shiftRight_eq_div_pow, pteShift]

/-- The table an entry links: a present entry that is not a 2 MB page. -/
def tableOf (e : ℕ) : Option ℕ :=
  if e &&& 0x1 = 0 ∨ e &&& 0x80 ≠ 0 then none else some (e / 2 ^ 12 % 2 ^ 32)

theorem tableOf_zero : tableOf 0 = none := by simp [tableOf]

/-- Flags of the entries for user tables and pages: present and user, with or without write. -/
def UserFlags (flags : ℕ) : Prop := flags = 0x5 ∨ flags = 0x7

/-- Flags of an entry that links a table: user, or present and writable for the kernel only. -/
def TableFlags (flags : ℕ) : Prop := UserFlags flags ∨ flags = 0x3

theorem UserFlags.tableFlags {flags : ℕ} (h : UserFlags flags) : TableFlags flags := Or.inl h

theorem TableFlags.lt {flags : ℕ} (h : TableFlags flags) : flags < 4096 := by
  rcases h with (rfl | rfl) | rfl <;> decide

theorem TableFlags.present {flags : ℕ} (pfn : ℕ) (h : TableFlags flags) :
    makeEntry pfn flags &&& 0x1 = 1 := by
  rw [makeEntry_and (by decide)]
  rcases h with (rfl | rfl) | rfl <;> decide

theorem TableFlags.small {flags : ℕ} (pfn : ℕ) (h : TableFlags flags) :
    makeEntry pfn flags &&& 0x80 = 0 := by
  rw [makeEntry_and (by decide)]
  rcases h with (rfl | rfl) | rfl <;> decide

theorem TableFlags.ne_zero {flags : ℕ} (pfn : ℕ) (h : TableFlags flags) : makeEntry pfn flags ≠ 0 :=
  makeEntry_ne_zero h.lt (by rcases h with (rfl | rfl) | rfl <;> decide)

theorem UserFlags.user {flags : ℕ} (pfn : ℕ) (h : UserFlags flags) :
    makeEntry pfn flags &&& 0x4 = 4 := by
  rw [makeEntry_and (by decide)]
  rcases h with rfl | rfl <;> decide

theorem UserFlags.testBit {flags : ℕ} (pfn : ℕ) (h : UserFlags flags) :
    (makeEntry pfn flags).testBit 2 = true := by
  rw [makeEntry, pageShift, Nat.testBit_or, Nat.testBit_shiftLeft]
  rcases h with rfl | rfl <;> simp <;> decide

theorem makeEntry_frame {flags : ℕ} (pfn : ℕ) (hflags : flags < 4096) :
    makeEntry pfn flags / 2 ^ 12 = pfn := by
  rw [← Nat.shiftRight_eq_div_pow, makeEntry_shiftRight hflags]

theorem tableOf_makeEntry {pfn flags : ℕ} (hpfn : pfn < 2 ^ 32) (hflags : TableFlags flags) :
    tableOf (makeEntry pfn flags) = some pfn := by
  rw [tableOf, hflags.present, hflags.small, if_neg (by decide), makeEntry_frame pfn hflags.lt,
    Nat.mod_eq_of_lt hpfn]

/-- The 2 MB page of the APIC. -/
def ApicBase.hugePage (apic : ApicBase) : ℕ := (apic.value >>> 21) <<< 21

theorem ApicBase.hugePage_eq (apic : ApicBase) : apic.hugePage = apic.value / 2097152 * 2097152 := by
  unfold ApicBase.hugePage
  omega

/-- Addresses between the lowest and the highest user segment. -/
def UserAddr (addr : ℕ) : Prop := 0x100000000 ≤ addr ∧ addr < 0x800000000

instance (addr : ℕ) : Decidable (UserAddr addr) := by
  unfold UserAddr
  infer_instance

/-- The slots on the way to a page of a user segment. -/
def UserSlot : List ℕ → ℕ → Prop
  | [], i => i = 0
  | [a], i => a = 0 ∧ 4 ≤ i ∧ i < 32
  | [a, b], _ => a = 0 ∧ 4 ≤ b ∧ b < 32
  | [a, b, _], _ => a = 0 ∧ 4 ≤ b ∧ b < 32
  | _ :: _ :: _ :: _ :: _, _ => False

/-- The slots that link tables of the identity window and of the APIC page. -/
inductive KernelTableSlot (apic : ApicBase) : List ℕ → ℕ → Prop
  | window : KernelTableSlot apic [0] 0
  | apicPud : pgdIndex apic.hugePage ≠ 0 → KernelTableSlot apic [] (pgdIndex apic.hugePage)
  | apicPmd : KernelTableSlot apic [pgdIndex apic.hugePage] (pudIndex apic.hugePage)

/-- Flags of a 2 MB kernel page: present, writable, not user; global bits by configuration. -/
def KernelFlags (flags : ℕ) : Prop := flags = 0x83 ∨ flags = 0x183 ∨ flags = 0x183 ||| (1 <<< 52)

/-- The 2 MB pages of the kernel, each mapping its address to itself. -/
inductive KernelPageSlot (apic : ApicBase) : List ℕ → ℕ → ℕ → Prop
  | window (i : ℕ) : i < osPtMaps → KernelPageSlot apic [0, 0] i (i <<< 21)
  | apic : KernelPageSlot apic [pgdIndex apic.hugePage, pudIndex apic.hugePage]
      (pmdIndex apic.hugePage) apic.hugePage

/-- What the entry at a slot of a page table may be. -/
inductive EntryOk (apic : ApicBase) : List ℕ → ℕ → ℕ → Prop
  | empty (path : List ℕ) (i : ℕ) : EntryOk apic path i 0
  | userTable {path : List ℕ} {i pfn flags : ℕ} (slot : UserSlot path i) (short : path.length < 3)
      (small : pfn < 2 ^ 32) (flags_ok : UserFlags flags) : EntryOk apic path i (makeEntry pfn flags)
  | userPage {path : List ℕ} {i pfn flags : ℕ} (slot : UserSlot path i) (last : path.length = 3)
      (usable : Region.user.Usable pfn) (flags_ok : UserFlags flags) :
      EntryOk apic path i (makeEntry pfn flags)
  | kernelTable {path : List ℕ} {i pfn : ℕ} (slot : KernelTableSlot apic path i)
      (small : pfn < 2 ^ 32) : EntryOk apic path i (makeEntry pfn 0x3)
  | kernelPage {path : List ℕ} {i base flags : ℕ} (slot : KernelPageSlot apic path i base)
      (flags_ok : KernelFlags flags) : EntryOk apic path i (base ||| flags)

end GemOS
