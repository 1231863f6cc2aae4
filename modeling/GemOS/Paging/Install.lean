import GemOS.Paging.Write

/-!
# Installing user pages

Three functions of the source map user pages: `install_ptable` and `install_ptable_multi` at launch
and fork, `install_page_table` on a page fault. Together with the code for kernel mappings they share
one step, `linkTable`: read an entry, follow it when it links a table, else allocate a frame and link
it. The variants differ in the test, in the way they read the frame out of the entry, in the flags of
a new entry, and in whether the new table is cleared a second time; `TableStyle` records that.
-/

namespace GemOS

open Foundation TableForest Memory

/-- How a function of the source descends one level. -/
structure TableStyle where
  present : ℕ → Bool
  frame : ℕ → ℕ
  flags : ℕ
  clears : Bool

/-- One level: the frame of the next table. -/
def linkTable (style : TableStyle) (table index : ℕ) (m : Memory) : ℕ × Memory :=
  if style.present (m.phys table index) then (style.frame (m.phys table index), m)
  else
    let granted := osPfnAlloc .osPt m
    let linked := granted.2.writeEntry table index (makeEntry granted.1 style.flags)
    (granted.1, if style.clears then linked.zeroFrame granted.1 else linked)

/-- Several levels, along a path of indices. -/
def linkTables (style : TableStyle) : List ℕ → ℕ → Memory → ℕ × Memory
  | [], table, m => (table, m)
  | index :: path, table, m =>
    linkTables style path (linkTable style table index m).1 (linkTable style table index m).2

/-- The levels of `install_ptable` and `install_ptable_multi`. -/
def ptableStyle : TableStyle where
  present e := decide (e ≠ 0)
  frame e := (e &&& flagMask) >>> pageShift
  flags := 0x7
  clears := true

/-- The levels of `install_page_table`, with the access flags of the fault. -/
def pageTableStyle (errorCode : ℕ) : TableStyle where
  present e := decide (e &&& 0x1 ≠ 0)
  frame e := (e >>> pteShift) &&& 0xffffffff
  flags := 0x5 ||| (errorCode &&& 0x2)
  clears := false

/-- The levels of `install_os_pts`. -/
def osPtsStyle : TableStyle where
  present e := decide (e ≠ 0)
  frame e := (e &&& flagMask) >>> pageShift
  flags := 0x3
  clears := false

/-- The levels of `install_apic_mapping`. -/
def apicStyle : TableStyle where
  present e := decide (e &&& 0x1 ≠ 0)
  frame e := ((e >>> pageShift) <<< pageShift) >>> pageShift
  flags := 0x3
  clears := false

/-- `(pfn << PAGE_SHIFT) | 0x5`, then `|= 0x2` for a writable page. -/
def userPageEntry (pfn : ℕ) (write : Bool) : ℕ :=
  if write then makeEntry pfn 0x5 ||| 0x2 else makeEntry pfn 0x5

/-- `install_ptable`: the frame mapped, which is `upfn` unless that is `0`. -/
def installPtable (base : ℕ) (mm : MmSegment) (address upfn : ℕ) (m : Memory) : ℕ × Memory :=
  let addr := if address = 0 then mm.start else address
  let tables := linkTables ptableStyle (tablePath addr) base m
  let page := if upfn = 0 then osPfnAlloc .user tables.2 else (upfn, tables.2)
  (page.1, page.2.writeEntry tables.1 (pteIndex addr) (userPageEntry page.1 mm.writable))

/-- The loop of `install_ptable_multi` from `ctr` on. -/
def fillPtes (table index startPfn : ℕ) (write : Bool) : ℕ → ℕ → Memory → Memory
  | _, 0, m => m
  | ctr, remaining + 1, m =>
    let page := if ctr = 0 then (startPfn, m) else osPfnAlloc .user m
    fillPtes table index startPfn write (ctr + 1) remaining
      (page.2.writeEntry table (index + ctr) (userPageEntry page.1 write))

/-- `install_ptable_multi`: the first of `count` frames, one for each entry from that of `start` on. -/
def installPtableMulti (pgd start count : ℕ) (write : Bool) (m : Memory) : ℕ × Memory :=
  let tables := linkTables ptableStyle (tablePath start) pgd m
  let first := osPfnAlloc .user tables.2
  (first.1, fillPtes tables.1 (pteIndex start) first.1 write 0 count first.2)

/-- `install_page_table`, for a page fault at `addr`. -/
def installPageTable (pgd addr errorCode : ℕ) (m : Memory) : Memory :=
  let tables := linkTables (pageTableStyle errorCode) (tablePath addr) pgd m
  let page := osPfnAlloc .user tables.2
  page.2.writeEntry tables.1 (pteIndex addr) (makeEntry page.1 (pageTableStyle errorCode).flags)

/-- `do_unmap_user`: `-1` when the page is not mapped. -/
def doUnmapUser (pgd addr : ℕ) (m : Memory) : ℤ × Memory :=
  match getUserPte m.phys pgd addr with
  | none => (-1, m)
  | some (pte, index) =>
    (0, (osPfnFree .user ((m.phys pte index >>> pteShift) &&& 0xffffffff) m).writeEntry pte index 0)

/-- A style reads back the entries it may meet. -/
structure TableStyle.Sound (style : TableStyle) : Prop where
  present_zero : style.present 0 = false
  present_entry : ∀ {pfn flags}, TableFlags flags → style.present (makeEntry pfn flags) = true
  frame_entry : ∀ {pfn flags}, pfn < 2 ^ 32 → TableFlags flags → style.frame (makeEntry pfn flags) = pfn

theorem frame_flagMask_makeEntry {pfn flags : ℕ} (hpfn : pfn < 2 ^ 32) (hflags : TableFlags flags) :
    (makeEntry pfn flags &&& flagMask) >>> pageShift = pfn := by
  rw [pageShift, frame_of_flagMask, makeEntry_frame pfn hflags.lt,
    Nat.mod_eq_of_lt (hpfn.trans (by norm_num))]

theorem frame_lowWord_makeEntry {pfn flags : ℕ} (hpfn : pfn < 2 ^ 32) (hflags : TableFlags flags) :
    (makeEntry pfn flags >>> pteShift) &&& 0xffffffff = pfn := by
  rw [frame_of_lowWord, makeEntry_frame pfn hflags.lt, Nat.mod_eq_of_lt hpfn]

theorem present_makeEntry {pfn flags : ℕ} (hflags : TableFlags flags) :
    decide (makeEntry pfn flags &&& 0x1 ≠ 0) = true := by
  rw [hflags.present]
  rfl

theorem ptableStyle_sound : ptableStyle.Sound where
  present_zero := rfl
  present_entry hflags := decide_eq_true (hflags.ne_zero _)
  frame_entry := frame_flagMask_makeEntry

theorem pageTableStyle_sound (errorCode : ℕ) : (pageTableStyle errorCode).Sound where
  present_zero := rfl
  present_entry := present_makeEntry
  frame_entry := frame_lowWord_makeEntry

theorem osPtsStyle_sound : osPtsStyle.Sound where
  present_zero := rfl
  present_entry hflags := decide_eq_true (hflags.ne_zero _)
  frame_entry := frame_flagMask_makeEntry

theorem apicStyle_sound : apicStyle.Sound where
  present_zero := rfl
  present_entry := present_makeEntry
  frame_entry hpfn hflags := by
    simp only [apicStyle, pageShift, Nat.shiftLeft_shiftRight]
    rw [Nat.shiftRight_eq_div_pow, makeEntry_frame _ hflags.lt]

/-- The write bit of the fault decides the flags. -/
theorem pageTableStyle_flags (errorCode : ℕ) :
    (pageTableStyle errorCode).flags = if errorCode.testBit 1 then 0x7 else 0x5 := by
  have hand := Nat.and_two_pow errorCode 1
  simp only [pageTableStyle]
  rw [show (0x2 : ℕ) = 2 ^ 1 from rfl, hand]
  cases errorCode.testBit 1 <;> rfl

theorem userFlags_pageTableStyle (errorCode : ℕ) : UserFlags (pageTableStyle errorCode).flags := by
  rw [pageTableStyle_flags]
  split
  · exact Or.inr rfl
  · exact Or.inl rfl

theorem userPageEntry_eq (pfn : ℕ) (write : Bool) :
    userPageEntry pfn write = makeEntry pfn (if write then 0x7 else 0x5) := by
  cases write
  · rfl
  · simp only [userPageEntry, makeEntry, if_true, Nat.lor_assoc]
    rfl

theorem userFlags_page (write : Bool) : UserFlags (if write then 0x7 else 0x5) := by
  cases write
  · exact Or.inl rfl
  · exact Or.inr rfl

/-- A slot for links, with the flags a link there has. -/
def LinkSlot (apic : ApicBase) (path : List ℕ) (i flags : ℕ) : Prop :=
  (UserSlot path i ∧ UserFlags flags) ∨ (KernelTableSlot apic path i ∧ flags = 0x3)

theorem LinkSlot.tableFlags {apic : ApicBase} {path : List ℕ} {i flags : ℕ}
    (h : LinkSlot apic path i flags) : TableFlags flags := by
  rcases h with ⟨-, hflags⟩ | ⟨-, hflags⟩
  · exact Or.inl hflags
  · exact Or.inr hflags

theorem LinkSlot.entry_ok {apic : ApicBase} {path : List ℕ} {i flags pfn : ℕ}
    (h : LinkSlot apic path i flags) (hshort : path.length < 3) (hpfn : pfn < 2 ^ 32) :
    EntryOk apic path i (makeEntry pfn flags) := by
  rcases h with ⟨hslot, hflags⟩ | ⟨hslot, rfl⟩
  · exact .userTable hslot hshort hpfn hflags
  · exact .kernelTable hslot hpfn

/-- A slot for links is empty or links a table. -/
theorem LinkSlot.table {apic : ApicBase} {path : List ℕ} {i flags e : ℕ}
    (h : LinkSlot apic path i flags) (hshort : path.length < 3) (hok : EntryOk apic path i e) :
    e = 0 ∨ ∃ pfn flags', pfn < 2 ^ 32 ∧ TableFlags flags' ∧ e = makeEntry pfn flags' := by
  cases hok with
  | empty => exact Or.inl rfl
  | userTable _ _ hsmall hflags => exact Or.inr ⟨_, _, hsmall, hflags.tableFlags, rfl⟩
  | userPage _ hlast => omega
  | kernelTable _ hsmall => exact Or.inr ⟨_, _, hsmall, Or.inr rfl, rfl⟩
  | kernelPage hpage =>
    exfalso
    rcases h with ⟨hslot, -⟩ | ⟨hslot, -⟩
    · exact hslot.not_kernelPage hpage
    · exact absurd hpage.length_eq hslot.length_lt.ne

end GemOS
