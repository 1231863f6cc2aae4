import GemOS.Foundation.TableForest
import GemOS.Paging.Walk

/-!
# The page-table invariant

For a set of roots, `Tables` says that the tables below them form a forest, that each entry is one of
the kinds its slot admits (`EntryOk`), and that every table is an allocated frame of the page-table
region. Under it an entry is named by its root and the slots that lead to it, the pages of user
segments are the entries of `pageEntry`, and the two walks of the previous module agree with it.
-/

namespace GemOS

open Foundation TableForest

/-- The table at the end of a path below `root`. -/
def PhysMem.tableAt (phys : PhysMem) (root : ℕ) (path : List ℕ) : Option ℕ := walk tableOf phys root path

/-- The entry at a slot of the table at the end of a path below `root`. -/
def PhysMem.entry (phys : PhysMem) (root : ℕ) (path : List ℕ) (i : ℕ) : ℕ :=
  entryAt tableOf phys root path i

namespace PhysMem

variable {phys : PhysMem} {root t : ℕ} {path : List ℕ}

@[simp]
theorem tableAt_nil : phys.tableAt root [] = some root := rfl

@[simp]
theorem entry_nil (i : ℕ) : phys.entry root [] i = phys root i := rfl

theorem tableAt_concat (h : phys.tableAt root path = some t) (i : ℕ) :
    phys.tableAt root (path ++ [i]) = tableOf (phys t i) := by
  rw [tableAt, walk_concat, show walk tableOf phys root path = some t from h]
  rfl

theorem tableAt_concat_entry (i : ℕ) :
    phys.tableAt root (path ++ [i]) = tableOf (phys.entry root path i) :=
  walk_concat_eq_child tableOf_zero root path i

theorem tableAt_append_none (h : phys.tableAt root path = none) (rest : List ℕ) :
    phys.tableAt root (path ++ rest) = none := by
  rw [tableAt, walk_append, show walk tableOf phys root path = none from h]
  rfl

theorem entry_of_tableAt (h : phys.tableAt root path = some t) (i : ℕ) :
    phys.entry root path i = phys t i := entryAt_of_walk h i

theorem entry_of_tableAt_none (h : phys.tableAt root path = none) (i : ℕ) :
    phys.entry root path i = 0 := entryAt_of_walk_none h i

end PhysMem

/-- The frames that are tables below the roots. -/
abbrev PhysMem.IsTable (phys : PhysMem) (roots : ℕ → Prop) (pfn : ℕ) : Prop :=
  TableForest.Node tableOf 3 roots phys pfn

/-- The slots from the root to the last-level table of an address. -/
def tablePath (addr : ℕ) : List ℕ := [pgdIndex addr, pudIndex addr, pmdIndex addr]

/-- The entry for the page of a user address. -/
def PhysMem.pageEntry (phys : PhysMem) (root addr : ℕ) : ℕ :=
  phys.entry root (tablePath addr) (pteIndex addr)

/-- The page tables below `roots` are well formed and their frames are allocated. -/
structure Tables (roots : ℕ → Prop) (m : Memory) : Prop where
  regions_ok : m.RegionsOk
  separated : Separated tableOf 3 roots m.phys
  entry_ok : ∀ root path i, roots root → path.length ≤ 3 →
    EntryOk m.apicBase path i (m.phys.entry root path i)
  table_usable : ∀ pfn, m.phys.IsTable roots pfn → Region.osPt.Usable pfn
  table_allocated : ∀ pfn, m.phys.IsTable roots pfn → m.allocated .osPt pfn = true

section Slots

variable {apic : ApicBase} {path : List ℕ} {i e : ℕ}

theorem ApicBase.hugePage_lt (apic : ApicBase) : apic.hugePage < 2 ^ 47 := by
  have := apic.canonical
  rw [apic.hugePage_eq]
  omega

theorem ApicBase.endMem_le_hugePage (apic : ApicBase) : 0x20000000 ≤ apic.hugePage :=
  apic.above_memory

theorem ApicBase.hugePage_outside (apic : ApicBase) :
    apic.hugePage < 0x100000000 ∨ 0x800000000 ≤ apic.hugePage := by
  have := apic.outside_user
  rw [apic.hugePage_eq]
  omega

/-- The tables of the APIC page are not those of a user segment. -/
theorem ApicBase.not_user_pud (apic : ApicBase) (hpgd : pgdIndex apic.hugePage = 0)
    (hlow : 4 ≤ pudIndex apic.hugePage) (hhigh : pudIndex apic.hugePage < 32) : False := by
  have hlt := apic.hugePage_lt
  have houtside := apic.hugePage_outside
  rw [pgdIndex_eq] at hpgd
  rw [pudIndex_eq] at hlow hhigh
  omega

/-- The APIC page is not one of the identity window. -/
theorem ApicBase.not_window_pmd (apic : ApicBase) (hpgd : pgdIndex apic.hugePage = 0)
    (hpud : pudIndex apic.hugePage = 0) : osPtMaps ≤ pmdIndex apic.hugePage := by
  have hlt := apic.hugePage_lt
  have hhigh := apic.endMem_le_hugePage
  rw [pgdIndex_eq] at hpgd
  rw [pudIndex_eq] at hpud
  rw [pmdIndex_eq, osPtMaps]
  omega

theorem KernelTableSlot.length_lt (h : KernelTableSlot apic path i) : path.length < 2 := by
  cases h <;> simp

theorem KernelPageSlot.length_eq {base : ℕ} (h : KernelPageSlot apic path i base) : path.length = 2 := by
  cases h <;> rfl

theorem UserSlot.not_kernelTable (h : UserSlot path i) : ¬ KernelTableSlot apic path i := by
  intro hkernel
  cases hkernel with
  | window => exact absurd h.2.1 (by decide)
  | apicPud hne => exact hne h
  | apicPmd => exact apic.not_user_pud h.1 h.2.1 h.2.2

theorem UserSlot.not_kernelPage {base : ℕ} (h : UserSlot path i) :
    ¬ KernelPageSlot apic path i base := by
  intro hkernel
  cases hkernel with
  | window => exact absurd h.2.1 (by decide)
  | apic => exact apic.not_user_pud h.1 h.2.1 h.2.2

/-- Above the last level a user slot is empty or links a table for user mode. -/
theorem EntryOk.user_table (h : EntryOk apic path i e) (hslot : UserSlot path i)
    (hshort : path.length < 3) :
    e = 0 ∨ ∃ pfn flags, pfn < 2 ^ 32 ∧ UserFlags flags ∧ e = makeEntry pfn flags := by
  cases h with
  | empty => exact Or.inl rfl
  | userTable _ _ hsmall hflags => exact Or.inr ⟨_, _, hsmall, hflags, rfl⟩
  | userPage _ hlast => omega
  | kernelTable hkernel => exact absurd hkernel hslot.not_kernelTable
  | kernelPage hkernel => exact absurd hkernel hslot.not_kernelPage

/-- At the last level a user slot is empty or holds a frame of the user region. -/
theorem EntryOk.user_page (h : EntryOk apic path i e) (hslot : UserSlot path i)
    (hlast : path.length = 3) :
    e = 0 ∨ ∃ pfn flags, Region.user.Usable pfn ∧ UserFlags flags ∧ e = makeEntry pfn flags := by
  cases h with
  | empty => exact Or.inl rfl
  | userTable _ hshort => omega
  | userPage _ _ husable hflags => exact Or.inr ⟨_, _, husable, hflags, rfl⟩
  | kernelTable hkernel => exact absurd hkernel hslot.not_kernelTable
  | kernelPage hkernel => exact absurd hkernel hslot.not_kernelPage

theorem ApicBase.hugePage_testBit (apic : ApicBase) {k : ℕ} (hk : k < 21) :
    apic.hugePage.testBit k = false := by
  unfold ApicBase.hugePage
  simp [Nat.testBit_shiftLeft, hk]

theorem KernelPageSlot.testBit {base k : ℕ} (h : KernelPageSlot apic path i base) (hk : k < 21) :
    base.testBit k = false := by
  cases h with
  | window => simp [Nat.testBit_shiftLeft, hk]
  | apic => exact apic.hugePage_testBit hk

/-- Only the slots of user segments carry the user bit. -/
theorem EntryOk.not_user (h : EntryOk apic path i e) (hslot : ¬ UserSlot path i) :
    e.testBit 2 = false := by
  cases h with
  | empty => rfl
  | userTable hslot' => exact absurd hslot' hslot
  | userPage hslot' => exact absurd hslot' hslot
  | kernelTable => simp [makeEntry, pageShift, Nat.testBit_shiftLeft]; decide
  | kernelPage hpage hflags =>
    rw [Nat.testBit_or, hpage.testBit (by norm_num)]
    rcases hflags with rfl | rfl | rfl <;> decide

/-- The first two levels hold no 2 MB pages. -/
theorem EntryOk.small (h : EntryOk apic path i e) (hshort : path.length < 2) : e &&& 0x80 = 0 := by
  cases h with
  | empty => rfl
  | userTable _ _ _ hflags => exact hflags.tableFlags.small _
  | userPage _ hlast => omega
  | kernelTable => exact TableFlags.small _ (Or.inr rfl)
  | kernelPage hpage => exact absurd hpage.length_eq hshort.ne

/-- A present entry that is not a 2 MB page names the same table for the kernel's walk and for the
processor's. -/
theorem EntryOk.table_frame (h : EntryOk apic path i e) (hshort : path.length < 3)
    (hpresent : e &&& 0x1 ≠ 0) (hsmall : e &&& 0x80 = 0) :
    tableOf e = some (hwFrame e) ∧ (e >>> pteShift) &&& 0xffffffff = hwFrame e := by
  obtain ⟨pfn, flags, hpfn, hflags, rfl⟩ :
      ∃ pfn flags, pfn < 2 ^ 32 ∧ TableFlags flags ∧ e = makeEntry pfn flags := by
    cases h with
    | empty => exact absurd rfl hpresent
    | userTable _ _ hpfn hflags => exact ⟨_, _, hpfn, hflags.tableFlags, rfl⟩
    | userPage _ hlast => omega
    | kernelTable _ hpfn => exact ⟨_, _, hpfn, Or.inr rfl, rfl⟩
    | kernelPage hpage hflags =>
      have hbit := congrArg (fun x ↦ x.testBit 7) hsmall
      simp only [Nat.testBit_and, Nat.testBit_or, hpage.testBit (show 7 < 21 by norm_num)] at hbit
      rcases hflags with rfl | rfl | rfl <;> exact absurd hbit (by decide)
  rw [hwFrame_makeEntry hpfn hflags.lt, tableOf_makeEntry hpfn hflags, frame_of_lowWord, makeEntry_frame pfn hflags.lt,
    Nat.mod_eq_of_lt hpfn]
  exact ⟨rfl, rfl⟩

end Slots

section Addresses

variable {addr other : ℕ}

theorem UserAddr.indices (h : UserAddr addr) :
    pgdIndex addr = 0 ∧ 4 ≤ pudIndex addr ∧ pudIndex addr < 32 := by
  obtain ⟨hlow, hhigh⟩ := h
  rw [pgdIndex_eq, pudIndex_eq]
  omega

theorem userSlot_page_iff :
    UserSlot (tablePath addr) (pteIndex addr) ↔
      pgdIndex addr = 0 ∧ 4 ≤ pudIndex addr ∧ pudIndex addr < 32 := Iff.rfl

theorem UserAddr.slot (h : UserAddr addr) : UserSlot (tablePath addr) (pteIndex addr) := h.indices

theorem userAddr_of_slot (hlt : addr < 2 ^ 47) (h : UserSlot (tablePath addr) (pteIndex addr)) :
    UserAddr addr := by
  obtain ⟨hpgd, hlow, hhigh⟩ := userSlot_page_iff.1 h
  rw [pgdIndex_eq] at hpgd
  rw [pudIndex_eq] at hlow hhigh
  constructor <;> omega

/-- The four indices determine the page of an address. -/
theorem indices_eq_iff (haddr : addr < 2 ^ 48) (hother : other < 2 ^ 48) :
    (tablePath addr = tablePath other ∧ pteIndex addr = pteIndex other) ↔
      addr / 4096 = other / 4096 := by
  simp only [tablePath, List.cons.injEq, and_true, pgdIndex_eq, pudIndex_eq, pmdIndex_eq, pteIndex_eq]
  constructor
  · rintro ⟨⟨hpgd, hpud, hpmd⟩, hpte⟩
    omega
  · intro hpage
    refine ⟨⟨?_, ?_, ?_⟩, ?_⟩ <;> omega

end Addresses

/-- The write bit is set at all four levels above the page of `addr`. -/
def PhysMem.pathWritable (phys : PhysMem) (root addr : ℕ) : Bool :=
  (phys.entry root [] (pgdIndex addr)).testBit 1 &&
    (phys.entry root [pgdIndex addr] (pudIndex addr)).testBit 1 &&
      (phys.entry root [pgdIndex addr, pudIndex addr] (pmdIndex addr)).testBit 1 &&
        (phys.pageEntry root addr).testBit 1

namespace Tables

variable {roots : ℕ → Prop} {m : Memory} {root addr : ℕ}

/-- Following a present entry above the last level. -/
theorem tableAt_frame (h : Tables roots m) (hroot : roots root) {path : List ℕ} {t i : ℕ}
    (hshort : path.length < 3) (htable : m.phys.tableAt root path = some t)
    (hpresent : m.phys t i &&& 0x1 ≠ 0) (hsmall : m.phys t i &&& 0x80 = 0) :
    m.phys.tableAt root (path ++ [i]) = some (hwFrame (m.phys t i)) := by
  have hok := h.entry_ok root path i hroot hshort.le
  rw [PhysMem.entry_of_tableAt htable] at hok
  rw [PhysMem.tableAt_concat htable]
  exact (hok.table_frame hshort hpresent hsmall).1

/-- The processor's walk reads the entries named by root and path. -/
theorem hwWalk_eq (h : Tables roots m) (hroot : roots root) :
    hwWalk m.phys root addr =
      hwTranslate (pteIndex addr) (m.phys.entry root [] (pgdIndex addr))
        (m.phys.entry root [pgdIndex addr] (pudIndex addr))
        (m.phys.entry root [pgdIndex addr, pudIndex addr] (pmdIndex addr))
        (m.phys.pageEntry root addr) := by
  unfold hwWalk PhysMem.pageEntry tablePath
  simp only [PhysMem.entry_nil]
  by_cases hpgd : m.phys root (pgdIndex addr) &&& 0x1 = 0
  · rw [hwTranslate_absent (Or.inl hpgd), hwTranslate_absent (Or.inl hpgd)]
  have hpgdSmall := (h.entry_ok root [] (pgdIndex addr) hroot (by simp)).small (by simp)
  have hpud : m.phys.tableAt root [pgdIndex addr] = _ :=
    h.tableAt_frame hroot (by simp) PhysMem.tableAt_nil hpgd hpgdSmall
  have hpudSmall := (h.entry_ok root [pgdIndex addr] (pudIndex addr) hroot (by simp)).small (by simp)
  rw [PhysMem.entry_of_tableAt hpud] at hpudSmall ⊢
  generalize hwFrame (m.phys root (pgdIndex addr)) = pud at *
  by_cases hpudAbsent : m.phys pud (pudIndex addr) &&& 0x1 = 0
  · rw [hwTranslate_absent (Or.inr (Or.inl hpudAbsent)), hwTranslate_absent (Or.inr (Or.inl hpudAbsent))]
  have hpmd : m.phys.tableAt root [pgdIndex addr, pudIndex addr] = _ :=
    h.tableAt_frame hroot (by simp) hpud hpudAbsent hpudSmall
  rw [PhysMem.entry_of_tableAt hpmd]
  generalize hwFrame (m.phys pud (pudIndex addr)) = pmd at *
  by_cases hpmdAbsent : m.phys pmd (pmdIndex addr) &&& 0x1 = 0
  · rw [hwTranslate_absent (Or.inr (Or.inr hpmdAbsent)), hwTranslate_absent (Or.inr (Or.inr hpmdAbsent))]
  by_cases hpmdSmall : m.phys pmd (pmdIndex addr) &&& 0x80 = 0
  · have hpt : m.phys.tableAt root [pgdIndex addr, pudIndex addr, pmdIndex addr] = _ :=
      h.tableAt_frame hroot (by simp) hpmd hpmdAbsent hpmdSmall
    rw [PhysMem.entry_of_tableAt hpt]
  · exact hwTranslate_huge hpmdSmall

/-- One step of a walk towards a user page. -/
theorem user_step (h : Tables roots m) (hroot : roots root) (path : List ℕ) (i : ℕ) {t : ℕ}
    (hslot : UserSlot path i) (hshort : path.length < 3)
    (htable : m.phys.tableAt root path = some t) :
    (m.phys t i = 0 ∧ m.phys.tableAt root (path ++ [i]) = none) ∨
      ∃ u flags, u < 2 ^ 32 ∧ UserFlags flags ∧ m.phys t i = makeEntry u flags ∧
        m.phys.tableAt root (path ++ [i]) = some u := by
  have hok := h.entry_ok root path i hroot hshort.le
  rw [PhysMem.entry_of_tableAt htable] at hok
  rw [PhysMem.tableAt_concat htable]
  rcases hok.user_table hslot hshort with hzero | ⟨u, flags, hu, hflags, hentry⟩
  · exact Or.inl ⟨hzero, by rw [hzero, tableOf_zero]⟩
  · exact Or.inr ⟨u, flags, hu, hflags, hentry, by rw [hentry, tableOf_makeEntry hu hflags.tableFlags]⟩

theorem getUserPte_step {u flags : ℕ} (hu : u < 2 ^ 32) (hflags : UserFlags flags) :
    ¬ (makeEntry u flags &&& 0x1 = 0 ∨ makeEntry u flags &&& 0x4 = 0) ∧
      (makeEntry u flags >>> pteShift) &&& 0xffffffff = u := by
  rw [hflags.tableFlags.present, hflags.user, frame_of_lowWord, makeEntry_frame u hflags.tableFlags.lt,
    Nat.mod_eq_of_lt hu]
  exact ⟨by decide, rfl⟩

/-- A page of a user segment is unmapped for both walks, or mapped to a frame of the user region. -/
theorem page_cases (h : Tables roots m) (hroot : roots root)
    (hslot : UserSlot (tablePath addr) (pteIndex addr)) :
    (m.phys.pageEntry root addr = 0 ∧ getUserPte m.phys root addr = none ∧
        hwWalk m.phys root addr = none) ∨
      ∃ pt pfn flags, m.phys.tableAt root (tablePath addr) = some pt ∧ Region.user.Usable pfn ∧
        UserFlags flags ∧ m.phys.pageEntry root addr = makeEntry pfn flags ∧
        getUserPte m.phys root addr = some (pt, pteIndex addr) ∧
        hwWalk m.phys root addr = some ⟨pfn, true, m.phys.pathWritable root addr⟩ := by
  have hindices := userSlot_page_iff.1 hslot
  rw [h.hwWalk_eq hroot]
  unfold getUserPte PhysMem.pathWritable
  simp only [PhysMem.entry_nil]
  rcases h.user_step hroot [] (pgdIndex addr) hindices.1 (by simp) PhysMem.tableAt_nil with
    ⟨hzero, hnone⟩ | ⟨pud, flags₄, hpud, hflags₄, hentry₄, htable₄⟩
  · have hbelow : m.phys.tableAt root (tablePath addr) = none :=
      PhysMem.tableAt_append_none hnone [pudIndex addr, pmdIndex addr]
    rw [hzero]
    exact Or.inl ⟨PhysMem.entry_of_tableAt_none hbelow _, if_pos (Or.inl rfl),
      hwTranslate_absent (Or.inl rfl)⟩
  obtain ⟨hpass₄, hframe₄⟩ := getUserPte_step hpud hflags₄
  replace htable₄ : m.phys.tableAt root [pgdIndex addr] = some pud := htable₄
  rw [hentry₄, hframe₄, if_neg hpass₄, PhysMem.entry_of_tableAt htable₄]
  rcases h.user_step hroot [pgdIndex addr] (pudIndex addr) hindices (by simp) htable₄ with
    ⟨hzero, hnone⟩ | ⟨pmd, flags₃, hpmd, hflags₃, hentry₃, htable₃⟩
  · have hbelow : m.phys.tableAt root (tablePath addr) = none :=
      PhysMem.tableAt_append_none hnone [pmdIndex addr]
    rw [hzero]
    exact Or.inl ⟨PhysMem.entry_of_tableAt_none hbelow _, if_pos (Or.inl rfl),
      hwTranslate_absent (Or.inr (Or.inl rfl))⟩
  obtain ⟨hpass₃, hframe₃⟩ := getUserPte_step hpmd hflags₃
  replace htable₃ : m.phys.tableAt root [pgdIndex addr, pudIndex addr] = some pmd := htable₃
  rw [hentry₃, hframe₃, if_neg hpass₃, PhysMem.entry_of_tableAt htable₃]
  rcases h.user_step hroot [pgdIndex addr, pudIndex addr] (pmdIndex addr) hindices (by simp) htable₃ with
    ⟨hzero, hnone⟩ | ⟨pt, flags₂, hpt, hflags₂, hentry₂, htable₂⟩
  · rw [hzero]
    exact Or.inl ⟨PhysMem.entry_of_tableAt_none hnone _, if_pos (Or.inl rfl),
      hwTranslate_absent (Or.inr (Or.inr rfl))⟩
  replace htable₂ : m.phys.tableAt root (tablePath addr) = some pt := htable₂
  obtain ⟨hpass₂, hframe₂⟩ := getUserPte_step hpt hflags₂
  have hpass₂' : ¬ (makeEntry pt flags₂ &&& 0x1 = 0 ∨ makeEntry pt flags₂ &&& 0x4 = 0 ∨
      makeEntry pt flags₂ &&& 0x80 = 1) := by
    rw [hflags₂.tableFlags.small]
    tauto
  have hleaf := h.entry_ok root (tablePath addr) (pteIndex addr) hroot (by simp [tablePath])
  have hpage : m.phys.pageEntry root addr = m.phys pt (pteIndex addr) := PhysMem.entry_of_tableAt htable₂ _
  rw [hentry₂, hframe₂, if_neg hpass₂', hpage]
  rw [PhysMem.entry_of_tableAt htable₂] at hleaf
  rcases hleaf.user_page hslot rfl with hzero | ⟨pfn, flags, husable, hflags, hentry⟩
  · rw [hzero]
    refine Or.inl ⟨rfl, if_pos (Or.inl rfl), ?_⟩
    unfold hwTranslate
    rw [hflags₄.tableFlags.present, hflags₃.tableFlags.present, hflags₂.tableFlags.present,
      hflags₂.tableFlags.small]
    rfl
  · have hpfn : pfn < 2 ^ 32 := husable.contains.lt.trans (by norm_num)
    obtain ⟨hpass, -⟩ := getUserPte_step hpfn hflags
    rw [hentry]
    refine Or.inr ⟨pt, pfn, flags, htable₂, husable, hflags, rfl, if_neg hpass, ?_⟩
    unfold hwTranslate
    rw [hflags₄.tableFlags.present, hflags₃.tableFlags.present, hflags₂.tableFlags.present,
      hflags₂.tableFlags.small, hflags.tableFlags.present, hwFrame_makeEntry hpfn hflags.tableFlags.lt,
      hflags₄.testBit, hflags₃.testBit, hflags₂.testBit, hflags.testBit]
    rfl

theorem and_four_of_testBit {e : ℕ} (h : e.testBit 2 = false) : e &&& 0x4 = 0 := by
  have hand := Nat.and_two_pow e 2
  rwa [h, Bool.toNat_false, Nat.zero_mul] at hand

/-- Outside the user segments the upper two levels already lack the user bit. -/
theorem upper_not_user (h : Tables roots m) (hroot : roots root)
    (hslot : ¬ UserSlot (tablePath addr) (pteIndex addr)) :
    (m.phys.entry root [] (pgdIndex addr)).testBit 2 = false ∨
      (m.phys.entry root [pgdIndex addr] (pudIndex addr)).testBit 2 = false := by
  by_cases hpgd : pgdIndex addr = 0
  · exact Or.inr ((h.entry_ok root _ _ hroot (by simp)).not_user hslot)
  · exact Or.inl ((h.entry_ok root _ _ hroot (by simp)).not_user hpgd)

theorem hwWalk_not_user (h : Tables roots m) (hroot : roots root)
    (hslot : ¬ UserSlot (tablePath addr) (pteIndex addr)) {mapping : Mapping}
    (hwalk : hwWalk m.phys root addr = some mapping) : mapping.user = false := by
  rw [h.hwWalk_eq hroot] at hwalk
  unfold hwTranslate at hwalk
  have hupper := h.upper_not_user hroot hslot
  generalize m.phys.entry root [] (pgdIndex addr) = pgdEntry at *
  split_ifs at hwalk <;> cases hwalk <;> rcases hupper with hbit | hbit <;> simp [hbit]

theorem getUserPte_not_user (h : Tables roots m) (hroot : roots root)
    (hslot : ¬ UserSlot (tablePath addr) (pteIndex addr)) : getUserPte m.phys root addr = none := by
  have hupper := h.upper_not_user hroot hslot
  have hok := h.entry_ok root [] (pgdIndex addr) hroot (by simp)
  rw [PhysMem.entry_nil] at hupper hok
  unfold getUserPte
  by_cases hpgd : m.phys root (pgdIndex addr) &&& 0x1 = 0 ∨ m.phys root (pgdIndex addr) &&& 0x4 = 0
  · exact if_pos hpgd
  · have hpresent : m.phys root (pgdIndex addr) &&& 0x1 ≠ 0 := fun hzero ↦ hpgd (Or.inl hzero)
    have hpgdUser : (m.phys root (pgdIndex addr)).testBit 2 ≠ false := fun hbit ↦
      hpgd (Or.inr (and_four_of_testBit hbit))
    have hpud : m.phys.tableAt root [pgdIndex addr] = _ :=
      h.tableAt_frame hroot (by simp) PhysMem.tableAt_nil hpresent (hok.small (by simp))
    have hbit := hupper.resolve_left hpgdUser
    rw [PhysMem.entry_of_tableAt hpud, ← (hok.table_frame (by simp) hpresent (hok.small (by simp))).2]
      at hbit
    exact (if_neg hpgd).trans (if_pos (Or.inr (and_four_of_testBit hbit)))

theorem not_slot_of_high (hhigh : 2 ^ 64 - 2 ^ 47 ≤ addr) (hlt : addr < 2 ^ 64) :
    ¬ UserSlot (tablePath addr) (pteIndex addr) := by
  rw [userSlot_page_iff, pgdIndex_eq]
  omega

/-- What user mode can access through a page table of the kernel. -/
theorem userAccessible_iff (h : Tables roots m) (hroot : roots root) (write : Bool) :
    UserAccessible m.phys root addr write ↔
      UserAddr addr ∧ m.phys.pageEntry root addr ≠ 0 ∧
        (write = true → m.phys.pathWritable root addr = true) := by
  constructor
  · rintro ⟨hcanonical, mapping, hwalk, huser, hwrite⟩
    have hslot : UserSlot (tablePath addr) (pteIndex addr) := by
      by_contra hslot
      rw [h.hwWalk_not_user hroot hslot hwalk] at huser
      exact Bool.noConfusion huser
    have haddr : UserAddr addr := by
      rcases hcanonical with hlow | ⟨hhigh, hlt⟩
      · exact userAddr_of_slot hlow hslot
      · exact absurd hslot (not_slot_of_high hhigh hlt)
    rcases h.page_cases hroot hslot with ⟨-, -, hnone⟩ | ⟨_, _, _, -, -, hflags, hentry, -, hsome⟩
    · rw [hnone] at hwalk
      exact absurd hwalk (by simp)
    · rw [hsome] at hwalk
      cases hwalk
      exact ⟨haddr, hentry ▸ hflags.tableFlags.ne_zero _, hwrite⟩
  · rintro ⟨haddr, hentry, hwrite⟩
    have hcanonical : Canonical addr := Or.inl (haddr.2.trans (by norm_num))
    rcases h.page_cases hroot haddr.slot with ⟨hzero, -, -⟩ | ⟨_, _, _, -, -, -, -, -, hsome⟩
    · exact absurd hzero hentry
    · exact ⟨hcanonical, _, hsome, rfl, hwrite⟩

/-- Every address accessible to user mode lies in a frame of the user region. -/
theorem userAccessible_usable (h : Tables roots m) (hroot : roots root) {write : Bool}
    (haccess : UserAccessible m.phys root addr write) :
    ∃ mapping, hwWalk m.phys root addr = some mapping ∧ Region.user.Usable mapping.pfn := by
  obtain ⟨haddr, hentry, -⟩ := (h.userAccessible_iff hroot write).1 haccess
  rcases h.page_cases hroot haddr.slot with ⟨hzero, -, -⟩ | ⟨_, _, _, -, husable, -, -, -, hsome⟩
  · exact absurd hzero hentry
  · exact ⟨_, hsome, husable⟩

end Tables

end GemOS
