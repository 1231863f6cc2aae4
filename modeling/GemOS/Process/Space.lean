import GemOS.Process.Machine

/-!
# What the kernel keeps of an address space

Between boot and the end of a process its page tables only change in their user pages. `Carries` says
so for a set of roots: the kernel mappings stay, the pages that every process has (the first CODE page
and the top of the stack) stay mapped, and frames in use neither become tables nor come free. Each of
the operations that work on live tables is one of these steps.
-/

namespace GemOS

open Foundation TableForest Memory

variable {roots : ℕ → Prop} {m m' m'' : Memory} {root addr : ℕ}

/-- The page at the top of the stack. -/
def stackTopPage : ℕ := stackStart - pageSize

/-- The pages every process has. -/
def Anchor (addr : ℕ) : Prop := addr = codeStart ∨ addr = stackTopPage

theorem Anchor.userAddr (h : Anchor addr) : UserAddr addr := by
  rcases h with rfl | rfl <;> decide

theorem not_userSlot_window (i : ℕ) : ¬ UserSlot [0, 0] i := fun hslot ↦ absurd hslot.2.1 (by decide)

/-- No page below the DATA segment is writable. -/
def ReadOnly (m : Memory) (root : ℕ) : Prop :=
  ∀ addr, UserAddr addr → addr < dataStart → (m.phys.pageEntry root addr).testBit 1 = false

/-- What survives when memory changes from `m` to `m'` and the roots of its page tables from `roots` to `roots'`; the
address spaces below `spaces` stay as they are but for their user pages. -/
structure Persists (spaces roots roots' : ℕ → Prop) (m m' : Memory) : Prop where
  tables : Tables roots' m'
  root_kept : ∀ r, spaces r → roots' r
  kernel_eq : ∀ r path i, spaces r → path.length = 2 → ¬ UserSlot path i →
    m'.phys.entry r path i = m.phys.entry r path i
  top_eq : ∀ r, spaces r → m.phys.entry r [] 0 ≠ 0 → m'.phys.entry r [] 0 = m.phys.entry r [] 0
  anchors : ∀ r addr, spaces r → Anchor addr → m.phys.pageEntry r addr ≠ 0 →
    m'.phys.pageEntry r addr ≠ 0
  read_only : (∀ r, roots r → ReadOnly m r) → ∀ r, roots' r → ReadOnly m' r
  not_table : ∀ pfn, m.allocated .osPt pfn = true → m'.phys.IsTable roots' pfn → m.phys.IsTable roots pfn
  still_allocated : ∀ pfn, m.allocated .osPt pfn = true → m'.allocated .osPt pfn = true
  apic_eq : m'.apicBase = m.apicBase
  pmd_eq : m'.osPmdPfn = m.osPmdPfn ∨ m'.osPmdPfn < 2 ^ 32 ∧ m.allocated .osPt m'.osPmdPfn = false

namespace Persists

variable {spaces spaces' roots' roots'' : ℕ → Prop}

theorem trans (first : Persists spaces roots roots' m m') (second : Persists spaces' roots' roots'' m' m'')
    (hsub : ∀ r, spaces r → spaces' r) : Persists spaces roots roots'' m m'' where
  tables := second.tables
  root_kept r hr := second.root_kept r (hsub r hr)
  kernel_eq r path i hr hlength hslot :=
    (second.kernel_eq r path i (hsub r hr) hlength hslot).trans (first.kernel_eq r path i hr hlength hslot)
  top_eq r hr hentry := by
    have hfirst := first.top_eq r hr hentry
    exact (second.top_eq r (hsub r hr) (hfirst ▸ hentry)).trans hfirst
  anchors r addr hr haddr hentry := second.anchors r addr (hsub r hr) haddr (first.anchors r addr hr haddr hentry)
  read_only h := second.read_only (first.read_only h)
  not_table pfn hpfn htable := first.not_table pfn hpfn (second.not_table pfn (first.still_allocated pfn hpfn) htable)
  still_allocated pfn hpfn := second.still_allocated pfn (first.still_allocated pfn hpfn)
  apic_eq := second.apic_eq.trans first.apic_eq
  pmd_eq := by
    rcases second.pmd_eq with hsame | ⟨hsmall, hclear⟩
    · rw [hsame]
      exact first.pmd_eq
    · refine Or.inr ⟨hsmall, ?_⟩
      by_contra hset
      rw [first.still_allocated _ (by simpa using hset)] at hclear
      exact Bool.noConfusion hclear

/-- A fresh frame becomes a further root. -/
theorem of_add_root (h : Tables roots m) {pfn : ℕ} (hgrant : Grant .osPt m m' pfn) :
    Persists roots roots (fun r ↦ roots r ∨ r = pfn) m m' := by
  obtain ⟨htables, hentry⟩ := h.add_root hgrant
  have hsame : ∀ frame, m.phys.IsTable roots frame → m'.phys frame = m.phys frame := fun _ ↦ h.grant_phys hgrant
  have hclear : ∀ frame, m.allocated .osPt frame = true → frame ≠ pfn := by
    rintro frame hframe rfl
    rw [hgrant.not_allocated] at hframe
    exact Bool.noConfusion hframe
  have hempty : ∀ i, m'.phys pfn i = 0 := fun i ↦ by
    rw [hgrant.phys_eq, if_pos rfl, PhysMem.zero_self]
  refine ⟨htables, fun r ↦ Or.inl, fun r path i hr hlength _ ↦ Tables.entry_congr hsame hr (by omega) i,
    fun r hr _ ↦ Tables.entry_congr hsame hr (by simp) 0, fun r addr hr _ hmapped ↦ ?_,
      fun hread r hr addr haddr hlow ↦ ?_,
    fun frame hframe htable ↦ ?_, fun frame hframe ↦ (hgrant.allocated_iff _ _).2 (Or.inl hframe), hgrant.apic_eq,
    Or.inl hgrant.pmd_eq⟩
  · rwa [PhysMem.pageEntry, Tables.entry_congr hsame hr (by simp [tablePath])]
  · rcases hr with hr | rfl
    · rw [PhysMem.pageEntry, Tables.entry_congr hsame hr (by simp [tablePath])]
      exact hread r hr addr haddr hlow
    · rw [PhysMem.pageEntry, hentry]
      rfl
  · rcases (node_add_root tableOf_zero hempty frame).1 htable with hold | rfl
    · exact (Tables.isTable_congr hsame frame).1 hold
    · exact absurd rfl (hclear frame hframe)

end Persists

/-- What survives of the address spaces below `roots` when memory changes from `m` to `m'`. -/
abbrev Carries (roots : ℕ → Prop) (m m' : Memory) : Prop := Persists roots roots roots m m'

namespace Carries

theorem refl (h : Tables roots m) : Carries roots m m :=
  ⟨h, fun _ ↦ id, fun _ _ _ _ _ _ ↦ rfl, fun _ _ _ ↦ rfl, fun _ _ _ _ ↦ id, id, fun _ _ ↦ id,
    fun _ ↦ id, rfl, Or.inl rfl⟩

theorem trans (first : Carries roots m m') (second : Carries roots m' m'') : Carries roots m m'' :=
  Persists.trans first second fun _ ↦ id

/-- Memory that agrees on all tables and marks no fewer frames. -/
theorem of_congr (h : Tables roots m) (hregions : m'.RegionsOk) (hapic : m'.apicBase = m.apicBase)
    (hpmd : m'.osPmdPfn = m.osPmdPfn)
    (hphys : ∀ pfn, m.phys.IsTable roots pfn → m'.phys pfn = m.phys pfn)
    (hallocated : ∀ pfn, m.allocated .osPt pfn = true → m'.allocated .osPt pfn = true) :
    Carries roots m m' := by
  have hentry : ∀ r path i, roots r → path.length ≤ 3 → m'.phys.entry r path i = m.phys.entry r path i :=
    fun r path i hr hlength ↦ Tables.entry_congr hphys hr hlength i
  have hpage : ∀ r addr, roots r → m'.phys.pageEntry r addr = m.phys.pageEntry r addr := fun r addr hr ↦
    hentry r _ _ hr (by simp [tablePath])
  refine ⟨h.congr hregions hapic hphys fun pfn hpfn ↦ hallocated pfn (h.table_allocated pfn hpfn), fun _ ↦ id,
    fun r path i hr hlength _ ↦ hentry r path i hr (by omega), fun r hr _ ↦ hentry r [] 0 hr (by simp),
    fun r addr hr _ hmapped ↦ ?_, fun hread r hr addr haddr hlow ↦ ?_,
    fun pfn _ htable ↦ (Tables.isTable_congr hphys pfn).1 htable, hallocated, hapic, Or.inl hpmd⟩
  · rwa [hpage r addr hr]
  · rw [hpage r addr hr]
    exact hread r hr addr haddr hlow

theorem of_grant (h : Tables roots m) {region : Region} {pfn : ℕ} (hgrant : Grant region m m' pfn) :
    Carries roots m m' :=
  of_congr h hgrant.regions_ok hgrant.apic_eq hgrant.pmd_eq (fun _ ↦ h.grant_phys hgrant)
    fun frame hframe ↦ (hgrant.allocated_iff .osPt frame).2 (Or.inl hframe)

/-- Data of a user frame changes. -/
theorem of_userData (h : Tables roots m) (phys : PhysMem)
    (hphys : ∀ pfn, ¬ Region.user.Usable pfn → phys pfn = m.phys pfn) :
    Carries roots m { m with phys := phys } := by
  refine of_congr h h.regions_ok rfl rfl (fun pfn hpfn ↦ hphys pfn fun huser ↦ ?_) fun _ ↦ id
  exact absurd ((h.table_usable pfn hpfn).contains.eq huser.contains) (by decide)

/-- A user page is mapped, read-only below the DATA segment. -/
theorem of_mapsPage {pfn flags linkFlags : ℕ}
    (hmaps : MapsPage roots m m' root addr pfn flags linkFlags) (hflags : UserFlags flags)
    (hslot : UserAddr addr) (hread : addr < dataStart → flags = 0x5) : Carries roots m m' where
  tables := hmaps.extend.tables
  root_kept _ := id
  kernel_eq r path i hr hlength hnot := by
    rcases hmaps.links r path i hr (by omega) with hsame | ⟨-, -, hlead, -⟩
    · exact hsame
    · have heq : path ++ [i] = tablePath addr := hlead.eq_of_length (by simp [hlength, tablePath])
      obtain ⟨a, b, rfl⟩ := List.length_eq_two.1 hlength
      simp only [tablePath, List.cons_append, List.nil_append, List.cons.injEq] at heq
      rw [heq.1, heq.2.1] at hnot
      exact absurd hslot.slot hnot
  top_eq r hr hentry := (hmaps.links r [] 0 hr (by simp)).resolve_right fun hnew ↦ hentry hnew.1
  anchors r anchor hr _ hentry := by
    rw [PhysMem.pageEntry, hmaps.pages r _ _ hr rfl]
    split
    · exact hflags.tableFlags.ne_zero _
    · exact hentry
  read_only h r hr other hother hlow := by
    rw [PhysMem.pageEntry, hmaps.pages r _ _ hr rfl]
    split
    · rename_i hhere
      have hpage : other / 4096 = addr / 4096 := by
        have hlt := hother.2
        have hlt' := hslot.2
        exact (indices_eq_iff (by omega) (by omega)).1 hhere.2
      have haddr : addr < dataStart := by
        simp only [dataStart] at *
        omega
      rw [hread haddr, makeEntry, Nat.testBit_or, Nat.testBit_shiftLeft]
      rfl
    · exact h r hr other hother hlow
  not_table frame hframe htable := by
    rcases hmaps.extend.table_new frame htable with hold | hclear
    · exact hold
    · rw [hframe] at hclear
      exact Bool.noConfusion hclear
  still_allocated frame := hmaps.extend.still_allocated .osPt frame
  apic_eq := hmaps.extend.apic_eq
  pmd_eq := Or.inl hmaps.pmd_eq

/-- A page that not every process needs is unmapped. -/
theorem of_unmaps {pfn : ℕ} (hunmaps : Unmaps roots m m' root addr pfn) (haddr : UserAddr addr)
    (hother : ∀ anchor, Anchor anchor → anchor / 4096 ≠ addr / 4096) : Carries roots m m' where
  tables := hunmaps.tables
  root_kept _ := id
  kernel_eq r path i hr hlength _ := by
    rw [hunmaps.entries r path i hr (by omega), if_neg]
    rintro ⟨-, rfl, -⟩
    simp [tablePath] at hlength
  top_eq r hr _ := by
    rw [hunmaps.entries r [] 0 hr (by simp), if_neg]
    rintro ⟨-, hpath, -⟩
    simp [tablePath] at hpath
  anchors r anchor hr hanchor hentry := by
    rw [PhysMem.pageEntry, hunmaps.entries r _ _ hr (by simp [tablePath]), if_neg]
    · exact hentry
    · rintro ⟨-, hindices⟩
      have hlt := hanchor.userAddr.2
      have hlt' := haddr.2
      exact hother anchor hanchor ((indices_eq_iff (by omega) (by omega)).1 hindices)
  read_only h r hr other hother' hlow := by
    rw [PhysMem.pageEntry, hunmaps.entries r _ _ hr (by simp [tablePath])]
    split
    · rfl
    · exact h r hr other hother' hlow
  not_table frame _ htable := hunmaps.table_old frame htable
  still_allocated frame hframe :=
    (hunmaps.allocated_iff .osPt frame).2 ⟨hframe, fun hand ↦ by cases hand.1⟩
  apic_eq := hunmaps.apic_eq
  pmd_eq := Or.inl hunmaps.pmd_eq

end Carries

namespace Persists

variable {spaces roots' : ℕ → Prop}

/-- The kernel mappings of a live process stay as they are. -/
theorem kernelMapped_iff (h : Persists spaces roots roots' m m') (hroot : spaces root) :
    KernelMapped m' root ↔ KernelMapped m root := by
  have hwindow : ∀ i, m'.phys.entry root [0, 0] i = m.phys.entry root [0, 0] i := fun i ↦
    h.kernel_eq root _ i hroot rfl (not_userSlot_window i)
  have hapic : ∀ i, m'.phys.entry root
      [pgdIndex m.apicBase.hugePage, pudIndex m.apicBase.hugePage] i =
        m.phys.entry root [pgdIndex m.apicBase.hugePage, pudIndex m.apicBase.hugePage] i := fun i ↦
    h.kernel_eq root _ i hroot rfl fun hslot ↦ m.apicBase.not_user_pud hslot.1 hslot.2.1 hslot.2.2
  constructor
  · rintro ⟨hmapped, hmappedApic⟩
    refine ⟨fun i hi ↦ hwindow i ▸ hmapped i hi, ?_⟩
    rw [h.apic_eq, hapic] at hmappedApic
    exact hmappedApic
  · rintro ⟨hmapped, hmappedApic⟩
    refine ⟨fun i hi ↦ (hwindow i).symm ▸ hmapped i hi, ?_⟩
    rw [h.apic_eq, hapic]
    exact hmappedApic

theorem window_clear (h : Persists spaces roots roots' m m') (hroot : spaces root)
    (hclear : m.phys.entry root [0, 0] 0 = 0) : m'.phys.entry root [0, 0] 0 = 0 := by
  rw [h.kernel_eq root _ 0 hroot rfl (not_userSlot_window 0), hclear]

end Persists

end GemOS
