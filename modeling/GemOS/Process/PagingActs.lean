import GemOS.Foundation.Clones
import GemOS.Paging.View
import GemOS.Process.Image

/-!
# Paging functions as acts on address spaces

With the marks of the user region and the bytes in the frames, the pages below the page tables in use are the
`AddrSpaces` of the memory. Each function of the kernel that changes the pages of a user is one act on them: a page
fault takes a frame, `do_unmap_user` gives one up, stores write frames of the space they go through. Functions that
work on tables only, on kernel mappings or on frames of the page-table region leave no trace there.
-/

namespace GemOS

open Foundation TableForest Memory AddrSpaces

variable {roots : ℕ → Prop} {live : Set ℕ} {m m' : Memory} {root lender r addr page pfn flags linkFlags : ℕ}
  {R : Rights ℕ ℕ ℕ}

open Classical in
/-- The address spaces below the roots in use. -/
noncomputable def Memory.spaces (live : Set ℕ) (m : Memory) : AddrSpaces ℕ ℕ ℕ ℕ ℕ where
  live := live
  page root page := if root ∈ live then m.phys.userPage root page else none
  used := {pfn | m.allocated .user pfn = true}
  data pfn := if Region.osPt.Contains pfn then fun _ ↦ 0 else m.phys.byteAt pfn

@[simp]
theorem spaces_live (live : Set ℕ) (m : Memory) : (m.spaces live).live = live := rfl

theorem spaces_page (m : Memory) (hroot : root ∈ live) (page : ℕ) :
    (m.spaces live).page root page = m.phys.userPage root page := if_pos hroot

theorem spaces_page_of_not_mem (m : Memory) (hroot : root ∉ live) (page : ℕ) : (m.spaces live).page root page = none :=
  if_neg hroot

theorem mem_used {pfn : ℕ} : pfn ∈ (m.spaces live).used ↔ m.allocated .user pfn = true := Iff.rfl

theorem spaces_data (m : Memory) {pfn : ℕ} (hpfn : ¬ Region.osPt.Contains pfn) :
    (m.spaces live).data pfn = m.phys.byteAt pfn :=
  if_neg hpfn

/-- Frames outside the page-table region hold the same. -/
theorem spaces_data_congr (hphys : ∀ pfn, ¬ Region.osPt.Contains pfn → m'.phys pfn = m.phys pfn) :
    (m'.spaces live).data = (m.spaces live).data := by
  funext pfn
  by_cases hpfn : Region.osPt.Contains pfn
  · exact (if_pos hpfn).trans (if_pos hpfn).symm
  · rw [spaces_data m' hpfn, spaces_data m hpfn]
    funext offset
    rw [PhysMem.byteAt, hphys pfn hpfn, PhysMem.byteAt]

theorem spaces_used_congr (hlist : m'.pglists .user = m.pglists .user) :
    (m'.spaces live).used = (m.spaces live).used := by
  ext pfn
  rw [mem_used, mem_used, allocated, hlist]
  rfl

/-- One page changed. -/
theorem spaces_setPage (hroot : root ∈ live) {backing : Option (Backing ℕ)}
    (hpage : ∀ r ∈ live, ∀ page', m'.phys.userPage r page' =
      if r = root ∧ page' = page then backing else m.phys.userPage r page') :
    (m'.spaces live).page = ((m.spaces live).setPage root page backing).page := by
  funext r page'
  rw [setPage_page]
  by_cases hr : r ∈ live
  · rw [spaces_page _ hr, spaces_page _ hr, hpage r hr]
  · rw [spaces_page_of_not_mem _ hr, spaces_page_of_not_mem _ hr, if_neg]
    rintro ⟨rfl, -⟩
    exact hr hroot

/-- Nothing of it changed. -/
theorem spaces_congr (hpage : ∀ r ∈ live, ∀ page, m'.phys.userPage r page = m.phys.userPage r page)
    (hlist : m'.pglists .user = m.pglists .user)
    (hphys : ∀ pfn, ¬ Region.osPt.Contains pfn → m'.phys pfn = m.phys pfn) : m'.spaces live = m.spaces live := by
  refine AddrSpaces.ext rfl ?_ (spaces_used_congr hlist) (spaces_data_congr hphys)
  funext r page
  by_cases hr : r ∈ live
  · rw [spaces_page _ hr, spaces_page _ hr, hpage r hr]
  · rw [spaces_page_of_not_mem _ hr, spaces_page_of_not_mem _ hr]

/-- A frame of the user region joins those in use. -/
def TakesFrame (m m' : Memory) (pfn : ℕ) : Prop :=
  ∀ frame, m'.allocated .user frame = true ↔ m.allocated .user frame = true ∨ frame = pfn

theorem TakesFrame.used (h : TakesFrame m m' pfn) : (m'.spaces live).used = insert pfn (m.spaces live).used := by
  ext frame
  rw [mem_used, h frame, Set.mem_insert_iff, mem_used, or_comm]

/-- Tables come from another region. -/
theorem takesFrame_of_lists {m₁ : Memory} (h : m₁.RegionsOk) (hgranted : (osPfnAlloc .user m₁).2.AllocsGranted)
    (hbefore : m₁.pglists .user = m.pglists .user)
    (hafter : m'.pglists .user = (osPfnAlloc .user m₁).2.pglists .user) : TakesFrame m m' (osPfnAlloc .user m₁).1 := by
  intro frame
  have hiff := (osPfnAlloc_grant h hgranted).allocated_iff .user frame
  simp only [true_and] at hiff
  unfold allocated at hiff ⊢
  rw [hafter, ← hbefore]
  exact hiff

theorem takesFrame_linked {style : TableStyle} (hstyle : style.Sound)
    (hflags : UserFlags style.flags) (h : Tables roots m)
    (hroot : roots root) (haddr : UserAddr addr)
    (hgranted : (osPfnAlloc .user (linkTables style (tablePath addr) root m).2).2.AllocsGranted) (t i e : ℕ) :
    TakesFrame m ((osPfnAlloc .user (linkTables style (tablePath addr) root m).2).2.writeEntry t i e)
      (osPfnAlloc .user (linkTables style (tablePath addr) root m).2).1 := by
  have hext := (linkTables_spec hstyle hroot (tablePath addr) [] root m h PhysMem.tableAt_nil
    (by simp [tablePath]) (linkSlot_user haddr.slot hflags) hgranted.of_osPfnAlloc).1
  exact takesFrame_of_lists hext.tables.regions_ok hgranted (linkTables_user _ _ _ _) rfl

/-- `install_page_table` maps a frame that was not in use, and takes no other. -/
theorem installPageTable_takes (h : Tables roots m) (hroot : roots root) (haddr : UserAddr addr) (errorCode : ℕ)
    (hgranted : (installPageTable root addr errorCode m).AllocsGranted) :
    ∃ pfn, MapsFresh roots m (installPageTable root addr errorCode m) root addr pfn (pageTableStyle errorCode).flags
        (pageTableStyle errorCode).flags ∧ TakesFrame m (installPageTable root addr errorCode m) pfn :=
  ⟨_, mapsFresh_of_steps (pageTableStyle_sound errorCode) (userFlags_pageTableStyle errorCode) h hroot haddr.slot
      (userFlags_pageTableStyle errorCode) hgranted,
    takesFrame_linked (pageTableStyle_sound errorCode)
      (userFlags_pageTableStyle errorCode) h hroot haddr hgranted _ _ _⟩

/-- So does `install_ptable` without a given frame. -/
theorem installPtable_takes (h : Tables roots m) (hroot : roots root) (haddr : UserAddr addr) (mm : MmSegment)
    (hgranted : (installPtable root mm addr 0 m).2.AllocsGranted) :
    TakesFrame m (installPtable root mm addr 0 m).2 (installPtable root mm addr 0 m).1 := by
  have hne : addr ≠ 0 := fun hzero ↦ by
    rw [hzero] at haddr
    exact absurd haddr.1 (by decide)
  unfold installPtable at hgranted ⊢
  simp only [if_neg hne, if_true] at hgranted ⊢
  exact takesFrame_linked ptableStyle_sound (Or.inr rfl) h hroot haddr hgranted _ _ _

theorem pathWritable_of_entry {phys : PhysMem} (hentry : phys.pageEntry root addr = makeEntry pfn 0x5) :
    phys.pathWritable root addr = false := by
  have hbit : Nat.testBit 0x5 1 = false := rfl
  unfold PhysMem.pathWritable
  rw [hentry, makeEntry, Nat.testBit_or, Nat.testBit_shiftLeft, hbit]
  simp [pageShift]

/-- A page that is mapped without the write bit cannot be written. -/
theorem MapsPage.guarded (hmaps : MapsPage roots m m' root addr pfn flags linkFlags) (hroot : roots root)
    (hread : addr < dataStart → flags = 0x5) (hshared : addr / pageSize ∈ sharedPages) :
    m'.phys.pathWritable root addr = false := by
  have hlow : addr < dataStart := by
    change addr / pageSize * pageSize < dataStart at hshared
    simp only [pageSize, dataStart] at *
    omega
  apply pathWritable_of_entry
  rw [PhysMem.pageEntry, hmaps.pages root _ _ hroot rfl, if_pos ⟨rfl, rfl, rfl⟩, hread hlow]

section Page

variable (h : Tables roots m) (hsub : ∀ r ∈ live, roots r) (hroot : root ∈ live) (hmine : root ∉ R.theirs)

include h hsub hroot hmine

/-- Mapping a page to a frame that was not in use. -/
theorem MapsFresh.step (hmaps : MapsFresh roots m m' root addr pfn flags linkFlags) (hflags : UserFlags flags)
    (haddr : UserAddr addr) (hread : addr < dataStart → flags = 0x5) (htakes : TakesFrame m m' pfn)
    (hvacant : addr / pageSize ∉ R.renewed → m.phys.pageEntry root addr = 0) :
    Step sharedPages R (m.spaces live) (m'.spaces live) := by
  have hpage := fun r (hr : r ∈ live) ↦ hmaps.toMapsPage.userPage h hflags haddr (hsub r hr)
  have hvacant' : addr / pageSize ∉ R.renewed → (m.spaces live).page root (addr / pageSize) = none := by
    intro hrenewed
    rw [spaces_page _ hroot, h.userPage_eq_none_iff (hsub root hroot) haddr]
    exact hvacant hrenewed
  have hfresh : pfn ∉ (m.spaces live).used := by
    rw [mem_used, hmaps.fresh]
    exact Bool.false_ne_true
  have heq : m'.spaces live =
      { (m.spaces live).setPage root (addr / pageSize) (some ⟨pfn, m'.phys.pathWritable root addr⟩) with
        used := insert pfn (m.spaces live).used } :=
    AddrSpaces.ext rfl (spaces_setPage hroot hpage) htakes.used (spaces_data_congr hmaps.extend.phys_eq)
  rw [heq]
  exact .take hroot hmine hvacant' hfresh fun hshared ↦ hmaps.toMapsPage.guarded (hsub root hroot) hread hshared

/-- Unmapping a page gives its frame up. -/
theorem Unmaps.step (hunmaps : Unmaps roots m m' root addr pfn) (haddr : UserAddr addr)
    (hgiven : addr / pageSize ∈ R.given)
    (hown : R.tidy → addr < dataStart → ∀ other ∈ live, other ≠ root → ∀ backing,
      m.phys.userPage other (addr / pageSize) =
      some backing → backing.frame ≠ pfn) :
    Step sharedPages R (m.spaces live) (m'.spaces live) := by
  have hpage := fun r (hr : r ∈ live) ↦ hunmaps.userPage h haddr (hsub r hr)
  obtain ⟨flags, hflags, hentry⟩ := hunmaps.entry_eq
  have hmapped : (m.spaces live).page root (addr / pageSize) = some ⟨pfn, m.phys.pathWritable root addr⟩ := by
    rw [spaces_page _ hroot]
    exact h.userPage_of_entry (hsub root hroot) haddr hflags hentry
  have hused : (m'.spaces live).used = (m.spaces live).used \ {pfn} := by
    ext frame
    rw [mem_used, hunmaps.allocated_iff .user frame, Set.mem_sdiff, mem_used, Set.mem_singleton_iff]
    simp
  have heq : m'.spaces live =
      { (m.spaces live).setPage root (addr / pageSize) none with used := (m.spaces live).used \ {pfn} } :=
    AddrSpaces.ext rfl (spaces_setPage hroot hpage) hused (spaces_data_congr hunmaps.phys_eq)
  rw [heq]
  refine .give hmine hgiven hmapped fun htidy hshared other hother hmap ↦ ?_
  have hlow : addr < dataStart := by
    change addr / pageSize * pageSize < dataStart at hshared
    simp only [pageSize, dataStart] at *
    omega
  obtain ⟨backing, hbacking, hframe⟩ := hmap
  by_cases hlive : other ∈ live
  · rw [spaces_page _ hlive] at hbacking
    exact hown htidy hlow other hlive hother backing hbacking hframe
  · rw [spaces_page_of_not_mem _ hlive] at hbacking
    exact absurd hbacking (by simp)

omit hmine in
/-- A page is mapped to the frame that another space has there. -/
theorem MapsPage.inherits (hmaps : MapsPage roots m m' root addr pfn 0x5 linkFlags) (haddr : UserAddr addr)
    (hlow : addr < dataStart) (hlist : m'.pglists .user = m.pglists .user)
    (hvacant : m.phys.pageEntry root addr = 0) (hlender : lender ∈ live) (hflags : UserFlags flags)
    (hentry : m.phys.pageEntry lender addr = makeEntry pfn flags) :
    Inherits sharedPages lender root (addr / pageSize) (m.spaces live) (m'.spaces live) := by
  have hshared : addr / pageSize ∈ sharedPages := by
    change addr / pageSize * pageSize < dataStart
    simp only [pageSize, dataStart] at *
    omega
  have hpage := fun r (hr : r ∈ live) ↦ hmaps.userPage h (Or.inl rfl) haddr (hsub r hr)
  have hguarded := hmaps.guarded (hsub root hroot) (fun _ ↦ rfl) hshared
  have hvacant' : (m.spaces live).page root (addr / pageSize) = none := by
    rw [spaces_page _ hroot, h.userPage_eq_none_iff (hsub root hroot) haddr]
    exact hvacant
  have hmapped : (m.spaces live).page lender (addr / pageSize) = some ⟨pfn, m.phys.pathWritable lender addr⟩ := by
    rw [spaces_page _ hlender]
    exact h.userPage_of_entry (hsub lender hlender) haddr hflags hentry
  have heq : m'.spaces live = (m.spaces live).setPage root (addr / pageSize) (some ⟨pfn, false⟩) := by
    rw [← hguarded]
    exact AddrSpaces.ext rfl (spaces_setPage hroot hpage) (spaces_used_congr hlist)
      (spaces_data_congr hmaps.extend.phys_eq)
  rw [heq]
  exact .lend hvacant' hshared hmapped

omit hmine in
/-- A page is mapped to a copy of the frame that another space has there. -/
theorem MapsFresh.inherits (hmaps : MapsFresh roots m m' root addr pfn flags linkFlags) (hflags : UserFlags flags)
    (haddr : UserAddr addr) (hdata : dataStart ≤ addr) (htakes : TakesFrame m m' pfn)
    (hvacant : m.phys.pageEntry root addr = 0) (hlender : lender ∈ live) {src flags' : ℕ}
    (hsrc : Region.user.Usable src) (hflags' : UserFlags flags')
    (hentry : m.phys.pageEntry lender addr = makeEntry src flags') :
    Inherits sharedPages lender root (addr / pageSize) (m.spaces live)
      (Memory.spaces live { m' with phys := m'.phys.copy pfn src }) := by
  have hpage := fun r (hr : r ∈ live) ↦ hmaps.toMapsPage.userPage h hflags haddr (hsub r hr)
  have hvacant' : (m.spaces live).page root (addr / pageSize) = none := by
    rw [spaces_page _ hroot, h.userPage_eq_none_iff (hsub root hroot) haddr]
    exact hvacant
  have hfresh : pfn ∉ (m.spaces live).used := by
    rw [mem_used, hmaps.fresh]
    exact Bool.false_ne_true
  have hapart : addr / pageSize ∉ sharedPages := by
    change ¬ addr / pageSize * pageSize < dataStart
    simp only [pageSize, dataStart] at *
    omega
  have hmapped : (m.spaces live).page lender (addr / pageSize) = some ⟨src, m.phys.pathWritable lender addr⟩ := by
    rw [spaces_page _ hlender]
    exact h.userPage_of_entry (hsub lender hlender) haddr hflags' hentry
  have hcopied : ∀ r ∈ live, ∀ page, (m'.phys.copy pfn src).userPage r page = m'.phys.userPage r page := by
    intro r hr page
    have htables := hmaps.extend.tables
    have hafter := (carries_copy htables hmaps.usable src).tables
    refine htables.userPage_congr hafter (hsub r hr) (hsub r hr) (fun _ ↦ ?_) fun _ _ path i hlead ↦ ?_
    · exact entry_copy htables hmaps.usable (hsub r hr) (by simp [tablePath]) _
    · have hlength := hlead.length_le
      simp only [List.length_append, List.length_cons, List.length_nil, tablePath] at hlength
      exact entry_copy htables hmaps.usable (hsub r hr) (by omega) i
  have hpages : (Memory.spaces live { m' with phys := m'.phys.copy pfn src }).page =
      ((m.spaces live).setPage root (addr / pageSize) (some ⟨pfn, m'.phys.pathWritable root addr⟩)).page :=
    spaces_setPage hroot fun r hr page' ↦ (hcopied r hr page').trans (hpage r hr page')
  have hcontents : (Memory.spaces live { m' with phys := m'.phys.copy pfn src }).data =
      Function.update (m.spaces live).data pfn ((m.spaces live).data src) := by
    funext frame
    rw [Function.update_apply, spaces_data m (user_not_osPt hsrc.contains)]
    by_cases hframe : Region.osPt.Contains frame
    · have hne : frame ≠ pfn := fun heq ↦ user_not_osPt hmaps.usable.contains (heq ▸ hframe)
      rw [if_neg hne]
      exact (if_pos hframe).trans (if_pos hframe).symm
    · rw [spaces_data _ hframe, spaces_data m hframe]
      funext offset
      change byteOf (if frame = pfn then m'.phys src (offset / 8) else m'.phys frame (offset / 8)) (offset % 8) = _
      rw [hmaps.extend.phys_eq frame hframe, hmaps.extend.phys_eq src (user_not_osPt hsrc.contains)]
      split <;> rfl
  have heq : Memory.spaces live { m' with phys := m'.phys.copy pfn src } =
      { (m.spaces live).setPage root (addr / pageSize) (some ⟨pfn, m'.phys.pathWritable root addr⟩) with
        used := insert pfn (m.spaces live).used
        data := Function.update (m.spaces live).data pfn ((m.spaces live).data src) } :=
    AddrSpaces.ext rfl hpages htakes.used hcontents
  rw [heq]
  exact .copy hvacant' hapart hmapped hfresh

end Page

section Kernel

/-- Memory agrees on the tables. -/
theorem Tables.userPage_eq_of_phys (h : Tables roots m) (h' : Tables roots m')
    (hphys : ∀ pfn, m.phys.IsTable roots pfn → m'.phys pfn = m.phys pfn) (hr : roots r) (page : ℕ) :
    m'.phys.userPage r page = m.phys.userPage r page := by
  refine h.userPage_congr h' hr hr (fun _ ↦ Tables.entry_congr hphys hr (by simp [tablePath]) _)
    fun _ _ path i hlead ↦ ?_
  have hlength := hlead.length_le
  simp only [List.length_append, List.length_cons, List.length_nil, tablePath] at hlength
  exact Tables.entry_congr hphys hr (by omega) i

variable (h : Tables roots m) (hsub : ∀ r ∈ live, roots r)

include h hsub

/-- A frame of the page-table region is handed out. -/
theorem spaces_grant (hgrant : Memory.Grant .osPt m m' pfn) : m'.spaces live = m.spaces live := by
  have hlist : ∀ frame, m'.allocated .user frame = true ↔ m.allocated .user frame = true := by
    intro frame
    rw [hgrant.allocated_iff]
    simp
  refine AddrSpaces.ext rfl ?_ ?_ (spaces_data_congr fun frame hframe ↦ ?_)
  · funext r page
    by_cases hr : r ∈ live
    · rw [spaces_page _ hr, spaces_page _ hr]
      exact h.userPage_eq_of_phys (h.grant hgrant) (fun _ ↦ h.grant_phys hgrant) (hsub r hr) page
    · rw [spaces_page_of_not_mem _ hr, spaces_page_of_not_mem _ hr]
  · ext frame
    exact hlist frame
  · have hne : frame ≠ pfn := fun heq ↦ hframe (heq ▸ hgrant.usable.contains)
    rw [hgrant.phys_eq, if_pos rfl, PhysMem.zero_of_ne hne]

/-- Frames of user pages are written. -/
theorem spaces_put (hroot : root ∈ live) (hmine : root ∉ R.theirs) {phys : PhysMem}
    (hframes : ∀ frame, (∀ page backing, m.phys.userPage root page = some backing → backing.frame ≠ frame) →
      phys frame = m.phys frame)
    (hbytes : ∀ frame offset, (∀ page backing, m.phys.userPage root page = some backing →
      (R.strict → backing.write = true) → (page, offset) ∈ R.stored → backing.frame ≠ frame) →
      phys.byteAt frame offset = m.phys.byteAt frame offset) :
    Step sharedPages R (m.spaces live) (Memory.spaces live { m with phys := phys }) := by
  have htable : ∀ frame, m.phys.IsTable roots frame → phys frame = m.phys frame := by
    intro frame hframe
    refine hframes frame fun page backing hpage heq ↦ ?_
    rcases h.userPage_cases (hsub root hroot) page with ⟨-, hnone⟩ | ⟨pfn, flags, -, husable, -, -, hsome⟩
    · rw [hnone] at hpage
      exact absurd hpage (by simp)
    · rw [hsome] at hpage
      obtain rfl := Option.some.inj hpage
      obtain rfl : pfn = frame := heq
      exact absurd ((h.table_usable pfn hframe).contains.eq husable.contains) (by decide)
  have htables : Tables roots { m with phys := phys } :=
    h.congr h.regions_ok rfl htable h.table_allocated
  have heq : Memory.spaces live { m with phys := phys } =
      { m.spaces live with data := (Memory.spaces live { m with phys := phys }).data } := by
    refine AddrSpaces.ext rfl ?_ rfl rfl
    funext r page
    by_cases hr : r ∈ live
    · rw [spaces_page _ hr]
      exact (h.userPage_eq_of_phys htables htable (hsub r hr) page).trans (spaces_page _ hr page).symm
    · rw [spaces_page_of_not_mem _ hr]
      exact (spaces_page_of_not_mem _ hr page).symm
  rw [heq]
  refine .put hmine fun frame offset hframe ↦ ?_
  by_cases hosPt : Region.osPt.Contains frame
  · exact congrFun ((if_pos hosPt).trans (if_pos hosPt).symm) offset
  · rw [spaces_data _ hosPt, spaces_data _ hosPt]
    refine hbytes frame offset fun page backing hpage ↦ hframe page backing ?_
    rwa [spaces_page _ hroot]

/-- A table is begun: an empty space. -/
theorem spaces_begun (hgrant : Memory.Grant .osPt m m' pfn) :
    (m'.zeroFrame pfn).spaces (insert pfn live) = { m.spaces live with live := insert pfn live } := by
  obtain ⟨hbegun, hclear⟩ := Begun.start h hgrant
  have hsub' : ∀ r ∈ insert pfn live, roots r ∨ r = pfn := fun r hr ↦ (Set.mem_insert_iff.1 hr).symm.imp_left (hsub r)
  have hpages : ((m'.zeroFrame pfn).spaces (insert pfn live)).page = (m.spaces live).page := by
    funext r page
    by_cases hr : r ∈ live
    · rw [spaces_page _ hr, spaces_page _ (Set.mem_insert_of_mem pfn hr)]
      refine h.userPage_congr hbegun.tables (hsub r hr) (Or.inl (hsub r hr)) (fun _ ↦ ?_) fun _ _ path i hlead ↦ ?_
      · exact hbegun.others r _ _ (hsub r hr) (by simp [tablePath])
      · have hlength := hlead.length_le
        simp only [List.length_append, List.length_cons, List.length_nil, tablePath] at hlength
        exact hbegun.others r path i (hsub r hr) (by omega)
    · rw [spaces_page_of_not_mem _ hr]
      by_cases heq : r = pfn
      · rw [heq, spaces_page _ (Set.mem_insert pfn live)]
        rcases hbegun.tables.userPage_cases (Or.inr rfl) page with ⟨-, hnone⟩ | ⟨frame, flags, -, -, hflags, hentry, -⟩
        · exact hnone
        · rw [PhysMem.pageEntry, hclear] at hentry
          exact absurd hentry.symm (hflags.tableFlags.ne_zero frame)
      · exact spaces_page_of_not_mem _ (fun hmem ↦ (Set.mem_insert_iff.1 hmem).elim heq hr) page
  have hkept := spaces_grant h hsub hgrant
  have hused : ((m'.zeroFrame pfn).spaces (insert pfn live)).used = (m.spaces live).used := by
    rw [← hkept]
    rfl
  have hcontents : ((m'.zeroFrame pfn).spaces (insert pfn live)).data = (m.spaces live).data := by
    rw [← hkept]
    refine spaces_data_congr fun frame hframe ↦ PhysMem.zero_of_ne ?_
    exact fun heq ↦ hframe (heq ▸ hgrant.usable.contains)
  exact AddrSpaces.ext rfl hpages hused hcontents

/-- The kernel mappings are none of the user's. -/
theorem spaces_mapsKernel (hmaps : MapsKernel roots m m' root) (hlist : m'.pglists .user = m.pglists .user) :
    m'.spaces live = m.spaces live := by
  refine spaces_congr (fun r hr page ↦ ?_) hlist hmaps.extend.phys_eq
  refine h.userPage_congr hmaps.extend.tables (hsub r hr) (hsub r hr) (fun huser ↦ ?_) fun huser _ path i hlead ↦ ?_
  · exact hmaps.others r _ _ (hsub r hr) (by simp [tablePath]) (Or.inr huser.slot)
  · have hlength := hlead.length_le
    simp only [List.length_append, List.length_cons, List.length_nil, tablePath] at hlength
    obtain ⟨rest, hrest⟩ := hlead
    refine hmaps.others r path i (hsub r hr) (by omega) (Or.inr (userSlot_front huser.slot path i rest ?_))
    rw [← hrest, List.append_assoc]
    rfl

end Kernel

/-- An empty space is founded below a root that is not live. -/
theorem found_step (m : Memory) (hnew : pfn ∉ live) (hstrange : pfn ∉ R.known) :
    Step sharedPages R (m.spaces live) { m.spaces live with live := insert pfn live } :=
  .found hnew hstrange fun page ↦ spaces_page_of_not_mem m hnew page

/-- A frame of the page-table region is freed. -/
theorem spaces_free_osPt (pfn : ℕ) (m : Memory) : (osPfnFree .osPt pfn m).spaces live = m.spaces live :=
  spaces_congr (fun _ _ _ ↦ rfl) (by simp [osPfnFree]) fun _ _ ↦ rfl

theorem writeWindow_lists (config : OsConfigs) (pmd first count : ℕ) (m : Memory) :
    (writeWindow config pmd first count m).pglists = m.pglists := by
  induction count generalizing first m with
  | zero => rfl
  | succ count ih => exact ih (first + 1) _

/-- The kernel mappings take no frame of the user region. -/
theorem installOsPts_user (root : ℕ) (config : OsConfigs) (m : Memory) :
    (installOsPts root config m).pglists .user = m.pglists .user := by
  have hlink : ∀ style t i (m : Memory), (linkTable style t i m).2.pglists .user = m.pglists .user :=
    fun style t i m ↦ linkTables_user style [i] t m
  unfold installOsPts
  simp only
  refine (linkTables_user apicStyle _ _ _).trans ?_
  rw [writeWindow_lists]
  split
  · rw [hlink, hlink]
  · change (linkTable osPtsStyle _ 0 _).2.pglists .user = _
    rw [hlink, hlink]

/-- A space ends. -/
theorem spaces_close (m : Memory) (hmine : root ∉ R.theirs) :
    Step sharedPages R (m.spaces live) (m.spaces (live \ {root})) := by
  have heq : m.spaces (live \ {root}) =
      { m.spaces live with
        live := (m.spaces live).live \ {root}
        page := Function.update (m.spaces live).page root fun _ ↦ none } := by
    refine AddrSpaces.ext rfl ?_ rfl rfl
    funext r page
    change (m.spaces (live \ {root})).page r page = Function.update (m.spaces live).page root (fun _ ↦ none) r page
    by_cases hroot : r = root
    · subst hroot
      rw [spaces_page_of_not_mem m fun hmem ↦ hmem.2 rfl, Function.update_self]
    · rw [Function.update_of_ne hroot]
      by_cases hr : r ∈ live
      · rw [spaces_page m hr, spaces_page m (show r ∈ live \ {root} from ⟨hr, hroot⟩)]
      · rw [spaces_page_of_not_mem m hr, spaces_page_of_not_mem m fun hmem ↦ hr hmem.1]
  rw [heq]
  exact .close hmine

end GemOS
