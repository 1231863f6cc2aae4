import GemOS.Foundation.Spaces
import GemOS.Paging.OtherFrames
import GemOS.Paging.Release

/-!
# The pages that page tables make

What user mode sees of memory are the pages that the page tables in use map for it, each with its frame and the right to
write (`userPage`). Mapping a page and unmapping it change that page and no other.
-/

namespace GemOS

open Foundation TableForest Memory AddrSpaces

variable {roots roots' : ℕ → Prop} {m m' : Memory} {root r addr page pfn flags linkFlags : ℕ}

/-- The first address of a page. -/
def pageAddr (page : ℕ) : ℕ := page * pageSize

/-- The page of an address lies in the same slots. -/
theorem pageAddr_indices (addr : ℕ) :
    tablePath (pageAddr (addr / pageSize)) = tablePath addr ∧
      pteIndex (pageAddr (addr / pageSize)) = pteIndex addr := by
  simp only [tablePath, pageAddr, pageSize, List.cons.injEq, and_true, pgdIndex_eq, pudIndex_eq,
    pmdIndex_eq, pteIndex_eq]
  refine ⟨⟨?_, ?_, ?_⟩, ?_⟩ <;> omega

theorem canonical_pageAddr : Canonical (pageAddr (addr / pageSize)) ↔ Canonical addr := by
  simp only [Canonical, pageAddr, pageSize]
  norm_num
  omega

theorem userAddr_pageAddr : UserAddr (pageAddr (addr / pageSize)) ↔ UserAddr addr := by
  simp only [UserAddr, pageAddr, pageSize]
  omega

theorem hwWalk_pageAddr (phys : PhysMem) (root addr : ℕ) :
    hwWalk phys root (pageAddr (addr / pageSize)) = hwWalk phys root addr := by
  obtain ⟨hpath, hpte⟩ := pageAddr_indices addr
  simp only [tablePath, List.cons.injEq, and_true] at hpath
  unfold hwWalk
  rw [hpath.1, hpath.2.1, hpath.2.2, hpte]

theorem pageEntry_pageAddr (phys : PhysMem) (root addr : ℕ) :
    phys.pageEntry root (pageAddr (addr / pageSize)) = phys.pageEntry root addr := by
  obtain ⟨hpath, hpte⟩ := pageAddr_indices addr
  rw [PhysMem.pageEntry, hpath, hpte, PhysMem.pageEntry]

theorem pathWritable_pageAddr (phys : PhysMem) (root addr : ℕ) :
    phys.pathWritable root (pageAddr (addr / pageSize)) = phys.pathWritable root addr := by
  obtain ⟨hpath, -⟩ := pageAddr_indices addr
  simp only [tablePath, List.cons.injEq, and_true] at hpath
  unfold PhysMem.pathWritable
  rw [hpath.1, hpath.2.1, hpath.2.2, pageEntry_pageAddr]

/-- Pages of the user segments are told apart by their slots. -/
theorem page_eq_iff (hpage : UserAddr (pageAddr page)) (haddr : UserAddr addr) :
    (tablePath (pageAddr page) = tablePath addr ∧ pteIndex (pageAddr page) = pteIndex addr) ↔
      page = addr / pageSize := by
  have hlow := hpage.2
  have hlow' := haddr.2
  rw [indices_eq_iff (by omega) (by omega)]
  simp only [pageAddr, pageSize]
  omega

/-- A page as user mode finds it: the frame behind it, and whether it may be written. -/
def PhysMem.userPage (phys : PhysMem) (root page : ℕ) : Option (Backing ℕ) :=
  if Canonical (pageAddr page) then
    (hwWalk phys root (pageAddr page)).bind fun mapping ↦
      if mapping.user then some ⟨mapping.pfn, mapping.writable⟩ else none
  else none

/-- User mode reaches the pages that it finds. -/
theorem userAccessible_iff_userPage (phys : PhysMem) (root addr : ℕ) (write : Bool) :
    UserAccessible phys root addr write ↔
      ∃ backing, phys.userPage root (addr / pageSize) = some backing ∧ (write = true → backing.write = true) := by
  unfold UserAccessible PhysMem.userPage
  rw [hwWalk_pageAddr]
  by_cases hcanonical : Canonical addr
  · rw [if_pos (canonical_pageAddr.2 hcanonical)]
    simp only [hcanonical, true_and, Mapping.UserMay]
    rcases hwWalk phys root addr with _ | ⟨frame, user, writable⟩
    · simp
    · cases user <;> simp
  · rw [if_neg (canonical_pageAddr.not.2 hcanonical)]
    simp [hcanonical]

/-- The frame behind the page of an address that user mode reaches. -/
theorem userPage_of_walk {phys : PhysMem} (hcanonical : Canonical addr) {mapping : Mapping}
    (hwalk : hwWalk phys root addr = some mapping) (huser : mapping.user = true) :
    phys.userPage root (addr / pageSize) = some ⟨mapping.pfn, mapping.writable⟩ := by
  unfold PhysMem.userPage
  rw [if_pos (canonical_pageAddr.2 hcanonical), hwWalk_pageAddr, hwalk, Option.bind_some, if_pos huser]

/-- The links above a mapped page are there. -/
theorem PhysMem.link_ne_zero {phys : PhysMem} (hpage : phys.pageEntry root addr ≠ 0) {path : List ℕ} {i : ℕ}
    (hlead : path ++ [i] <+: tablePath addr) : phys.entry root path i ≠ 0 := by
  intro hzero
  obtain ⟨rest, hrest⟩ := hlead
  refine hpage (entryAt_of_walk_none (?_ : phys.tableAt root (tablePath addr) = none) _)
  rw [← hrest]
  refine tableAt_append_none ?_ rest
  rw [tableAt_concat_entry, hzero]
  rfl

namespace Tables

/-- A page is none of the user's, or is mapped to a frame of the user region. -/
theorem userPage_cases (h : Tables roots m) (hroot : roots root) (page : ℕ) :
    (¬ (UserAddr (pageAddr page) ∧ m.phys.pageEntry root (pageAddr page) ≠ 0) ∧ m.phys.userPage root page = none) ∨
      ∃ pfn flags, UserAddr (pageAddr page) ∧ Region.user.Usable pfn ∧ UserFlags flags ∧
        m.phys.pageEntry root (pageAddr page) = makeEntry pfn flags ∧
        m.phys.userPage root page = some ⟨pfn, m.phys.pathWritable root (pageAddr page)⟩ := by
  unfold PhysMem.userPage
  by_cases haddr : UserAddr (pageAddr page)
  · have hcanonical : Canonical (pageAddr page) := Or.inl (haddr.2.trans (by norm_num))
    rw [if_pos hcanonical]
    rcases h.page_cases hroot haddr.slot with ⟨hzero, -, hnone⟩ | ⟨_, pfn, flags, -, husable, hflags, hentry, -, hsome⟩
    · rw [hnone]
      exact Or.inl ⟨fun hand ↦ hand.2 hzero, rfl⟩
    · rw [hsome]
      exact Or.inr ⟨pfn, flags, haddr, husable, hflags, hentry, rfl⟩
  · refine Or.inl ⟨fun hand ↦ haddr hand.1, ?_⟩
    split
    · rename_i hcanonical
      cases hwalk : hwWalk m.phys root (pageAddr page) with
      | none => rfl
      | some mapping =>
        have hslot : ¬ UserSlot (tablePath (pageAddr page)) (pteIndex (pageAddr page)) := by
          rcases hcanonical with hlow | ⟨hhigh, hlt⟩
          · exact fun hslot ↦ haddr (userAddr_of_slot hlow hslot)
          · exact not_slot_of_high hhigh hlt
        rw [Option.bind_some, h.hwWalk_not_user hroot hslot hwalk]
        rfl
    · rfl

/-- The page of an address that user mode may fault on. -/
theorem userPage_eq_none_iff (h : Tables roots m) (hroot : roots root) (haddr : UserAddr addr) :
    m.phys.userPage root (addr / pageSize) = none ↔ m.phys.pageEntry root addr = 0 := by
  rw [← pageEntry_pageAddr]
  have hpage := userAddr_pageAddr.2 haddr
  rcases h.userPage_cases hroot (addr / pageSize) with ⟨hnot, hnone⟩ | ⟨pfn, flags, -, -, hflags, hentry, hsome⟩
  · exact iff_of_true hnone (not_not.1 fun hne ↦ hnot ⟨hpage, hne⟩)
  · rw [hsome, hentry]
    exact iff_of_false (by simp) (hflags.tableFlags.ne_zero pfn)

/-- The page of an address whose entry is known. -/
theorem userPage_of_entry (h : Tables roots m) (hroot : roots root) (haddr : UserAddr addr) (hflags : UserFlags flags)
    (hentry : m.phys.pageEntry root addr = makeEntry pfn flags) :
    m.phys.userPage root (addr / pageSize) = some ⟨pfn, m.phys.pathWritable root addr⟩ := by
  rw [← pageEntry_pageAddr] at hentry
  rcases h.userPage_cases hroot (addr / pageSize) with ⟨hnot, -⟩ | ⟨pfn', flags', -, -, hflags', hentry', hsome⟩
  · exact absurd ⟨userAddr_pageAddr.2 haddr, hentry ▸ hflags.tableFlags.ne_zero pfn⟩ hnot
  · have hframe := congrArg (· / 2 ^ 12) (hentry'.symm.trans hentry)
    simp only [makeEntry_frame _ hflags.tableFlags.lt, makeEntry_frame _ hflags'.tableFlags.lt] at hframe
    rw [hsome, pathWritable_pageAddr, hframe]

theorem userPage_eq_none_of_walk (h : Tables roots m) (hroot : roots root) (haddr : UserAddr addr)
    (hwalk : hwWalk m.phys root addr = none) : m.phys.pageEntry root addr = 0 := by
  rw [← h.userPage_eq_none_iff hroot haddr, PhysMem.userPage, hwWalk_pageAddr, hwalk]
  exact ite_self none

/-- The pages of a root are the same in two memories when its tables show the same at the slots that lead to them. -/
theorem userPage_congr (h : Tables roots m) (h' : Tables roots' m') (hr : roots r) (hr' : roots' r)
    (hpage : UserAddr (pageAddr page) → m'.phys.pageEntry r (pageAddr page) = m.phys.pageEntry r (pageAddr page))
    (hlinks : UserAddr (pageAddr page) → m.phys.pageEntry r (pageAddr page) ≠ 0 → ∀ path i,
      path ++ [i] <+: tablePath (pageAddr page) → m'.phys.entry r path i = m.phys.entry r path i) :
    m'.phys.userPage r page = m.phys.userPage r page := by
  rcases h.userPage_cases hr page with ⟨hnot, hnone⟩ | ⟨pfn, flags, haddr, -, hflags, hentry, hsome⟩
  · rcases h'.userPage_cases hr' page with ⟨-, hnone'⟩ | ⟨pfn, flags, haddr, -, hflags, hentry, -⟩
    · rw [hnone, hnone']
    · rw [hpage haddr] at hentry
      exact absurd ⟨haddr, hentry ▸ hflags.tableFlags.ne_zero pfn⟩ hnot
  · have hne : m.phys.pageEntry r (pageAddr page) ≠ 0 := hentry ▸ hflags.tableFlags.ne_zero pfn
    have hwritable : m'.phys.pathWritable r (pageAddr page) = m.phys.pathWritable r (pageAddr page) := by
      have htop := hlinks haddr hne [] (pgdIndex (pageAddr page))
        ⟨[pudIndex (pageAddr page), pmdIndex (pageAddr page)], rfl⟩
      have hpud := hlinks haddr hne [pgdIndex (pageAddr page)] (pudIndex (pageAddr page))
        ⟨[pmdIndex (pageAddr page)], rfl⟩
      have hpmd := hlinks haddr hne [pgdIndex (pageAddr page), pudIndex (pageAddr page)]
        (pmdIndex (pageAddr page)) ⟨[], rfl⟩
      unfold PhysMem.pathWritable
      rw [htop, hpud, hpmd, hpage haddr]
    rcases h'.userPage_cases hr' page with ⟨hnot', -⟩ | ⟨pfn', flags', -, -, hflags', hentry', hsome'⟩
    · exact absurd ⟨haddr, hpage haddr ▸ hne⟩ hnot'
    · have hframe := congrArg (· / 2 ^ 12) (hentry'.symm.trans ((hpage haddr).trans hentry))
      simp only [makeEntry_frame _ hflags.tableFlags.lt, makeEntry_frame _ hflags'.tableFlags.lt] at hframe
      rw [hsome, hsome', hwritable, hframe]

end Tables

/-- Mapping a page changes that page. -/
theorem MapsPage.userPage (h : Tables roots m) (hmaps : MapsPage roots m m' root addr pfn flags linkFlags)
    (hflags : UserFlags flags) (haddr : UserAddr addr) (hr : roots r) (page : ℕ) :
    m'.phys.userPage r page =
      if r = root ∧ page = addr / pageSize then some ⟨pfn, m'.phys.pathWritable root addr⟩
      else m.phys.userPage r page := by
  have htables := hmaps.extend.tables
  split
  · rename_i hhere
    obtain ⟨rfl, rfl⟩ := hhere
    refine htables.userPage_of_entry hr haddr hflags ?_
    rw [PhysMem.pageEntry, hmaps.pages r _ _ hr rfl, if_pos ⟨rfl, rfl, rfl⟩]
  · rename_i hother
    refine h.userPage_congr htables hr hr (fun huser ↦ ?_) fun huser hne path i hlead ↦ ?_
    · rw [PhysMem.pageEntry, hmaps.pages r _ _ hr rfl, if_neg]
      · rfl
      · rintro ⟨rfl, hslots⟩
        exact hother ⟨rfl, (page_eq_iff huser haddr).1 hslots⟩
    · have hlength := hlead.length_le
      simp only [List.length_append, List.length_cons, List.length_nil, tablePath] at hlength
      rcases hmaps.links r path i hr (by omega) with hsame | ⟨hzero, -⟩
      · exact hsame
      · exact absurd hzero (PhysMem.link_ne_zero hne hlead)

/-- Unmapping a page takes that page away. -/
theorem Unmaps.userPage (h : Tables roots m) (hunmaps : Unmaps roots m m' root addr pfn) (haddr : UserAddr addr)
    (hr : roots r) (page : ℕ) :
    m'.phys.userPage r page = if r = root ∧ page = addr / pageSize then none else m.phys.userPage r page := by
  split
  · rename_i hhere
    obtain ⟨rfl, rfl⟩ := hhere
    rw [hunmaps.tables.userPage_eq_none_iff hr haddr, PhysMem.pageEntry, hunmaps.entries r _ _ hr (by simp [tablePath]),
      if_pos ⟨rfl, rfl, rfl⟩]
  · rename_i hother
    refine h.userPage_congr hunmaps.tables hr hr (fun huser ↦ ?_) fun huser _ path i hlead ↦ ?_
    · rw [PhysMem.pageEntry, hunmaps.entries r _ _ hr (by simp [tablePath]), if_neg]
      · rfl
      · rintro ⟨rfl, hslots⟩
        exact hother ⟨rfl, (page_eq_iff huser haddr).1 hslots⟩
    · have hlength := hlead.length_le
      simp only [List.length_append, List.length_cons, List.length_nil, tablePath] at hlength
      rw [hunmaps.entries r path i hr (by omega), if_neg]
      rintro ⟨-, hpath, -⟩
      rw [hpath] at hlength
      simp only [tablePath, List.length_cons, List.length_nil] at hlength
      omega

/-- The page is mapped below the DATA segment, where new processes share the frames. -/
def sharedPages : Set ℕ := {page | pageAddr page < dataStart}

end GemOS
