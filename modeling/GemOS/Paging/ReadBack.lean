import GemOS.Paging.KernelMap

/-!
# A page just installed is read back

`install_ptable` descends by the test for zero and the mask `FLAG_MASK`, `get_user_pte` by the present and user bits
and a shift. On the tables of this kernel both find the same entry. The frame need not be one of the user region.
-/

namespace GemOS

open Foundation TableForest Memory

/-- The contents of the entry that `get_user_pte` finds. -/
def PhysMem.userEntry (phys : PhysMem) (pgd addr : ℕ) : Option ℕ :=
  (getUserPte phys pgd addr).map fun pte ↦ phys pte.1 pte.2

variable {roots : ℕ → Prop} {m : Memory} {root addr t : ℕ} {phys : PhysMem}

/-- An entry for user mode above the last level links a table, and `get_user_pte` follows it. -/
theorem EntryOk.user_next {apic : ApicBase} {path : List ℕ} {i e : ℕ} (h : EntryOk apic path i e)
    (hshort : path.length < 3)
    (huser : ¬ (e &&& 0x1 = 0 ∨ e &&& 0x4 = 0)) :
    e &&& 0x80 = 0 ∧ tableOf e = some ((e >>> pteShift) &&& 0xffffffff) := by
  obtain ⟨hpresent, hbit⟩ := not_or.1 huser
  have hsmall : e &&& 0x80 = 0 := by
    cases h with
    | empty => rfl
    | userTable _ _ _ hflags => exact hflags.tableFlags.small _
    | userPage _ hlast => omega
    | kernelTable => exact TableFlags.small _ (Or.inr rfl)
    | kernelPage hpage hflags =>
      refine absurd (Tables.and_four_of_testBit ?_) hbit
      rw [Nat.testBit_or, hpage.testBit (by norm_num)]
      rcases hflags with rfl | rfl | rfl <;> decide
  obtain ⟨htable, hframe⟩ := h.table_frame hshort hpresent hsmall
  exact ⟨hsmall, htable.trans (congrArg some hframe.symm)⟩

namespace Tables

/-- Memory with the same tables above the last level. -/
def SameAbove (m : Memory) (root : ℕ) (phys : PhysMem) : Prop :=
  ∀ path t, path.length < 3 → m.phys.tableAt root path = some t → phys t = m.phys t

/-- One level of `get_user_pte`. -/
theorem getUserPte_next (h : Tables roots m) (hroot : roots root) {path : List ℕ} {i : ℕ} (hshort : path.length < 3)
    (htable : m.phys.tableAt root path = some t) (huser : ¬ (m.phys t i &&& 0x1 = 0 ∨ m.phys t i &&& 0x4 = 0)) :
    m.phys t i &&& 0x80 = 0 ∧ m.phys.tableAt root (path ++ [i]) = some ((m.phys t i >>> pteShift) &&& 0xffffffff) := by
  have hok := h.entry_ok root path i hroot hshort.le
  rw [PhysMem.entry_of_tableAt htable] at hok
  rw [PhysMem.tableAt_concat htable]
  exact hok.user_next hshort huser

/-- An entry that `get_user_pte` stops at leads nowhere. -/
theorem getUserPte_stop (h : Tables roots m) (hroot : roots root) (path : List ℕ) (i : ℕ) (hslot : UserSlot path i)
    (hshort : path.length < 3) (htable : m.phys.tableAt root path = some t)
    (hstop : m.phys t i &&& 0x1 = 0 ∨ m.phys t i &&& 0x4 = 0) (rest : List ℕ) :
    m.phys.tableAt root (path ++ [i] ++ rest) = none := by
  refine PhysMem.tableAt_append_none ?_ rest
  rcases h.user_step hroot path i hslot hshort htable with ⟨-, hnone⟩ | ⟨u, flags, -, hflags, hentry, -⟩
  · exact hnone
  · rw [hentry, hflags.tableFlags.present, hflags.user] at hstop
    exact absurd hstop (by decide)

/-- The last-level entry decides what `get_user_pte` finds; without a last-level table nothing is found. -/
theorem getUserPte_cases (h : Tables roots m) (hroot : roots root) (addr : ℕ) :
    ((UserSlot (tablePath addr) (pteIndex addr) → m.phys.tableAt root (tablePath addr) = none) ∧
      ∀ phys, SameAbove m root phys → getUserPte phys root addr = none) ∨
    ∃ pt, m.phys.tableAt root (tablePath addr) = some pt ∧ ∀ phys, SameAbove m root phys →
      getUserPte phys root addr =
        if phys pt (pteIndex addr) &&& 0x1 = 0 ∨ phys pt (pteIndex addr) &&& 0x4 = 0 then none
        else some (pt, pteIndex addr) := by
  simp only [getUserPte]
  by_cases hpgd : m.phys root (pgdIndex addr) &&& 0x1 = 0 ∨ m.phys root (pgdIndex addr) &&& 0x4 = 0
  · refine Or.inl ⟨fun hslot ↦ ?_, fun phys hsame ↦ ?_⟩
    · exact h.getUserPte_stop hroot [] (pgdIndex addr) (userSlot_page_iff.1 hslot).1
        (by simp) PhysMem.tableAt_nil hpgd [pudIndex addr, pmdIndex addr]
    · rw [hsame [] root (by simp) PhysMem.tableAt_nil]
      exact if_pos hpgd
  have hpud : m.phys.tableAt root [pgdIndex addr] = _ := (h.getUserPte_next hroot (by simp) PhysMem.tableAt_nil hpgd).2
  generalize hpudFrame : (m.phys root (pgdIndex addr) >>> pteShift) &&& 0xffffffff = pud at hpud
  by_cases hpudUser : m.phys pud (pudIndex addr) &&& 0x1 = 0 ∨ m.phys pud (pudIndex addr) &&& 0x4 = 0
  · refine Or.inl ⟨fun hslot ↦ ?_, fun phys hsame ↦ ?_⟩
    · exact h.getUserPte_stop hroot [_] _ (userSlot_page_iff.1 hslot) (by simp) hpud hpudUser [pmdIndex addr]
    · rw [hsame [] root (by simp) PhysMem.tableAt_nil, hpudFrame, hsame _ pud (by simp) hpud]
      exact (if_neg hpgd).trans (if_pos hpudUser)
  have hpmd : m.phys.tableAt root [pgdIndex addr, pudIndex addr] = _ :=
    (h.getUserPte_next hroot (by simp) hpud hpudUser).2
  generalize hpmdFrame : (m.phys pud (pudIndex addr) >>> pteShift) &&& 0xffffffff = pmd at hpmd
  by_cases hpmdUser : m.phys pmd (pmdIndex addr) &&& 0x1 = 0 ∨ m.phys pmd (pmdIndex addr) &&& 0x4 = 0
  · refine Or.inl ⟨fun hslot ↦ ?_, fun phys hsame ↦ ?_⟩
    · exact h.getUserPte_stop hroot [_, _] _ (userSlot_page_iff.1 hslot) (by simp) hpmd hpmdUser []
    · rw [hsame [] root (by simp) PhysMem.tableAt_nil, hpudFrame, hsame _ pud (by simp) hpud, hpmdFrame,
        hsame _ pmd (by simp) hpmd]
      exact (if_neg hpgd).trans ((if_neg hpudUser).trans (if_pos (or_assoc.1 (Or.inl hpmdUser))))
  obtain ⟨hsmall, hpt⟩ := h.getUserPte_next hroot (by simp) hpmd hpmdUser
  replace hpt : m.phys.tableAt root (tablePath addr) = _ := hpt
  refine Or.inr ⟨_, hpt, fun phys hsame ↦ ?_⟩
  rw [hsame [] root (by simp) PhysMem.tableAt_nil, hpudFrame, hsame _ pud (by simp) hpud, hpmdFrame,
    hsame _ pmd (by simp) hpmd, hsmall]
  refine (if_neg hpgd).trans ((if_neg hpudUser).trans (if_neg ?_))
  tauto

/-- The tables above the last level decide nothing but which entry is read. -/
theorem userEntry_congr (h : Tables roots m) (hroot : roots root) (hsame : SameAbove m root phys)
    (hleaf : ∀ pt, m.phys.tableAt root (tablePath addr) = some pt → phys pt (pteIndex addr) =
      m.phys pt (pteIndex addr)) :
    phys.userEntry root addr = m.phys.userEntry root addr := by
  unfold PhysMem.userEntry
  rcases h.getUserPte_cases hroot addr with ⟨-, hnone⟩ | ⟨pt, hpt, hfound⟩
  · rw [hnone phys hsame, hnone m.phys fun _ _ _ _ ↦ rfl]
    rfl
  · rw [hfound phys hsame, hfound m.phys fun _ _ _ _ ↦ rfl, hleaf pt hpt]
    split
    · rfl
    · exact congrArg some (hleaf pt hpt)

/-- Links for user mode in empty slots change nothing that is found. -/
theorem userEntry_eq_of_pages {m' : Memory} (h : Tables roots m) (h' : Tables roots m') (hroot : roots root)
    (hpages : m'.phys.pageEntry root addr = m.phys.pageEntry root addr) :
    m'.phys.userEntry root addr = m.phys.userEntry root addr := by
  have hentry : ∀ {m : Memory}, Tables roots m → UserSlot (tablePath addr) (pteIndex addr) →
    m.phys.userEntry root addr =
      if m.phys.pageEntry root addr = 0 then none else some (m.phys.pageEntry root addr) := by
    intro m h hslot
    unfold PhysMem.userEntry
    rcases h.page_cases hroot hslot with ⟨hzero, hnone, -⟩ | ⟨pt, pfn, flags, hpt, -, hflags, hmake, hsome, -⟩
    · rw [hnone, if_pos hzero]
      rfl
    · rw [hsome, if_neg (hmake ▸ hflags.tableFlags.ne_zero _)]
      exact congrArg some (PhysMem.entry_of_tableAt hpt _).symm
  by_cases hslot : UserSlot (tablePath addr) (pteIndex addr)
  · rw [hentry h hslot, hentry h' hslot, hpages]
  · unfold PhysMem.userEntry
    rw [h.getUserPte_not_user hroot hslot, h'.getUserPte_not_user hroot hslot]
    rfl

/-- A last-level table is none of the tables above. -/
theorem sameAbove_writeEntry (h : Tables roots m) (hroot : roots root)
    (ht : m.phys.tableAt root (tablePath addr) = some t)
    (i e : ℕ) : SameAbove m root (m.writeEntry t i e).phys := by
  intro path u hshort hu
  refine PhysMem.write_of_ne ?_
  rintro rfl
  obtain ⟨-, rfl⟩ := h.separated root root path (tablePath addr) u hroot hroot hshort.le (by simp [tablePath]) hu ht
  exact absurd hshort (by simp [tablePath])

end Tables

/-- The page of an address, by the bits that are translated. -/
theorem page_eq_of_slots {other : ℕ} (haddr : addr < 2 ^ 48)
    (h : tablePath other = tablePath addr ∧ pteIndex other = pteIndex addr) : other / 4096 % 2 ^ 36 = addr / 4096 := by
  obtain ⟨hpath, hpte⟩ := h
  simp only [tablePath, List.cons.injEq, and_true, pgdIndex_eq, pudIndex_eq, pmdIndex_eq, pteIndex_eq] at hpath hpte
  omega

/-- What `install_ptable` wrote is what `get_user_pte` finds for the page, and for all other pages it finds what it
did. -/
theorem userEntry_installPtable (h : Tables roots m) (hroot : roots root) (haddr : UserAddr addr)
    (mm : MmSegment) {upfn : ℕ}
    (hupfn : upfn < 2 ^ 32) (hgranted : (installPtable root mm addr upfn m).2.AllocsGranted) :
    (∃ e, (installPtable root mm addr upfn m).2.phys.userEntry root addr = some e ∧
      hwFrame e = (installPtable root mm addr upfn m).1 ∧ e.testBit 1 = mm.writable) ∧
    ∀ other, other / 4096 % 2 ^ 36 ≠ addr / 4096 →
      (installPtable root mm addr upfn m).2.phys.userEntry root other = m.phys.userEntry root other := by
  have hne : addr ≠ 0 := fun hzero ↦ absurd haddr.1 (by rw [hzero]; norm_num)
  unfold installPtable at hgranted ⊢
  simp only [if_neg hne, userPageEntry_eq] at hgranted ⊢
  generalize hlinked : linkTables ptableStyle (tablePath addr) root m = linked at *
  obtain ⟨page, hpage⟩ : ∃ page, page = if upfn = 0 then osPfnAlloc .user linked.2 else (upfn, linked.2) := ⟨_, rfl⟩
  rw [← hpage] at hgranted ⊢
  have hgrantedLinked : linked.2.AllocsGranted := by
    rw [hpage] at hgranted
    split at hgranted
    · exact hgranted.of_osPfnAlloc
    · exact hgranted
  obtain ⟨hext, htable, hlinks⟩ := linkTables_spec ptableStyle_sound hroot (tablePath addr) [] root m h
    PhysMem.tableAt_nil (by simp [tablePath]) (linkSlot_user haddr.slot (Or.inr rfl)) (hlinked ▸ hgrantedLinked)
  rw [hlinked, List.nil_append] at htable
  rw [hlinked] at hext hlinks
  -- the frame is below 2^32, and taking it moves no table
  have htaken : page.1 < 2 ^ 32 ∧ page.2.phys = linked.2.phys ∧ Tables roots page.2 := by
    rw [hpage] at hgranted ⊢
    split
    · rename_i hzero
      rw [if_pos hzero] at hgranted
      have hgrant := osPfnAlloc_grant hext.tables.regions_ok hgranted
      exact ⟨hgrant.usable.contains.lt.trans (by norm_num), by rw [hgrant.phys_eq]; rfl, hext.tables.grant hgrant⟩
    · exact ⟨hupfn, rfl, hext.tables⟩
  obtain ⟨hpfn, hphys, htables⟩ := htaken
  have ht : page.2.phys.tableAt root (tablePath addr) = some linked.1 := by rw [hphys, htable]
  have hflags := userFlags_page mm.writable
  generalize hbits : (if mm.writable then 0x7 else 0x5) = bits at *
  generalize hmake : makeEntry page.1 bits = e
  have hsame := htables.sameAbove_writeEntry hroot ht (pteIndex addr) e
  constructor
  · refine ⟨e, ?_, ?_, ?_⟩
    · rcases htables.getUserPte_cases hroot addr with ⟨hnone, -⟩ | ⟨pt, hpt, hfound⟩
      · exact absurd (ht.symm.trans (hnone haddr.slot)) (by simp)
      · obtain rfl : linked.1 = pt := Option.some_inj.1 (ht.symm.trans hpt)
        have hleaf : (page.2.writeEntry linked.1 (pteIndex addr) e).phys linked.1 (pteIndex addr) =
            e := setEntry_self _ _ _ _
        have huser : ¬ (e &&& 0x1 = 0 ∨ e &&& 0x4 = 0) := by
          rw [← hmake, hflags.tableFlags.present, hflags.user]
          decide
        rw [PhysMem.userEntry, hfound _ hsame, hleaf, if_neg huser]
        exact congrArg some hleaf
    · rw [← hmake, hwFrame_makeEntry hpfn hflags.tableFlags.lt]
    · rw [← hmake, makeEntry, pageShift, Nat.testBit_or, Nat.testBit_shiftLeft]
      rw [← hbits]
      cases mm.writable <;> simp <;> decide
  · intro other hother
    have hpages : page.2.phys.pageEntry root other = m.phys.pageEntry root other := by
      rw [hphys]
      rcases hlinks root (tablePath other) (pteIndex other) hroot (by simp [tablePath]) with hkept | ⟨-, -, hlead, -⟩
      · exact hkept
      · exact absurd hlead.length_le (by simp [tablePath])
    rw [← h.userEntry_eq_of_pages htables hroot hpages]
    refine htables.userEntry_congr hroot hsame fun pt hpt ↦ ?_
    refine setEntry_of_ne ?_
    rintro ⟨rfl, hpte⟩
    obtain ⟨-, hpath⟩ := htables.separated root root (tablePath other)
      (tablePath addr) _ hroot hroot (by simp [tablePath])
      (by simp [tablePath]) hpt ht
    exact hother (page_eq_of_slots (haddr.2.trans (by norm_num)) ⟨hpath, hpte⟩)

/-- The table of init, and a second page of DATA. -/
theorem userEntry_installPtable_init :
    let init := installOsPts blankTable.1 ⟨0, 32, 0, 0⟩ userTable
    let addr := dataStart + pageSize
    let installed := installPtable blankTable.1 ⟨dataStart, addr + pageSize, addr + pageSize, 7⟩ addr 0 init
    (∃ e, installed.2.phys.userEntry blankTable.1 addr = some e ∧ hwFrame e = installed.1 ∧ e.testBit 1 = true) ∧
      ∀ other, other / 4096 % 2 ^ 36 ≠ addr / 4096 →
        installed.2.phys.userEntry blankTable.1 other = init.phys.userEntry blankTable.1 other := by
  have hgranted : (installOsPts blankTable.1 ⟨0, 32, 0, 0⟩ userTable).AllocsGranted := by
    unfold AllocsGranted
    decide +kernel
  have hkernel := installOsPts_spec tables_userTable (Or.inr rfl) (by decide +kernel) hgranted
  refine userEntry_installPtable hkernel.extend.tables (Or.inr rfl) (by decide) _ (by norm_num) ?_
  unfold AllocsGranted
  decide +kernel

end GemOS
