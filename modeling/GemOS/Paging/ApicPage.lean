import GemOS.Paging.Release

/-!
# The APIC page comes and goes

`install_apic_mapping` may leave tables behind when `remove_apic_mapping` has cleared the entry of the APIC page, but
tables without a present entry translate nothing.
-/

namespace GemOS

open Foundation TableForest Memory

variable {roots : ℕ → Prop} {m m' : Memory} {root : ℕ}

/-- Links in empty slots of the first two levels do not change the walk, as all below them is empty. -/
theorem hwWalk_eq_of_links (h : Tables roots m) (h' : Tables roots m') (hroot : roots root)
    (hentries : ∀ path j, path.length ≤ 3 → m'.phys.entry root path j = m.phys.entry root path j ∨
      (path.length < 2 ∧ m.phys.entry root path j = 0)) (addr : ℕ) :
    hwWalk m'.phys root addr = hwWalk m.phys root addr := by
  have hpmd := (hentries [pgdIndex addr, pudIndex addr] (pmdIndex addr) (by simp)).resolve_right (by simp)
  have hpage : m'.phys.pageEntry root addr = m.phys.pageEntry root addr :=
    (hentries (tablePath addr) (pteIndex addr) (by simp [tablePath])).resolve_right (by simp [tablePath])
  -- below an empty slot the third level is empty in both memories
  have habsent : m.phys.entry root [pgdIndex addr, pudIndex addr] (pmdIndex addr) = 0 →
      hwWalk m'.phys root addr = hwWalk m.phys root addr := by
    intro hzero
    rw [h'.hwWalk_eq hroot, h.hwWalk_eq hroot, hpmd, hzero, hwTranslate_absent (Or.inr (Or.inr (Nat.zero_and _))),
      hwTranslate_absent (Or.inr (Or.inr (Nat.zero_and _)))]
  have hbelow : ∀ rest, m.phys.tableAt root ([pgdIndex addr] ++ rest) = none ∧ rest <+: [pudIndex addr] →
      m.phys.entry root [pgdIndex addr, pudIndex addr] (pmdIndex addr) = 0 := by
    rintro rest ⟨hnone, ⟨back, hback⟩⟩
    have := PhysMem.tableAt_append_none hnone back
    rw [List.append_assoc, hback] at this
    exact PhysMem.entry_of_tableAt_none this _
  rcases hentries [] (pgdIndex addr) (by simp) with hpgd | ⟨-, hzero⟩
  · rcases hentries [pgdIndex addr] (pudIndex addr) (by simp) with hpud | ⟨-, hzero⟩
    · rw [h'.hwWalk_eq hroot, h.hwWalk_eq hroot, hpgd, hpud, hpmd, hpage]
    · refine habsent (hbelow [pudIndex addr] ⟨?_, List.prefix_rfl⟩)
      rw [PhysMem.tableAt_concat_entry, hzero, tableOf_zero]
  · refine habsent (hbelow [] ⟨?_, List.nil_prefix⟩)
    have hnext : m.phys.tableAt root ([] ++ [pgdIndex addr]) = tableOf (m.phys.entry root [] (pgdIndex addr)) :=
      PhysMem.tableAt_concat_entry _
    rwa [hzero, tableOf_zero] at hnext

/-- Clearing an entry that was clear before it was written. -/
theorem write_write_clear {t i value : ℕ} (hclear : m.phys t i = 0) :
    ((m.writeEntry t i value).writeEntry t i 0).phys = m.phys := by
  funext frame j
  rw [writeEntry_phys, writeEntry_phys]
  by_cases hhere : frame = t ∧ j = i
  · obtain ⟨rfl, rfl⟩ := hhere
    rw [setEntry_self, hclear]
  · rw [setEntry_of_ne hhere, setEntry_of_ne hhere]

/-- Where the first entry of the table is there or not needed, all tables stay well formed. -/
theorem removeApicMapping_linked (h : Tables roots m) (hroot : roots root) (config : OsConfigs)
    (hpgd : pgdIndex m.apicBase.hugePage = 0 → m.phys root 0 ≠ 0)
    (hclear : m.phys.entry root [pgdIndex m.apicBase.hugePage, pudIndex m.apicBase.hugePage]
      (pmdIndex m.apicBase.hugePage) = 0)
    (hgranted : (installApicMapping root config m).AllocsGranted) (addr : ℕ) :
    hwWalk (removeApicMapping root (installApicMapping root config m)).phys root addr = hwWalk m.phys root addr := by
  obtain ⟨flags, hflags, heq⟩ := installApicMapping_eq root config m
  have hgrantedLinked : (linkTables apicStyle [pgdIndex m.apicBase.hugePage, pudIndex m.apicBase.hugePage]
      root m).2.AllocsGranted := by
    rwa [heq] at hgranted
  obtain ⟨hext, htable, hlinks⟩ := linkApic_spec h hroot hpgd hgrantedLinked
  rw [heq]
  generalize linkTables apicStyle [pgdIndex m.apicBase.hugePage, pudIndex m.apicBase.hugePage] root m = linked at *
  have hslot : KernelPageSlot linked.2.apicBase [pgdIndex m.apicBase.hugePage, pudIndex m.apicBase.hugePage]
      (pmdIndex m.apicBase.hugePage) m.apicBase.hugePage := hext.apic_eq ▸ .apic
  have hentry : linked.2.phys linked.1 (pmdIndex m.apicBase.hugePage) = 0 := by
    rw [← PhysMem.entry_of_tableAt htable]
    rcases hlinks root _ (pmdIndex m.apicBase.hugePage) hroot (hslot.length_eq.le.trans (by norm_num)) with
      hsame | ⟨-, hkernel, -⟩
    · rw [hsame, hclear]
    · exact absurd hkernel.length_lt (by simp)
  have hinstalled := (writeHuge_spec hext.tables hroot htable hslot hflags).1.tables
  have htable' : (linked.2.writeEntry linked.1 (pmdIndex m.apicBase.hugePage)
    (m.apicBase.hugePage ||| flags)).phys.tableAt root
      [pgdIndex m.apicBase.hugePage, pudIndex m.apicBase.hugePage] = some linked.1 :=
    (tableAt_writeHuge hext.tables hroot htable hslot _ (by simp)).trans htable
  rw [removeApicMapping_eq hinstalled hroot hext.apic_eq htable', write_write_clear hentry]
  refine hwWalk_eq_of_links h hext.tables hroot (fun path j hlength ↦ ?_) addr
  rcases hlinks root path j hroot hlength with hsame | ⟨-, hkernel, hempty⟩
  · exact Or.inl hsame
  · exact Or.inr ⟨hkernel.length_lt, hempty⟩

/-- Where the first entry would hold the APIC page too, a root without it is empty. -/
theorem Tables.root_empty (h : Tables roots m) (hroot : roots root) (hzero : pgdIndex m.apicBase.hugePage = 0)
    (hpgd : m.phys root 0 = 0) (j : ℕ) : m.phys root j = 0 := by
  by_cases hj : j = 0
  · rw [hj, hpgd]
  · have hok := h.entry_ok root [] j hroot (by simp)
    rw [PhysMem.entry_nil] at hok
    generalize m.phys root j = e at hok
    cases hok with
    | empty => rfl
    | userTable hslot => exact absurd hslot hj
    | userPage _ hlast => exact absurd hlast (by simp)
    | kernelTable hslot =>
      cases hslot with
      | apicPud hne => exact absurd hzero hne
    | kernelPage hslot => exact absurd hslot.length_eq (by simp)

theorem apicNext_makeEntry {pfn : ℕ} (hpfn : pfn < 2 ^ 32) : apicNext (makeEntry pfn 0x3) = pfn := by
  have hflags : TableFlags 0x3 := Or.inr rfl
  rw [apicNext, hflags.present, if_neg (by decide)]
  exact apicStyle_sound.frame_entry hpfn hflags

/-- An empty table gets two tables, and is as it was when their last entry is cleared. -/
theorem removeApicMapping_empty (h : Tables roots m) (hroot : roots root) (config : OsConfigs)
    (hzero : pgdIndex m.apicBase.hugePage = 0) (hpgd : m.phys root 0 = 0)
    (hgranted : (installApicMapping root config m).AllocsGranted) (addr : ℕ) :
    hwWalk (removeApicMapping root (installApicMapping root config m)).phys root addr = hwWalk m.phys root addr := by
  obtain ⟨flags, -, heq⟩ := installApicMapping_eq root config m
  have hgranted₂ : (linkTables apicStyle [pgdIndex m.apicBase.hugePage, pudIndex m.apicBase.hugePage]
      root m).2.AllocsGranted := by
    rwa [heq] at hgranted
  have hallocated := h.table_allocated root (Tables.isTable_of_tableAt hroot (by simp) PhysMem.tableAt_nil)
  rw [heq, hzero]
  rw [hzero] at hgranted₂
  have hfirst := linkTable_fresh apicStyle_sound h.regions_ok hpgd (fun _ ↦ hallocated)
    (linkTables_granted_of hgranted₂)
  simp only [linkTables] at hgranted₂ ⊢
  generalize linkTable apicStyle root 0 m = pud at *
  have hpud : pud.1 < 2 ^ 32 := hfirst.usable.contains.lt.trans (by norm_num)
  have hphys₁ : pud.2.phys = setEntry (m.phys.zero pud.1) root 0 (makeEntry pud.1 0x3) := hfirst.phys_eq
  have hne : root ≠ pud.1 := by
    rintro heq
    have hclear := hfirst.not_allocated
    rw [← heq, hallocated] at hclear
    exact Bool.noConfusion hclear
  have hempty : ∀ j, pud.2.phys pud.1 j = 0 := fun j ↦ by
    rw [hphys₁, setEntry_of_ne (fun hand ↦ hne hand.1.symm), PhysMem.zero_self]
  have hsecond := linkTable_fresh apicStyle_sound hfirst.regions_ok (hempty (pudIndex m.apicBase.hugePage))
    (fun _ ↦ (hfirst.allocated_iff _).2 (Or.inr rfl)) hgranted₂
  generalize linkTable apicStyle pud.1 (pudIndex m.apicBase.hugePage) pud.2 = pmd at *
  have hpmd : pmd.1 < 2 ^ 32 := hsecond.usable.contains.lt.trans (by norm_num)
  have hphys₂ : pmd.2.phys = setEntry (pud.2.phys.zero pmd.1) pud.1 (pudIndex m.apicBase.hugePage)
      (makeEntry pmd.1 0x3) :=
    hsecond.phys_eq
  have hused : ∀ frame, m.allocated .osPt frame = true ∨ frame = pud.1 → frame ≠ pmd.1 := by
    rintro frame hframe rfl
    have hclear := hsecond.not_allocated
    rw [(hfirst.allocated_iff _).2 hframe] at hclear
    exact Bool.noConfusion hclear
  have hrootPmd := hused root (Or.inl hallocated)
  have hpudPmd := hused pud.1 (Or.inr rfl)
  -- the three tables after the links
  have hroots : ∀ j, pmd.2.phys root j = if j = 0 then makeEntry pud.1 0x3 else 0 := fun j ↦ by
    rw [hphys₂, setEntry_of_ne (fun hand ↦ hne hand.1), PhysMem.zero_of_ne hrootPmd, hphys₁]
    split
    · rename_i hj
      rw [hj, setEntry_self]
    · rename_i hj
      rw [setEntry_of_ne (fun hand ↦ hj hand.2), PhysMem.zero_of_ne hne, h.root_empty hroot hzero hpgd]
  have hpuds : ∀ j, pmd.2.phys pud.1 j = if j = pudIndex m.apicBase.hugePage then
      makeEntry pmd.1 0x3 else 0 := fun j ↦ by
    rw [hphys₂]
    split
    · rename_i hj
      rw [hj, setEntry_self]
    · rename_i hj
      rw [setEntry_of_ne (fun hand ↦ hj hand.2), PhysMem.zero_of_ne hpudPmd, hempty]
  have hpmds : ∀ j, pmd.2.phys pmd.1 j = 0 := fun j ↦ by
    rw [hphys₂, setEntry_of_ne (fun hand ↦ hpudPmd hand.1.symm), PhysMem.zero_self]
  have hremove : removeApicMapping root
      (pmd.2.writeEntry pmd.1 (pmdIndex m.apicBase.hugePage) (m.apicBase.hugePage ||| flags)) =
        (pmd.2.writeEntry pmd.1 (pmdIndex m.apicBase.hugePage) (m.apicBase.hugePage ||| flags)).writeEntry pmd.1
          (pmdIndex m.apicBase.hugePage) 0 := by
    have hsame : ∀ frame, frame ≠ pmd.1 →
        (pmd.2.writeEntry pmd.1 (pmdIndex m.apicBase.hugePage) (m.apicBase.hugePage ||| flags)).phys frame =
          pmd.2.phys frame := fun frame hframe ↦ PhysMem.write_of_ne hframe
    simp only [removeApicMapping, writeEntry_apicBase, hsecond.apic_eq, hfirst.apic_eq, hzero,
      hsame root hrootPmd, hroots, if_true,
      apicNext_makeEntry hpud, hsame pud.1 hpudPmd, hpuds, apicNext_makeEntry hpmd]
  rw [hremove, write_write_clear (hpmds _)]
  have hnone : hwWalk m.phys root addr = none := by
    unfold hwWalk
    simp only
    rw [h.root_empty hroot hzero hpgd]
    exact hwTranslate_absent (Or.inl (Nat.zero_and _))
  rw [hnone]
  unfold hwWalk
  simp only [hroots]
  split
  · rw [hwFrame_makeEntry hpud (by decide), hpuds]
    split
    · rw [hwFrame_makeEntry hpmd (by decide), hpmds]
      exact hwTranslate_absent (Or.inr (Or.inr (Nat.zero_and _)))
    · exact hwTranslate_absent (Or.inr (Or.inl (Nat.zero_and _)))
  · exact hwTranslate_absent (Or.inl (Nat.zero_and _))

/-- Mapping the APIC page and unmapping it again leaves the walk of every address as it was. -/
theorem hwWalk_installApicMapping_removeApicMapping (h : Tables roots m) (hroot : roots root) (config : OsConfigs)
    (hclear : m.phys.entry root [pgdIndex m.apicBase.hugePage, pudIndex m.apicBase.hugePage]
      (pmdIndex m.apicBase.hugePage) = 0)
    (hgranted : (installApicMapping root config m).AllocsGranted) (addr : ℕ) :
    hwWalk (removeApicMapping root (installApicMapping root config m)).phys root addr = hwWalk m.phys root addr := by
  by_cases hempty : pgdIndex m.apicBase.hugePage = 0 ∧ m.phys root 0 = 0
  · exact removeApicMapping_empty h hroot config hempty.1 hempty.2 hgranted addr
  · exact removeApicMapping_linked h hroot config (fun hzero hpgd ↦ hempty ⟨hzero, hpgd⟩) hclear hgranted addr

/-- In a table with the pages of CODE and a page of DATA. -/
theorem hwWalk_installApicMapping_removeApicMapping_user :
    hwWalk (removeApicMapping blankTable.1 (installApicMapping blankTable.1 ⟨1, 0, 0, 1⟩ userTable)).phys blankTable.1
      dataStart = hwWalk userTable.phys blankTable.1 dataStart := by
  refine hwWalk_installApicMapping_removeApicMapping tables_userTable (Or.inr rfl) _ ?_ ?_ _
  · decide +kernel
  · unfold AllocsGranted
    decide +kernel

end GemOS
