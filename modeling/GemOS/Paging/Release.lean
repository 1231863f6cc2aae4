import GemOS.Paging.KernelMap

/-!
# Giving pages and tables back

`do_unmap_user` frees the frame of one page and clears its entry; `pt_cleanup` walks a whole tree and
frees every page and every table. Clearing entries never creates new ones, so that what `pt_cleanup`
still has to visit stays well formed (`TreeOk`) while it works; from this the region invariants survive
and no frame outside the tree is freed.
-/

namespace GemOS

open Foundation TableForest Memory

/-- `is_apic_base`. -/
def isApicBase (m : Memory) (pfn : ℕ) : Bool := decide (pfn = m.apicBase.value >>> pageShift)

/-- The first entry `pt_cleanup` visits: entry 0 of a level-3 table is skipped. -/
def cleanupFirst (level : ℕ) : ℕ := if level = 3 then 1 else 0

/-- `pt_cleanup`. A page at level 0 that is the APIC's is device memory, which the model does not
hold; nothing is freed there. -/
def ptCleanup : ℕ → ℕ → Memory → Memory
  | 0, pfn, m => if isApicBase m pfn then m else osPfnFree .user pfn m
  | level + 1, pfn, m =>
    let first := cleanupFirst (level + 1)
    let cleaned := (List.range' first (512 - first)).foldl
      (fun m i ↦
        if m.phys pfn i &&& 0x1 = 0 then m
        else (ptCleanup level (m.phys pfn i >>> 12) m).writeEntry pfn i 0) m
    if isApicBase cleaned pfn then cleaned else osPfnFree .osPt pfn cleaned

variable {roots : ℕ → Prop} {m : Memory} {root addr : ℕ}

@[simp]
theorem osPfnFree_phys (region : Region) (pfn : ℕ) (m : Memory) :
    (osPfnFree region pfn m).phys = m.phys := rfl

@[simp]
theorem osPfnFree_apicBase (region : Region) (pfn : ℕ) (m : Memory) :
    (osPfnFree region pfn m).apicBase = m.apicBase := rfl

/-- A page was unmapped: its entry is clear, its frame is no longer marked, nothing else changed. -/
structure Unmaps (roots : ℕ → Prop) (m m' : Memory) (root addr pfn : ℕ) : Prop where
  tables : Tables roots m'
  usable : Region.user.Usable pfn
  entry_eq : ∃ flags, UserFlags flags ∧ m.phys.pageEntry root addr = makeEntry pfn flags
  entries : ∀ root' path' j, roots root' → path'.length ≤ 3 →
    m'.phys.entry root' path' j =
      if root' = root ∧ path' = tablePath addr ∧ j = pteIndex addr then 0
      else m.phys.entry root' path' j
  table_old : ∀ frame, m'.phys.IsTable roots frame → m.phys.IsTable roots frame
  allocated_iff : ∀ region frame, m'.allocated region frame = true ↔
    m.allocated region frame = true ∧ ¬ (region = .user ∧ frame = pfn)
  phys_eq : ∀ frame, ¬ Region.osPt.Contains frame → m'.phys frame = m.phys frame
  apic_eq : m'.apicBase = m.apicBase
  pmd_eq : m'.osPmdPfn = m.osPmdPfn

/-- Freeing a user frame does not touch the tables. -/
theorem Tables.osPfnFree_user (h : Tables roots m) {pfn : ℕ} (hpfn : Region.user.Usable pfn) :
    Tables roots (osPfnFree .user pfn m) := by
  refine h.congr (regionsOk_osPfnFree h.regions_ok (Or.inr hpfn)) rfl (fun _ _ ↦ rfl) fun table htable ↦ ?_
  exact (allocated_osPfnFree h.regions_ok hpfn .osPt table).2
    ⟨h.table_allocated table htable, fun hand ↦ by cases hand.1⟩

/-- `do_unmap_user` refuses a page that is not mapped and unmaps one that is. -/
theorem doUnmapUser_spec (h : Tables roots m) (hroot : roots root)
    (hslot : UserSlot (tablePath addr) (pteIndex addr)) :
    (m.phys.pageEntry root addr = 0 ∧ doUnmapUser root addr m = (-1, m)) ∨
      ((doUnmapUser root addr m).1 = 0 ∧ ∃ pfn, Unmaps roots m (doUnmapUser root addr m).2 root addr pfn) := by
  rcases h.page_cases hroot hslot with
    ⟨hzero, hnone, -⟩ | ⟨pt, pfn, flags, htable, husable, hflags, hentry, hsome, -⟩
  · exact Or.inl ⟨hzero, by rw [doUnmapUser, hnone]⟩
  · have hpte : m.phys pt (pteIndex addr) = makeEntry pfn flags :=
      (PhysMem.entry_of_tableAt htable _).symm.trans hentry
    have hframe : (m.phys pt (pteIndex addr) >>> pteShift) &&& 0xffffffff = pfn := by
      rw [hpte, frame_lowWord_makeEntry (husable.contains.lt.trans (by norm_num)) hflags.tableFlags]
    have heq : doUnmapUser root addr m =
        (0, (osPfnFree .user pfn m).writeEntry pt (pteIndex addr) 0) := by
      rw [doUnmapUser, hsome]
      simp only [hframe]
    have h₁ := h.osPfnFree_user husable
    obtain ⟨hext, hentries⟩ := writePage_spec (e := 0) h₁ hroot htable (.empty _ _)
    rw [heq]
    refine Or.inr ⟨rfl, pfn, hext.tables, husable, ⟨flags, hflags, hentry⟩, hentries, fun frame hframe ↦ ?_,
      fun region frame ↦ allocated_osPfnFree h.regions_ok husable region frame,
      fun frame hframe ↦ hext.phys_eq frame hframe, rfl, rfl⟩
    rcases hext.table_new frame hframe with hold | hclear
    · exact hold
    · exfalso
      have hnode := h₁.not_isTable_of_clear hclear
      have hlast : ¬ (tablePath addr).length < 3 := by simp [tablePath]
      rcases h₁.isTable_writeEntry hroot (by simp [tablePath]) htable
          ⟨fun hs ↦ absurd hs hlast, fun hs ↦ absurd hs hlast⟩ hframe with hold | ⟨hshort, -⟩
      · exact hnode hold
      · exact hlast hshort

/-- What `pt_cleanup` needs of a tree at a level: pages are user frames, tables are frames of the
page-table region and none of those to be kept. Entry 0 of a level-3 table is not visited. -/
def TreeOk (keep : ℕ → Prop) (phys : PhysMem) : ℕ → ℕ → Prop
  | 0, pfn => Region.user.Usable pfn
  | level + 1, pfn => (Region.osPt.Usable pfn ∧ ¬ keep pfn) ∧
      ∀ i, (level + 1 = 3 → i ≠ 0) → phys pfn i &&& 0x1 ≠ 0 → TreeOk keep phys level (phys pfn i >>> 12)

/-- Entries were only cleared. -/
def ClearedFrom (phys phys' : PhysMem) : Prop := ∀ pfn i, phys' pfn i = phys pfn i ∨ phys' pfn i = 0

theorem ClearedFrom.refl (phys : PhysMem) : ClearedFrom phys phys := fun _ _ ↦ Or.inl rfl

theorem ClearedFrom.trans {first second third : PhysMem} (h : ClearedFrom first second)
    (h' : ClearedFrom second third) : ClearedFrom first third := by
  intro pfn i
  rcases h' pfn i with hsame | hzero
  · rw [hsame]
    exact h pfn i
  · exact Or.inr hzero

theorem ClearedFrom.write (phys : PhysMem) (pfn i : ℕ) : ClearedFrom phys (phys.write pfn i 0) := by
  intro pfn' i'
  unfold PhysMem.write
  split
  · exact Or.inr rfl
  · exact Or.inl rfl

theorem TreeOk.cleared {keep : ℕ → Prop} {phys phys' : PhysMem} (hclear : ClearedFrom phys phys')
    (level pfn : ℕ) (h : TreeOk keep phys level pfn) : TreeOk keep phys' level pfn := by
  induction level generalizing pfn with
  | zero => exact h
  | succ level ih =>
    refine ⟨h.1, fun i hi hpresent ↦ ?_⟩
    rcases hclear pfn i with hsame | hzero
    · rw [hsame] at hpresent ⊢
      exact ih _ (h.2 i hi hpresent)
    · rw [hzero] at hpresent
      exact absurd rfl hpresent

/-- What holds from one point of the clean-up to a later one. -/
structure CleansUp (keep : ℕ → Prop) (m m' : Memory) : Prop where
  regions_ok : m.RegionsOk → m'.RegionsOk
  kept : m.RegionsOk → ∀ pfn, keep pfn → m.allocated .osPt pfn = true → m'.allocated .osPt pfn = true
  cleared : ClearedFrom m.phys m'.phys
  granted : m'.AllocsGranted ↔ m.AllocsGranted
  apic_eq : m'.apicBase = m.apicBase
  pmd_eq : m'.osPmdPfn = m.osPmdPfn

namespace CleansUp

variable {keep : ℕ → Prop} {m' m'' : Memory}

theorem refl (m : Memory) : CleansUp keep m m :=
  ⟨id, fun _ _ _ ↦ id, ClearedFrom.refl _, Iff.rfl, rfl, rfl⟩

theorem trans (first : CleansUp keep m m') (second : CleansUp keep m' m'') : CleansUp keep m m'' where
  regions_ok h := second.regions_ok (first.regions_ok h)
  kept h pfn hpfn hset := second.kept (first.regions_ok h) pfn hpfn (first.kept h pfn hpfn hset)
  cleared := first.cleared.trans second.cleared
  granted := second.granted.trans first.granted
  apic_eq := second.apic_eq.trans first.apic_eq
  pmd_eq := second.pmd_eq.trans first.pmd_eq

theorem free_user {pfn : ℕ} (hpfn : Region.user.Usable pfn) (m : Memory) :
    CleansUp keep m (osPfnFree .user pfn m) where
  regions_ok h := regionsOk_osPfnFree h (Or.inr hpfn)
  kept h frame _ hset := (allocated_osPfnFree h hpfn .osPt frame).2 ⟨hset, fun hand ↦ by cases hand.1⟩
  cleared := ClearedFrom.refl _
  granted := ⟨AllocsGranted.of_osPfnFree, AllocsGranted.osPfnFree⟩
  apic_eq := rfl
  pmd_eq := rfl

theorem free_osPt {pfn : ℕ} (hpfn : Region.osPt.Usable pfn) (hkeep : ¬ keep pfn) (m : Memory) :
    CleansUp keep m (osPfnFree .osPt pfn m) where
  regions_ok h := regionsOk_osPfnFree h (Or.inl rfl)
  kept h frame hframe hset := by
    refine (allocated_osPfnFree h hpfn .osPt frame).2 ⟨hset, ?_⟩
    rintro ⟨-, rfl⟩
    exact hkeep hframe
  cleared := ClearedFrom.refl _
  granted := ⟨AllocsGranted.of_osPfnFree, AllocsGranted.osPfnFree⟩
  apic_eq := rfl
  pmd_eq := rfl

theorem clear_entry (m : Memory) (pfn i : ℕ) : CleansUp keep m (m.writeEntry pfn i 0) :=
  ⟨id, fun _ _ _ ↦ id, ClearedFrom.write _ _ _, Iff.rfl, rfl, rfl⟩

/-- A loop that cleans up in each round cleans up. -/
theorem foldl {f : Memory → ℕ → Memory} (indices : List ℕ) (m : Memory)
    (hround : ∀ m' i, i ∈ indices → CleansUp keep m m' → CleansUp keep m' (f m' i)) :
    CleansUp keep m (indices.foldl f m) := by
  induction indices generalizing m with
  | nil => exact refl m
  | cons i indices ih =>
    have hfirst := hround m i (List.mem_cons_self ..) (refl m)
    refine hfirst.trans (ih (f m i) fun m' j hj hbefore ↦ ?_)
    exact hround m' j (List.mem_cons_of_mem _ hj) (hfirst.trans hbefore)

end CleansUp

/-- `pt_cleanup` on a well-formed tree, by induction on the level. -/
theorem ptCleanup_spec {keep : ℕ → Prop} (level pfn : ℕ) (m : Memory) (h : TreeOk keep m.phys level pfn) :
    CleansUp keep m (ptCleanup level pfn m) := by
  induction level generalizing pfn m with
  | zero =>
    rw [ptCleanup]
    split
    · exact CleansUp.refl m
    · exact CleansUp.free_user h m
  | succ level ih =>
    have hfirst : level + 1 = 3 → cleanupFirst (level + 1) = 1 := fun hlevel ↦ if_pos hlevel
    rw [ptCleanup]
    generalize cleanupFirst (level + 1) = first at *
    have hcleaned : CleansUp keep m ((List.range' first (512 - first)).foldl
        (fun m i ↦ if m.phys pfn i &&& 0x1 = 0 then m
          else (ptCleanup level (m.phys pfn i >>> 12) m).writeEntry pfn i 0) m) := by
      refine CleansUp.foldl _ m fun m' i hi hbefore ↦ ?_
      split
      · exact CleansUp.refl m'
      · rename_i hpresent
        have htree := h.cleared hbefore.cleared
        refine (ih _ m' (htree.2 i (fun hlevel ↦ ?_) hpresent)).trans (CleansUp.clear_entry _ _ _)
        have := (List.mem_range'_1.1 hi).1
        have := hfirst hlevel
        omega
    split
    · exact hcleaned
    · exact hcleaned.trans (CleansUp.free_osPt h.1.1 h.1.2 _)

/-- The window and the APIC page are mapped below `root`. -/
structure KernelMapped (m : Memory) (root : ℕ) : Prop where
  window : ∀ i < osPtMaps, m.phys.entry root [0, 0] i ≠ 0
  apic : m.phys.entry root [pgdIndex m.apicBase.hugePage, pudIndex m.apicBase.hugePage]
    (pmdIndex m.apicBase.hugePage) ≠ 0

theorem KernelFlags.or_ne_zero {flags : ℕ} (base : ℕ) (h : KernelFlags flags) : base ||| flags ≠ 0 := by
  intro hzero
  have hbit := congrArg (fun x ↦ x.testBit 7) hzero
  simp [h.testBit_seven] at hbit

theorem MapsKernel.kernelMapped {m' : Memory} (h : MapsKernel roots m m' root) : KernelMapped m' root where
  window i hi := by
    obtain ⟨flags, hflags, hentry⟩ := h.window i hi
    rw [hentry]
    exact hflags.or_ne_zero _
  apic := by
    obtain ⟨flags, hflags, hentry⟩ := h.apic
    rw [h.extend.apic_eq, hentry]
    exact hflags.or_ne_zero _

/-- An entry that links a table names it by its upper bits. -/
theorem EntryOk.shift_of_table {apic : ApicBase} {path : List ℕ} {i e t : ℕ} (h : EntryOk apic path i e)
    (hshort : path.length < 3) (htable : tableOf e = some t) :
    e &&& 0x1 ≠ 0 ∧ e >>> 12 = t := by
  have hflags : ∀ {pfn flags : ℕ}, pfn < 2 ^ 32 → TableFlags flags → e = makeEntry pfn flags →
      e &&& 0x1 ≠ 0 ∧ e >>> 12 = t := by
    rintro pfn flags hpfn hflags rfl
    rw [tableOf_makeEntry hpfn hflags] at htable
    cases htable
    rw [hflags.present, makeEntry_shiftRight hflags.lt]
    exact ⟨by decide, rfl⟩
  cases h with
  | empty => exact absurd htable (by simp [tableOf_zero])
  | userTable _ _ hpfn hflags' => exact hflags hpfn hflags'.tableFlags rfl
  | userPage _ hlast => omega
  | kernelTable _ hpfn => exact hflags hpfn (Or.inr rfl) rfl
  | kernelPage _ hflags' =>
    rw [tableOf_huge _ hflags'] at htable
    exact absurd htable (by simp)

/-- Off the slots of 2 MB pages there are none. -/
theorem EntryOk.small_of_not_page {apic : ApicBase} {path : List ℕ} {i e : ℕ} (h : EntryOk apic path i e)
    (hshort : path.length < 3) (hpage : ∀ base, ¬ KernelPageSlot apic path i base) : e &&& 0x80 = 0 := by
  cases h with
  | empty => rfl
  | userTable _ _ _ hflags => exact hflags.tableFlags.small _
  | userPage _ hlast => omega
  | kernelTable => exact TableFlags.small _ (Or.inr rfl)
  | kernelPage hslot => exact absurd hslot (hpage _)

/-- A present entry of the last level holds a frame of the user region. -/
theorem EntryOk.usable_of_last {apic : ApicBase} {path : List ℕ} {i e : ℕ} (h : EntryOk apic path i e)
    (hlast : path.length = 3) (hpresent : e &&& 0x1 ≠ 0) : Region.user.Usable (e >>> 12) := by
  cases h with
  | empty => exact absurd rfl hpresent
  | userTable _ hshort => omega
  | userPage _ _ husable hflags =>
    rw [makeEntry_shiftRight hflags.tableFlags.lt]
    exact husable
  | kernelTable hslot => exact absurd hslot.length_lt (by omega)
  | kernelPage hslot => exact absurd hslot.length_eq (by omega)

theorem Tables.apicNext_eq (h : Tables roots m) (hroot : roots root) {path : List ℕ} {t u i : ℕ}
    (hshort : path.length < 3) (htable : m.phys.tableAt root path = some t)
    (hnext : m.phys.tableAt root (path ++ [i]) = some u) : apicNext (m.phys t i) = u := by
  have hok := h.entry_ok root path i hroot hshort.le
  rw [PhysMem.entry_of_tableAt htable] at hok
  rw [PhysMem.tableAt_concat htable] at hnext
  obtain ⟨hpresent, hshift⟩ := hok.shift_of_table hshort hnext
  rw [apicNext, if_neg hpresent, pageShift, Nat.shiftLeft_shiftRight, hshift]

/-- `remove_apic_mapping` finds the table with the entry of the APIC page. -/
theorem removeApicMapping_eq (h : Tables roots m) (hroot : roots root) {pmd : ℕ} {apic : ApicBase}
    (hapic : m.apicBase = apic)
    (hpmd : m.phys.tableAt root [pgdIndex apic.hugePage, pudIndex apic.hugePage] = some pmd) :
    removeApicMapping root m = m.writeEntry pmd (pmdIndex apic.hugePage) 0 := by
  subst hapic
  obtain ⟨pud, hpud⟩ : ∃ pud, m.phys.tableAt root [pgdIndex m.apicBase.hugePage] = some pud := by
    rcases hnone : m.phys.tableAt root [pgdIndex m.apicBase.hugePage] with _ | pud
    · have := PhysMem.tableAt_append_none hnone [pudIndex m.apicBase.hugePage]
      simp [hpmd] at this
    · exact ⟨pud, rfl⟩
  have hfirst : apicNext (m.phys root (pgdIndex m.apicBase.hugePage)) = pud :=
    h.apicNext_eq hroot (by simp) PhysMem.tableAt_nil (by simpa using hpud)
  have hsecond : apicNext (m.phys pud (pudIndex m.apicBase.hugePage)) = pmd :=
    h.apicNext_eq hroot (by simp) hpud (by simpa using hpmd)
  unfold removeApicMapping
  simp only [hfirst, hsecond]

/-- `remove_apic_mapping` clears the entry of the APIC page and no other. -/
theorem removeApicMapping_spec (h : Tables roots m) (hroot : roots root) (hkernel : KernelMapped m root) :
    Tables roots (removeApicMapping root m) ∧
      ClearedFrom m.phys (removeApicMapping root m).phys ∧
      (removeApicMapping root m).pglists = m.pglists ∧ (removeApicMapping root m).trace = m.trace ∧
      (removeApicMapping root m).apicBase = m.apicBase ∧ (removeApicMapping root m).osPmdPfn = m.osPmdPfn ∧
      (∀ pfn, (removeApicMapping root m).phys.IsTable roots pfn → m.phys.IsTable roots pfn) ∧
      (removeApicMapping root m).phys.entry root
        [pgdIndex m.apicBase.hugePage, pudIndex m.apicBase.hugePage] (pmdIndex m.apicBase.hugePage) = 0 := by
  obtain ⟨pmd, hpmd, -⟩ := walk_of_entryAt_ne_zero hkernel.apic
  replace hpmd : m.phys.tableAt root [pgdIndex m.apicBase.hugePage, pudIndex m.apicBase.hugePage] =
    some pmd := hpmd
  have heq := removeApicMapping_eq h hroot rfl hpmd
  have hlength : ([pgdIndex m.apicBase.hugePage, pudIndex m.apicBase.hugePage] : List ℕ).length ≤ 3 := by simp
  have hslot : KernelPageSlot m.apicBase [pgdIndex m.apicBase.hugePage, pudIndex m.apicBase.hugePage]
    (pmdIndex m.apicBase.hugePage) m.apicBase.hugePage := .apic
  have hold := h.entry_ok root _ (pmdIndex m.apicBase.hugePage) hroot hlength
  rw [PhysMem.entry_of_tableAt hpmd] at hold
  have hwrite : Writable tableOf 3 roots m.phys
      [pgdIndex m.apicBase.hugePage, pudIndex m.apicBase.hugePage] pmd
      (pmdIndex m.apicBase.hugePage) 0 :=
    ⟨fun _ ↦ hslot.not_link hold, fun _ g hg ↦ absurd hg (by simp [tableOf_zero])⟩
  rw [heq]
  refine ⟨h.writeEntry hroot hlength hpmd hwrite (.empty _ _) fun g _ hg ↦ absurd hg (by simp [tableOf_zero]),
    ClearedFrom.write _ _ _, rfl, rfl, rfl, rfl, fun pfn hpfn ↦ ?_, ?_⟩
  · rcases h.isTable_writeEntry hroot hlength hpmd hwrite hpfn with hold' | ⟨-, hlink⟩
    · exact hold'
    · exact absurd hlink (by simp [tableOf_zero])
  · rw [h.entry_writeEntry hroot hlength hpmd hwrite hroot hlength, if_pos ⟨rfl, rfl, rfl⟩]

/-- A present entry above the last level that is no 2 MB page leads to the next table. -/
theorem Tables.tableAt_shift (h : Tables roots m) (hroot : roots root) {path : List ℕ} {t i : ℕ}
    (hshort : path.length < 3) (htable : m.phys.tableAt root path = some t) (hpresent : m.phys t i &&& 0x1 ≠ 0)
    (hpage : ∀ base, ¬ KernelPageSlot m.apicBase path i base) :
    m.phys.tableAt root (path ++ [i]) = some (m.phys t i >>> 12) := by
  have hok := h.entry_ok root path i hroot hshort.le
  rw [PhysMem.entry_of_tableAt htable] at hok
  have hsmall := hok.small_of_not_page hshort hpage
  have htab := (hok.table_frame hshort hpresent hsmall).1
  rw [PhysMem.tableAt_concat htable, htab, (hok.shift_of_table hshort htab).2]

/-- A whole process table, once its APIC entry is clear, is a tree that `pt_cleanup` can take down. -/
theorem Tables.treeOk (h : Tables roots m) (hroot : roots root) {keep : ℕ → Prop}
    (hkeep : ∀ pfn, m.phys.IsTable roots pfn → ¬ keep pfn)
    (hapic : m.phys.entry root [pgdIndex m.apicBase.hugePage, pudIndex m.apicBase.hugePage]
      (pmdIndex m.apicBase.hugePage) = 0) : TreeOk keep m.phys 4 root := by
  have hnode : ∀ {path t}, path.length ≤ 3 → m.phys.tableAt root path = some t →
      Region.osPt.Usable t ∧ ¬ keep t := fun hlength htable ↦
    ⟨h.table_usable _ (Tables.isTable_of_tableAt hroot hlength htable),
      hkeep _ (Tables.isTable_of_tableAt hroot hlength htable)⟩
  refine ⟨hnode (by simp) PhysMem.tableAt_nil, fun a _ hpresent ↦ ?_⟩
  have hpud := h.tableAt_shift hroot (by simp) PhysMem.tableAt_nil hpresent
    fun base hslot ↦ absurd hslot.length_eq (by simp)
  generalize m.phys root a >>> 12 = pud at *
  refine ⟨hnode (by simp) hpud, fun b hb hpresent ↦ ?_⟩
  have hpmd := h.tableAt_shift hroot (by simp) hpud hpresent fun base hslot ↦ absurd hslot.length_eq (by simp)
  generalize m.phys pud b >>> 12 = pmd at *
  refine ⟨hnode (by simp) hpmd, fun c _ hpresent ↦ ?_⟩
  have hpt := h.tableAt_shift hroot (by simp) hpmd hpresent (by
    intro base hslot
    have hb' : b ≠ 0 := hb rfl
    simp only [List.nil_append, List.cons_append] at hslot hpmd
    cases hslot
    · exact hb' rfl
    · rw [PhysMem.entry_of_tableAt hpmd] at hapic
      rw [hapic] at hpresent
      exact hpresent rfl)
  generalize m.phys pmd c >>> 12 = pt at *
  refine ⟨hnode (by simp) hpt, fun d _ hpresent ↦ ?_⟩
  have hok := h.entry_ok root ([] ++ [a] ++ [b] ++ [c]) d hroot (by simp)
  rw [PhysMem.entry_of_tableAt hpt] at hok
  exact hok.usable_of_last (by simp) hpresent

end GemOS
