import GemOS.Paging.Trace

/-!
# Memories with the same tables

The code that builds page tables reads and writes frames of the page-table region only. In two memories that differ in
other frames it does the same: it makes the same calls of the allocator and finds the same tables.
-/

namespace GemOS

open Foundation TableForest Memory

instance (region : Region) (pfn : ℕ) : Decidable (region.Contains pfn) := by
  unfold Region.Contains
  infer_instance

/-- The memories differ in the contents of frames outside the page-table region only. -/
structure SameTables (m m' : Memory) : Prop where
  lists_eq : m'.pglists = m.pglists
  phys_eq : ∀ t, Region.osPt.Contains t → m'.phys t = m.phys t
  pmd_eq : m'.osPmdPfn = m.osPmdPfn
  apic_eq : m'.apicBase = m.apicBase
  trace_eq : m'.trace = m.trace

/-- Two calls return the same value and leave memories with the same tables. -/
structure SameCall {α : Type} (call call' : α × Memory) : Prop where
  value_eq : call'.1 = call.1
  same : SameTables call.2 call'.2

variable {roots : ℕ → Prop} {m m' : Memory} {root t i : ℕ} {path : List ℕ} {style : TableStyle}

namespace SameTables

theorem writeEntry (h : SameTables m m') (t i value : ℕ) :
    SameTables (m.writeEntry t i value) (m'.writeEntry t i value) :=
  { h with
    phys_eq := fun frame hframe ↦ by
      funext j
      change (if _ then value else m'.phys frame j) = if _ then value else m.phys frame j
      rw [h.phys_eq frame hframe] }

theorem zeroFrame (h : SameTables m m') (t : ℕ) : SameTables (m.zeroFrame t) (m'.zeroFrame t) :=
  { h with
    phys_eq := fun frame hframe ↦ by
      funext j
      change (if _ then 0 else m'.phys frame j) = if _ then 0 else m.phys frame j
      rw [h.phys_eq frame hframe] }

theorem granted (h : SameTables m m') (hgranted : m.AllocsGranted) : m'.AllocsGranted := by
  unfold AllocsGranted
  rwa [h.trace_eq]

theorem alloc (h : SameTables m m') (region : Region) : SameCall (osPfnAlloc region m) (osPfnAlloc region m') := by
  have hlists := congrFun h.lists_eq region
  by_cases hzero : (m.pglists region).freePages = 0
  · rw [osPfnAlloc_of_zero hzero, osPfnAlloc_of_zero (hlists ▸ hzero)]
    exact ⟨rfl, ⟨h.lists_eq, h.phys_eq, h.pmd_eq, h.apic_eq, congrArg (_ :: ·) h.trace_eq⟩⟩
  · rw [osPfnAlloc_of_pos hzero, osPfnAlloc_of_pos (hlists ▸ hzero), h.lists_eq]
    refine ⟨rfl, rfl, fun frame hframe ↦ ?_, h.pmd_eq, h.apic_eq, congrArg (_ :: ·) h.trace_eq⟩
    simp only
    split
    · exact (h.zeroFrame _).phys_eq frame hframe
    · exact h.phys_eq frame hframe

theorem linkTable (h : SameTables m m') (ht : Region.osPt.Contains t) (style : TableStyle) (i : ℕ) :
    SameCall (linkTable style t i m) (linkTable style t i m') := by
  unfold GemOS.linkTable
  rw [h.phys_eq t ht]
  split
  · exact ⟨rfl, h⟩
  · have halloc := h.alloc .osPt
    simp only
    rw [halloc.value_eq]
    refine ⟨rfl, ?_⟩
    split
    · exact (halloc.same.writeEntry _ _ _).zeroFrame _
    · exact halloc.same.writeEntry _ _ _

/-- Several levels; the tables on the way are frames of the page-table region. -/
theorem linkTables (hsame : SameTables m m') (hstyle : style.Sound) (hroot : roots root) (rest path : List ℕ)
    (h : Tables roots m) (htable : m.phys.tableAt root path = some t) (hlength : path.length + rest.length ≤ 3)
    (hslots : ∀ front i back, rest = front ++ i :: back → LinkSlot m.apicBase (path ++ front) i style.flags)
    (hgranted : (linkTables style rest t m).2.AllocsGranted) :
    SameCall (linkTables style rest t m) (linkTables style rest t m') := by
  induction rest generalizing path t m m' with
  | nil => exact ⟨rfl, hsame⟩
  | cons i rest ih =>
    rw [List.length_cons] at hlength
    have hshort : path.length < 3 := by omega
    have ht := (h.table_usable t (Tables.isTable_of_tableAt hroot hshort.le htable)).contains
    obtain ⟨hext, hnext, -⟩ := linkTable_spec hstyle h hroot htable hshort (by simpa using hslots [] i rest rfl)
      (linkTables_granted_of hgranted)
    obtain ⟨hvalue, hsame'⟩ := hsame.linkTable ht style i
    rw [GemOS.linkTables, GemOS.linkTables, hvalue]
    refine ih hsame' (path ++ [i]) hext.tables hnext (by simp; omega) (fun front j back hsplit ↦ ?_) hgranted
    rw [hext.apic_eq, List.append_assoc]
    exact hslots (i :: front) j back (by rw [hsplit]; rfl)

/-- The tables above a user page. -/
theorem linkUser (hsame : SameTables m m') (hstyle : style.Sound) (hflags : UserFlags style.flags) (h : Tables roots m)
    (hroot : roots root) {addr : ℕ} (hslot : UserSlot (tablePath addr) (pteIndex addr))
    (hgranted : (GemOS.linkTables style (tablePath addr) root m).2.AllocsGranted) :
    SameCall (GemOS.linkTables style (tablePath addr) root m) (GemOS.linkTables style (tablePath addr) root m') :=
  hsame.linkTables hstyle hroot _ [] h PhysMem.tableAt_nil (by simp [tablePath]) (linkSlot_user hslot hflags) hgranted

theorem installPtable (hsame : SameTables m m') (h : Tables roots m) (hroot : roots root) {addr : ℕ}
    (hslot : UserSlot (tablePath addr) (pteIndex addr)) (haddr : addr ≠ 0) (mm : MmSegment) (upfn : ℕ)
    (hgranted : (installPtable root mm addr upfn m).2.AllocsGranted) :
    SameCall (installPtable root mm addr upfn m) (installPtable root mm addr upfn m') := by
  unfold GemOS.installPtable at hgranted ⊢
  simp only [if_neg haddr] at hgranted ⊢
  have hlinks : (GemOS.linkTables ptableStyle (tablePath addr) root m).2.AllocsGranted := by
    split at hgranted
    · exact AllocsGranted.of_osPfnAlloc hgranted
    · exact hgranted
  obtain ⟨hvalue, hsame'⟩ := hsame.linkUser ptableStyle_sound (Or.inr rfl) h hroot hslot hlinks
  rw [hvalue]
  split
  · obtain ⟨hframe, hpage⟩ := hsame'.alloc .user
    rw [hframe]
    exact ⟨rfl, hpage.writeEntry _ _ _⟩
  · exact ⟨rfl, hsame'.writeEntry _ _ _⟩

theorem fillPtes (hsame : SameTables m m') (t index startPfn : ℕ) (write : Bool) (ctr remaining : ℕ) :
    SameTables (fillPtes t index startPfn write ctr remaining m)
      (fillPtes t index startPfn write ctr remaining m') := by
  induction remaining generalizing ctr m m' with
  | zero => exact hsame
  | succ remaining ih =>
    rw [GemOS.fillPtes, GemOS.fillPtes]
    split
    · exact ih (hsame.writeEntry _ _ _) _
    · obtain ⟨hframe, hpage⟩ := hsame.alloc .user
      rw [hframe]
      exact ih (hpage.writeEntry _ _ _) _

theorem installPtableMulti (hsame : SameTables m m') (h : Tables roots m) (hroot : roots root) {start : ℕ}
    (hslot : UserSlot (tablePath start) (pteIndex start)) (count : ℕ) (write : Bool)
    (hgranted : (installPtableMulti root start count write m).2.AllocsGranted) :
    SameCall (installPtableMulti root start count write m) (installPtableMulti root start count write m') := by
  have hlinks : (GemOS.linkTables ptableStyle (tablePath start) root m).2.AllocsGranted :=
    (hgranted.anti (le_fillPtes _ _ _ _ _ _ _)).of_osPfnAlloc
  obtain ⟨hvalue, hsame'⟩ := hsame.linkUser ptableStyle_sound (Or.inr rfl) h hroot hslot hlinks
  obtain ⟨hframe, hpage⟩ := hsame'.alloc .user
  unfold GemOS.installPtableMulti
  simp only
  rw [hvalue, hframe]
  exact ⟨rfl, hpage.fillPtes _ _ _ _ _ _⟩

theorem writeWindow (hsame : SameTables m m') (config : OsConfigs) (pmd pfn remaining : ℕ) :
    SameTables (writeWindow config pmd pfn remaining m) (writeWindow config pmd pfn remaining m') := by
  induction remaining generalizing pfn m m' with
  | zero => exact hsame
  | succ remaining ih => exact ih (hsame.writeEntry _ _ _) _

theorem setPmd (hsame : SameTables m m') (pfn : ℕ) :
    SameTables { m with osPmdPfn := pfn } { m' with osPmdPfn := pfn } :=
  ⟨hsame.lists_eq, hsame.phys_eq, rfl, hsame.apic_eq, hsame.trace_eq⟩

theorem installApicMapping (hsame : SameTables m m') (config : OsConfigs) (h : Tables roots m) (hroot : roots root)
    (hpgd : m.phys root 0 ≠ 0) (hgranted : (installApicMapping root config m).AllocsGranted) :
    SameTables (installApicMapping root config m) (installApicMapping root config m') := by
  have hrootTable := (h.table_usable root (TableForest.Node.of_root hroot)).contains
  have hfirst : (GemOS.linkTable apicStyle root (pgdIndex m.apicBase.hugePage) m).2.AllocsGranted :=
    linkTable_granted_of (t := (GemOS.linkTable apicStyle root (pgdIndex m.apicBase.hugePage) m).1)
      (i := pudIndex m.apicBase.hugePage) hgranted
  -- the first entry links the user tables when the APIC page lies below it too
  have hnext : ∃ m₁, Tables roots m₁ ∧ m₁.phys.tableAt root [pgdIndex m.apicBase.hugePage] =
      some (GemOS.linkTable apicStyle root (pgdIndex m.apicBase.hugePage) m).1 := by
    by_cases hzero : pgdIndex m.apicBase.hugePage = 0
    · rw [hzero]
      exact ⟨m, h, (linkTable_follow apicStyle_sound h hroot PhysMem.tableAt_nil (by simp)
        (Or.inl ⟨rfl, Or.inl rfl⟩) hpgd).2⟩
    · obtain ⟨hext, htable, -⟩ := linkTable_spec apicStyle_sound h hroot PhysMem.tableAt_nil (by simp)
        (Or.inr ⟨.apicPud hzero, rfl⟩) hfirst
      exact ⟨_, hext.tables, htable⟩
  obtain ⟨m₁, htables, htable⟩ := hnext
  have hpud := (htables.table_usable _ (Tables.isTable_of_tableAt hroot (by simp) htable)).contains
  obtain ⟨hvalue, hsame₁⟩ := hsame.linkTable hrootTable apicStyle (pgdIndex m.apicBase.hugePage)
  obtain ⟨hvalue', hsame₂⟩ := hsame₁.linkTable hpud apicStyle (pudIndex m.apicBase.hugePage)
  unfold GemOS.installApicMapping
  simp only [GemOS.linkTables, hsame.apic_eq]
  rw [hvalue, hvalue']
  exact hsame₂.writeEntry _ _ _

theorem installOsPts (hsame : SameTables m m') (config : OsConfigs) (h : Tables roots m) (hroot : roots root)
    (hpgd : m.phys root 0 ≠ 0) (hgranted : (installOsPts root config m).AllocsGranted) :
    SameTables (installOsPts root config m) (installOsPts root config m') := by
  have hrootTable := (h.table_usable root (TableForest.Node.of_root hroot)).contains
  obtain ⟨hstay, htable⟩ := linkTable_follow (i := 0) osPtsStyle_sound h hroot PhysMem.tableAt_nil
    (by simp) (Or.inl ⟨rfl, Or.inl rfl⟩) hpgd
  rw [List.nil_append] at htable
  obtain ⟨hvalue, hsame₁⟩ := hsame.linkTable hrootTable osPtsStyle 0
  have hpud := (h.table_usable _ (Tables.isTable_of_tableAt hroot (by simp) htable)).contains
  have hslot : LinkSlot m.apicBase [0] 0 osPtsStyle.flags := Or.inr ⟨.window, rfl⟩
  unfold GemOS.installOsPts at hgranted ⊢
  simp only at hgranted ⊢
  rw [hvalue, hsame₁.phys_eq _ hpud]
  rw [hstay] at hsame₁ hgranted ⊢
  generalize (GemOS.linkTable osPtsStyle root 0 m).1 = pud at *
  obtain ⟨hvalue', hsame₂⟩ := hsame₁.linkTable hpud osPtsStyle 0
  rw [hvalue']
  generalize hcall : GemOS.linkTable osPtsStyle pud 0 m = pmd at *
  generalize (GemOS.linkTable osPtsStyle pud 0 (GemOS.linkTable osPtsStyle root 0 m').2).2 = m₂ at *
  obtain ⟨linked, hlinked⟩ : ∃ linked, linked =
      (if osPtsStyle.present (m.phys pud 0) then pmd.2 else { pmd.2 with osPmdPfn := pmd.1 }) := ⟨_, rfl⟩
  rw [← hlinked] at hgranted ⊢
  have hgrantedLinked : linked.AllocsGranted := (writeWindow_granted osPtMaps 0 _).1
    (installApicMapping_granted_of hgranted)
  obtain ⟨hphys, hgrantedPmd⟩ : linked.phys = pmd.2.phys ∧ pmd.2.AllocsGranted := by
    rw [hlinked] at hgrantedLinked ⊢
    split at hgrantedLinked <;> split <;> exact ⟨rfl, hgrantedLinked⟩
  obtain ⟨hext, hpmd, hentries⟩ := linkTable_spec osPtsStyle_sound h hroot htable (by simp) hslot
    (by rw [hcall]; exact hgrantedPmd)
  rw [hcall] at hext hpmd hentries
  have htables : Tables roots linked := by
    rw [hlinked]
    split
    · exact hext.tables
    · exact (Extends.of_osPmdPfn hext.tables _).tables
  obtain ⟨hwindow, hwindowEntries⟩ := writeWindow_spec config hroot osPtMaps 0 _ htables
    (by rw [hphys]; exact hpmd) (by simp)
  refine (SameTables.writeWindow ?_ config _ 0 osPtMaps).installApicMapping config hwindow.tables hroot ?_ hgranted
  · rw [hlinked]
    split
    · exact hsame₂
    · exact hsame₂.setPmd _
  · have hentry := hwindowEntries root [] 0 hroot (by simp)
    rw [if_neg (by simp), hphys, hentries root [] 0 hroot (by simp), if_neg (by simp)] at hentry
    exact fun hzero ↦ hpgd (hentry.symm.trans hzero)

end SameTables

end GemOS
