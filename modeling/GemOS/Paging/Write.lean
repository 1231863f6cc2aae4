import GemOS.Paging.Segment

/-!
# Writing an entry

Every change the kernel makes to a page table is a write to one slot of one table. `Tables.writeEntry`
is the step lemma: the invariant survives a write of an admissible entry, all other entries keep their
value, and the tables afterwards are the old ones and the one just linked. `Extends` collects what a
sequence of allocations and writes leaves alone.
-/

namespace GemOS

open Foundation TableForest

namespace Memory

def writeEntry (m : Memory) (pfn index value : ℕ) : Memory :=
  { m with phys := m.phys.write pfn index value }

/-- `bzero` of a frame. -/
def zeroFrame (m : Memory) (pfn : ℕ) : Memory := { m with phys := m.phys.zero pfn }

@[simp]
theorem writeEntry_pglists (m : Memory) (pfn index value : ℕ) :
    (m.writeEntry pfn index value).pglists = m.pglists := rfl

@[simp]
theorem writeEntry_trace (m : Memory) (pfn index value : ℕ) :
    (m.writeEntry pfn index value).trace = m.trace := rfl

@[simp]
theorem writeEntry_allocated (m : Memory) (pfn index value : ℕ) (region : Region) (frame : ℕ) :
    (m.writeEntry pfn index value).allocated region frame = m.allocated region frame := rfl

@[simp]
theorem writeEntry_apicBase (m : Memory) (pfn index value : ℕ) :
    (m.writeEntry pfn index value).apicBase = m.apicBase := rfl

theorem writeEntry_phys (m : Memory) (pfn index value : ℕ) :
    (m.writeEntry pfn index value).phys = setEntry m.phys pfn index value := rfl

end Memory

namespace PhysMem

theorem write_of_ne {phys : PhysMem} {pfn index value frame : ℕ} (h : frame ≠ pfn) :
    phys.write pfn index value frame = phys frame := by
  funext j
  exact if_neg fun hand ↦ h hand.1

theorem zero_of_ne {phys : PhysMem} {pfn frame : ℕ} (h : frame ≠ pfn) :
    phys.zero pfn frame = phys frame := by
  funext j
  exact if_neg h

theorem zero_self (phys : PhysMem) (pfn j : ℕ) : phys.zero pfn pfn j = 0 := if_pos rfl

/-- Clearing a frame that is clear changes nothing. -/
theorem zero_of_clear {phys : PhysMem} {pfn : ℕ} (h : ∀ j, phys pfn j = 0) : phys.zero pfn = phys := by
  funext frame j
  by_cases hframe : frame = pfn
  · rw [hframe, zero_self, h]
  · rw [zero_of_ne hframe]

end PhysMem

variable {roots : ℕ → Prop} {m m' : Memory} {root t i e : ℕ} {path : List ℕ}

namespace Tables

/-- Frames that are not marked are not tables. -/
theorem not_isTable_of_clear (h : Tables roots m) {pfn : ℕ} (hclear : m.allocated .osPt pfn = false) :
    ¬ m.phys.IsTable roots pfn := fun htable ↦ by
  rw [h.table_allocated pfn htable] at hclear
  exact Bool.noConfusion hclear

theorem isTable_of_tableAt (hroot : roots root) (hlength : path.length ≤ 3)
    (htable : m.phys.tableAt root path = some t) : m.phys.IsTable roots t :=
  ⟨root, path, hroot, hlength, htable⟩

section Write

variable (h : Tables roots m) (hroot : roots root) (hlength : path.length ≤ 3)
  (htable : m.phys.tableAt root path = some t)
  (hwrite : Writable tableOf 3 roots m.phys path t i e)

include h hroot hlength htable hwrite

/-- A write is seen at its own slot only. -/
theorem entry_writeEntry {root' : ℕ} (hroot' : roots root') {path' : List ℕ}
    (hlength' : path'.length ≤ 3) (j : ℕ) :
    (m.writeEntry t i e).phys.entry root' path' j =
      if root' = root ∧ path' = path ∧ j = i then e else m.phys.entry root' path' j :=
  entryAt_setEntry tableOf_zero h.separated hroot hlength htable hwrite hroot' hlength' j

theorem isTable_writeEntry {pfn : ℕ} (hpfn : (m.writeEntry t i e).phys.IsTable roots pfn) :
    m.phys.IsTable roots pfn ∨ (path.length < 3 ∧ tableOf e = some pfn) :=
  node_setEntry tableOf_zero h.separated hroot hlength htable hwrite hpfn

theorem writeEntry (hok : EntryOk m.apicBase path i e)
    (hlinked : ∀ pfn, path.length < 3 → tableOf e = some pfn →
      Region.osPt.Usable pfn ∧ m.allocated .osPt pfn = true) :
    Tables roots (m.writeEntry t i e) where
  regions_ok := h.regions_ok
  separated := h.separated.setEntry tableOf_zero hroot hlength htable hwrite
  entry_ok root' path' j hroot' hlength' := by
    rw [h.entry_writeEntry hroot hlength htable hwrite hroot' hlength']
    split
    · rename_i hslot
      rw [hslot.2.1, hslot.2.2]
      exact hok
    · exact h.entry_ok root' path' j hroot' hlength'
  table_usable pfn hpfn := by
    rcases h.isTable_writeEntry hroot hlength htable hwrite hpfn with hold | ⟨hshort, hlink⟩
    · exact h.table_usable pfn hold
    · exact (hlinked pfn hshort hlink).1
  table_allocated pfn hpfn := by
    rcases h.isTable_writeEntry hroot hlength htable hwrite hpfn with hold | ⟨hshort, hlink⟩
    · exact h.table_allocated pfn hold
    · exact (hlinked pfn hshort hlink).2

end Write

/-- Memory that agrees on the tables and keeps their frames marked satisfies the invariant. -/
theorem congr (h : Tables roots m) (hregions : m'.RegionsOk) (hapic : m'.apicBase = m.apicBase)
    (hphys : ∀ pfn, m.phys.IsTable roots pfn → m'.phys pfn = m.phys pfn)
    (hallocated : ∀ pfn, m.phys.IsTable roots pfn → m'.allocated .osPt pfn = true) :
    Tables roots m' where
  regions_ok := hregions
  separated := h.separated.congr hphys
  entry_ok root path i hroot hlength := by
    rw [hapic, PhysMem.entry, entryAt_congr hphys hroot hlength]
    exact h.entry_ok root path i hroot hlength
  table_usable pfn hpfn := h.table_usable pfn ((node_congr hphys pfn).1 hpfn)
  table_allocated pfn hpfn := hallocated pfn ((node_congr hphys pfn).1 hpfn)

theorem entry_congr (hphys : ∀ pfn, m.phys.IsTable roots pfn → m'.phys pfn = m.phys pfn)
    (hroot : roots root) (hlength : path.length ≤ 3) (i : ℕ) :
    m'.phys.entry root path i = m.phys.entry root path i := entryAt_congr hphys hroot hlength i

theorem tableAt_congr (hphys : ∀ pfn, m.phys.IsTable roots pfn → m'.phys pfn = m.phys pfn)
    (hroot : roots root) (hlength : path.length ≤ 3) :
    m'.phys.tableAt root path = m.phys.tableAt root path := walk_congr hphys hroot hlength

theorem isTable_congr (hphys : ∀ pfn, m.phys.IsTable roots pfn → m'.phys pfn = m.phys pfn) (pfn : ℕ) :
    m'.phys.IsTable roots pfn ↔ m.phys.IsTable roots pfn := node_congr hphys pfn

/-- A granted frame is no table, so an allocation leaves all tables alone. -/
theorem grant_phys (h : Tables roots m) {region : Region} {pfn : ℕ}
    (hgrant : Memory.Grant region m m' pfn) {table : ℕ} (htable : m.phys.IsTable roots table) :
    m'.phys table = m.phys table := by
  rw [hgrant.phys_eq]
  split
  · rename_i hosPt
    subst hosPt
    refine PhysMem.zero_of_ne ?_
    rintro rfl
    exact h.not_isTable_of_clear hgrant.not_allocated htable
  · rfl

theorem grant (h : Tables roots m) {region : Region} {pfn : ℕ}
    (hgrant : Memory.Grant region m m' pfn) : Tables roots m' :=
  h.congr hgrant.regions_ok hgrant.apic_eq (fun _ ↦ h.grant_phys hgrant)
    fun table htable ↦ (hgrant.allocated_iff _ _).2 (Or.inl (h.table_allocated table htable))

theorem of_regionsOk (h : m.RegionsOk) (hnone : ∀ r, ¬ roots r) : Tables roots m where
  regions_ok := h
  separated root _ _ _ _ hroot := absurd hroot (hnone root)
  entry_ok root _ _ hroot := absurd hroot (hnone root)
  table_usable _ := fun ⟨root, _, hroot, _⟩ ↦ absurd hroot (hnone root)
  table_allocated _ := fun ⟨root, _, hroot, _⟩ ↦ absurd hroot (hnone root)

/-- A fresh frame as a further root, and the cleared table it holds. -/
theorem add_root (h : Tables roots m) {pfn : ℕ} (hgrant : Memory.Grant .osPt m m' pfn) :
    Tables (fun r ↦ roots r ∨ r = pfn) m' ∧ ∀ path i, m'.phys.entry pfn path i = 0 := by
  have h' := h.grant hgrant
  have hempty : ∀ i, m'.phys pfn i = 0 := fun i ↦ by
    rw [hgrant.phys_eq, if_pos rfl, PhysMem.zero_self]
  have hold : ¬ m'.phys.IsTable roots pfn := fun hnode ↦
    h.not_isTable_of_clear hgrant.not_allocated
      ((isTable_congr (fun _ ↦ h.grant_phys hgrant) pfn).1 hnode)
  have hentry : ∀ path i, m'.phys.entry pfn path i = 0 := fun path i ↦
    entryAt_of_empty tableOf_zero hempty path i
  have hnode : ∀ frame, m'.phys.IsTable (fun r ↦ roots r ∨ r = pfn) frame ↔
      m'.phys.IsTable roots frame ∨ frame = pfn := node_add_root tableOf_zero hempty
  refine ⟨⟨h'.regions_ok, h'.separated.add_root tableOf_zero hempty hold, ?_, ?_, ?_⟩, hentry⟩
  · rintro root path i (hroot | rfl) hlength
    · exact h'.entry_ok root path i hroot hlength
    · rw [hentry]
      exact .empty _ _
  · intro frame hframe
    rcases (hnode frame).1 hframe with hframe | rfl
    · exact h'.table_usable frame hframe
    · exact hgrant.usable
  · intro frame hframe
    rcases (hnode frame).1 hframe with hframe | rfl
    · exact h'.table_allocated frame hframe
    · exact (hgrant.allocated_iff _ _).2 (Or.inr ⟨rfl, rfl⟩)

end Tables

/-- A root table in blank memory, for walks that are computed. -/
def blankTable : ℕ × Memory := Memory.osPfnAlloc .osPt (.init (fun _ _ ↦ 0) .reset)

theorem grant_blankTable : Memory.Grant .osPt (.init (fun _ _ ↦ 0) .reset) blankTable.2 blankTable.1 := by
  refine Memory.osPfnAlloc_grant PageList.regionOk_initPagelists ?_
  unfold Memory.AllocsGranted
  decide +kernel

theorem tables_blankTable : Tables (fun r ↦ False ∨ r = blankTable.1) blankTable.2 := by
  have hregions : (Memory.init (fun _ _ ↦ 0) .reset).RegionsOk := PageList.regionOk_initPagelists
  exact ((Tables.of_regionsOk hregions fun _ ↦ not_false).add_root grant_blankTable).1

/-- Tables were added below the roots: nothing was freed, no frame outside the page-table region was
written, and a frame that became a table was not marked before. -/
structure Extends (roots : ℕ → Prop) (m m' : Memory) : Prop where
  tables : Tables roots m'
  table_new : ∀ pfn, m'.phys.IsTable roots pfn → m.phys.IsTable roots pfn ∨ m.allocated .osPt pfn = false
  still_allocated : ∀ region pfn, m.allocated region pfn = true → m'.allocated region pfn = true
  phys_eq : ∀ pfn, ¬ Region.osPt.Contains pfn → m'.phys pfn = m.phys pfn
  apic_eq : m'.apicBase = m.apicBase

namespace Extends

theorem refl (h : Tables roots m) : Extends roots m m :=
  ⟨h, fun _ ↦ Or.inl, fun _ _ ↦ id, fun _ _ ↦ rfl, rfl⟩

theorem trans {m'' : Memory} (first : Extends roots m m') (second : Extends roots m' m'') :
    Extends roots m m'' where
  tables := second.tables
  table_new pfn hpfn := by
    rcases second.table_new pfn hpfn with hold | hclear
    · exact first.table_new pfn hold
    · refine Or.inr ?_
      by_contra hset
      rw [first.still_allocated .osPt pfn (by simpa using hset)] at hclear
      exact Bool.noConfusion hclear
  still_allocated region pfn hpfn := second.still_allocated region pfn (first.still_allocated region pfn hpfn)
  phys_eq pfn hpfn := (second.phys_eq pfn hpfn).trans (first.phys_eq pfn hpfn)
  apic_eq := second.apic_eq.trans first.apic_eq

theorem of_grant (h : Tables roots m) {region : Region} {pfn : ℕ}
    (hgrant : Memory.Grant region m m' pfn) : Extends roots m m' where
  tables := h.grant hgrant
  table_new table htable :=
    Or.inl ((Tables.isTable_congr (fun _ ↦ h.grant_phys hgrant) table).1 htable)
  still_allocated other frame hframe := (hgrant.allocated_iff other frame).2 (Or.inl hframe)
  phys_eq frame hframe := by
    rw [hgrant.phys_eq]
    split
    · rename_i hosPt
      refine PhysMem.zero_of_ne ?_
      rintro rfl
      exact hframe (hosPt ▸ hgrant.usable.contains)
    · rfl
  apic_eq := hgrant.apic_eq

end Extends

end GemOS
