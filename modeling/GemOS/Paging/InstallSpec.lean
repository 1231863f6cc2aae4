import GemOS.Paging.Install

/-!
# What installing a page does

`linkTable_spec` is the step lemma for one level, `linkTables_spec` its induction along a path. From
them, with granted allocations, each of the installing functions extends the tables, changes exactly
the entries of its pages (`MapsPage`), and fills empty slots above them with its own flags.
-/

namespace GemOS

open Foundation TableForest Memory

variable {roots : ℕ → Prop} {m : Memory} {root : ℕ}

section Link

variable {style : TableStyle} {t i : ℕ} {path : List ℕ}

/-- A level whose entry is there is followed. -/
theorem linkTable_follow (hstyle : style.Sound) (h : Tables roots m) (hroot : roots root)
    (htable : m.phys.tableAt root path = some t) (hshort : path.length < 3) {flags : ℕ}
    (hslot : LinkSlot m.apicBase path i flags) (hentry : m.phys t i ≠ 0) :
    (linkTable style t i m).2 = m ∧
      m.phys.tableAt root (path ++ [i]) = some (linkTable style t i m).1 := by
  have hok := h.entry_ok root path i hroot hshort.le
  rw [PhysMem.entry_of_tableAt htable] at hok
  rcases hslot.table hshort hok with hzero | ⟨pfn, flags', hpfn, hflags, hmake⟩
  · exact absurd hzero hentry
  · rw [PhysMem.tableAt_concat htable, linkTable, hmake, hstyle.present_entry hflags, if_pos rfl,
      hstyle.frame_entry hpfn hflags, tableOf_makeEntry hpfn hflags]
    exact ⟨rfl, rfl⟩

/-- A level whose entry is empty gets a fresh table; the second clearing changes nothing. -/
theorem linkTable_empty (hstyle : style.Sound) (h : m.RegionsOk) (hentry : m.phys t i = 0)
    (hne : Region.osPt.Usable t → m.allocated .osPt t = true) (hgranted : (linkTable style t i m).2.AllocsGranted) :
    ∃ m₁ pfn, Grant .osPt m m₁ pfn ∧ (linkTable style t i m).1 = pfn ∧
      (linkTable style t i m).2 = m₁.writeEntry t i (makeEntry pfn style.flags) := by
  have habsent : style.present (m.phys t i) = false := by rw [hentry, hstyle.present_zero]
  have hlink : linkTable style t i m = ((osPfnAlloc .osPt m).1,
      if style.clears then
        ((osPfnAlloc .osPt m).2.writeEntry t i
          (makeEntry (osPfnAlloc .osPt m).1 style.flags)).zeroFrame (osPfnAlloc .osPt m).1
      else
        (osPfnAlloc .osPt m).2.writeEntry t i (makeEntry (osPfnAlloc .osPt m).1 style.flags)) := by
    rw [linkTable, habsent]
    rfl
  have hgranted' : (osPfnAlloc .osPt m).2.AllocsGranted := by
    rw [hlink] at hgranted
    split at hgranted <;> exact hgranted
  have hgrant := osPfnAlloc_grant h hgranted'
  refine ⟨_, _, hgrant, by rw [hlink], ?_⟩
  rw [hlink]
  split
  · have hpfn : (osPfnAlloc .osPt m).1 ≠ t := by
      intro heq
      have hclear := hgrant.not_allocated
      rw [heq, hne (heq ▸ hgrant.usable)] at hclear
      exact Bool.noConfusion hclear
    have hclear : ∀ j, ((osPfnAlloc .osPt m).2.writeEntry t i
        (makeEntry (osPfnAlloc .osPt m).1 style.flags)).phys (osPfnAlloc .osPt m).1 j = 0 := by
      intro j
      rw [writeEntry_phys, setEntry_of_ne (fun hand ↦ hpfn hand.1), hgrant.phys_eq, if_pos rfl,
        PhysMem.zero_self]
    simp only [zeroFrame, PhysMem.zero_of_clear hclear]
  · rfl

/-- A frame not in use was cleared and linked at a slot, and nothing else has changed. -/
structure LinksFresh (m m' : Memory) (t i pfn flags : ℕ) : Prop where
  usable : Region.osPt.Usable pfn
  not_allocated : m.allocated .osPt pfn = false
  allocated_iff : ∀ frame, m'.allocated .osPt frame = true ↔ m.allocated .osPt frame = true ∨ frame = pfn
  phys_eq : m'.phys = setEntry (m.phys.zero pfn) t i (makeEntry pfn flags)
  regions_ok : m'.RegionsOk
  apic_eq : m'.apicBase = m.apicBase

theorem linkTable_fresh (hstyle : style.Sound) (h : m.RegionsOk) (hentry : m.phys t i = 0)
    (hne : Region.osPt.Usable t → m.allocated .osPt t = true) (hgranted : (linkTable style t i m).2.AllocsGranted) :
    LinksFresh m (linkTable style t i m).2 t i (linkTable style t i m).1 style.flags := by
  obtain ⟨m₁, pfn, hgrant, hpfn, hlinked⟩ := linkTable_empty hstyle h hentry hne hgranted
  rw [hpfn, hlinked]
  refine ⟨hgrant.usable, hgrant.not_allocated, fun frame ↦ ?_, ?_, hgrant.regions_ok, hgrant.apic_eq⟩
  · exact (hgrant.allocated_iff _ _).trans (by simp)
  · rw [writeEntry_phys, hgrant.phys_eq, if_pos rfl]

/-- Linking a granted frame in an empty slot. -/
theorem Tables.writable_link (h : Tables roots m) {m₁ : Memory} {pfn flags : ℕ}
    (hgrant : Grant .osPt m m₁ pfn) (hroot : roots root)
    (htable : m.phys.tableAt root path = some t) (hshort : path.length < 3) (hentry : m.phys t i = 0)
    (hflags : TableFlags flags) :
    m₁.phys.tableAt root path = some t ∧
      Writable tableOf 3 roots m₁.phys path t i (makeEntry pfn flags) := by
  have hsame := fun table (ht : m.phys.IsTable roots table) ↦ h.grant_phys hgrant ht
  have htable₁ : m₁.phys.tableAt root path = some t := by
    rw [Tables.tableAt_congr hsame hroot hshort.le, htable]
  have hpfn : pfn < 2 ^ 32 := hgrant.usable.contains.lt.trans (by norm_num)
  refine ⟨htable₁, fun _ ↦ ?_, fun _ g hg ↦ ?_⟩
  · rw [hsame t (Tables.isTable_of_tableAt hroot hshort.le htable), hentry, tableOf_zero]
  · rw [tableOf_makeEntry hpfn hflags] at hg
    cases hg
    refine ⟨fun j ↦ ?_, fun hnode ↦ ?_⟩
    · rw [hgrant.phys_eq, if_pos rfl, PhysMem.zero_self]
    · exact h.not_isTable_of_clear hgrant.not_allocated ((Tables.isTable_congr hsame pfn).1 hnode)

/-- One level: the tables are extended, the slot leads to the returned table, and only an empty slot
was changed. -/
theorem linkTable_spec (hstyle : style.Sound) (h : Tables roots m) (hroot : roots root)
    (htable : m.phys.tableAt root path = some t) (hshort : path.length < 3)
    (hslot : LinkSlot m.apicBase path i style.flags)
    (hgranted : (linkTable style t i m).2.AllocsGranted) :
    Extends roots m (linkTable style t i m).2 ∧
      (linkTable style t i m).2.phys.tableAt root (path ++ [i]) = some (linkTable style t i m).1 ∧
      ∀ root' path' j, roots root' → path'.length ≤ 3 →
        (linkTable style t i m).2.phys.entry root' path' j =
          if root' = root ∧ path' = path ∧ j = i ∧ m.phys.entry root path i = 0 then
            makeEntry (linkTable style t i m).1 style.flags
          else m.phys.entry root' path' j := by
  rw [PhysMem.entry_of_tableAt htable]
  by_cases hentry : m.phys t i = 0
  · have hallocated := h.table_allocated t (Tables.isTable_of_tableAt hroot hshort.le htable)
    obtain ⟨m₁, pfn, hgrant, hfst, hsnd⟩ :=
      linkTable_empty hstyle h.regions_ok hentry (fun _ ↦ hallocated) hgranted
    obtain ⟨htable₁, hwrite⟩ :=
      h.writable_link hgrant hroot htable hshort hentry hslot.tableFlags
    have hpfn : pfn < 2 ^ 32 := hgrant.usable.contains.lt.trans (by norm_num)
    have hsame := fun table (ht : m.phys.IsTable roots table) ↦ h.grant_phys hgrant ht
    have h₁ := h.grant hgrant
    have hlinked : ∀ g, path.length < 3 → tableOf (makeEntry pfn style.flags) = some g →
        Region.osPt.Usable g ∧ m₁.allocated .osPt g = true := by
      intro g _ hg
      rw [tableOf_makeEntry hpfn hslot.tableFlags] at hg
      cases hg
      exact ⟨hgrant.usable, (hgrant.allocated_iff _ _).2 (Or.inr ⟨rfl, rfl⟩)⟩
    have hslot₁ : LinkSlot m₁.apicBase path i style.flags := by rwa [hgrant.apic_eq]
    have hafter := h₁.writeEntry hroot hshort.le htable₁ hwrite (hslot₁.entry_ok hshort hpfn) hlinked
    have hentries := fun root' (path' : List ℕ) j (hroot' : roots root') (hlength' : path'.length ≤ 3) ↦
      h₁.entry_writeEntry hroot hshort.le htable₁ hwrite hroot' hlength' j
    rw [hfst, hsnd]
    refine ⟨⟨hafter, ?_, fun region frame hframe ↦ ?_, fun frame hframe ↦ ?_, hgrant.apic_eq⟩, ?_, ?_⟩
    · intro table hnode
      rcases h₁.isTable_writeEntry hroot hshort.le htable₁ hwrite hnode with hold | ⟨-, hlink⟩
      · exact Or.inl ((Tables.isTable_congr hsame table).1 hold)
      · rw [tableOf_makeEntry hpfn hslot.tableFlags] at hlink
        cases hlink
        exact Or.inr hgrant.not_allocated
    · exact (hgrant.allocated_iff region frame).2 (Or.inl hframe)
    · have hframe' : frame ≠ t := by
        rintro rfl
        exact hframe (h.table_usable _ (Tables.isTable_of_tableAt hroot hshort.le htable)).contains
      exact (PhysMem.write_of_ne hframe').trans ((Extends.of_grant h hgrant).phys_eq frame hframe)
    · rw [PhysMem.tableAt_concat_entry, hentries root path i hroot hshort.le, if_pos ⟨rfl, rfl, rfl⟩,
        tableOf_makeEntry hpfn hslot.tableFlags]
    · intro root' path' j hroot' hlength'
      rw [hentries root' path' j hroot' hlength', Tables.entry_congr hsame hroot' hlength']
      simp only [hentry, and_true]
  · obtain ⟨hsnd, hnext⟩ := linkTable_follow hstyle h hroot htable hshort hslot hentry
    rw [hsnd]
    refine ⟨Extends.refl h, hnext, fun root' path' j _ _ ↦ ?_⟩
    simp only [hentry, and_false, if_false]

end Link

/-- An empty slot on the way to `target` was filled with a link, or the entry is unchanged. -/
def LinksTo (m m' : Memory) (root : ℕ) (target : List ℕ) (flags root' : ℕ) (path' : List ℕ) (j : ℕ) : Prop :=
  m'.phys.entry root' path' j = m.phys.entry root' path' j ∨
    (m.phys.entry root' path' j = 0 ∧ root' = root ∧ path' ++ [j] <+: target ∧
      ∃ pfn, m'.phys.entry root' path' j = makeEntry pfn flags)

theorem linkTable_granted_of {style : TableStyle} {t i : ℕ}
    (h : (linkTable style t i m).2.AllocsGranted) : m.AllocsGranted := by
  unfold linkTable at h
  split at h
  · exact h
  · simp only at h
    split at h <;> exact h.of_osPfnAlloc

theorem linkTables_granted_of {style : TableStyle} {rest : List ℕ} {t : ℕ}
    (h : (linkTables style rest t m).2.AllocsGranted) : m.AllocsGranted := by
  induction rest generalizing t m with
  | nil => exact h
  | cons i rest ih => exact linkTable_granted_of (ih h)

@[simp]
theorem linkTable_pmd (style : TableStyle) (t i : ℕ) (m : Memory) :
    (linkTable style t i m).2.osPmdPfn = m.osPmdPfn := by
  unfold linkTable
  split
  · rfl
  · simp only
    split <;> exact osPfnAlloc_pmd .osPt m

@[simp]
theorem linkTables_pmd (style : TableStyle) (rest : List ℕ) (t : ℕ) (m : Memory) :
    (linkTables style rest t m).2.osPmdPfn = m.osPmdPfn := by
  induction rest generalizing t m with
  | nil => rfl
  | cons i rest ih => exact (ih _ _).trans (linkTable_pmd style t i m)

/-- Several levels, by induction on the indices still to be descended. -/
theorem linkTables_spec {style : TableStyle} (hstyle : style.Sound) (hroot : roots root)
    (rest : List ℕ) (path : List ℕ) (t : ℕ) (m : Memory) (h : Tables roots m)
    (htable : m.phys.tableAt root path = some t) (hlength : path.length + rest.length ≤ 3)
    (hslots : ∀ front i back, rest = front ++ i :: back →
      LinkSlot m.apicBase (path ++ front) i style.flags)
    (hgranted : (linkTables style rest t m).2.AllocsGranted) :
    Extends roots m (linkTables style rest t m).2 ∧
      (linkTables style rest t m).2.phys.tableAt root (path ++ rest) = some (linkTables style rest t m).1 ∧
      ∀ root' path' j, roots root' → path'.length ≤ 3 →
        LinksTo m (linkTables style rest t m).2 root (path ++ rest) style.flags root' path' j := by
  induction rest generalizing path t m with
  | nil =>
    refine ⟨Extends.refl h, ?_, fun _ _ _ _ _ ↦ Or.inl rfl⟩
    rw [List.append_nil]
    exact htable
  | cons i rest ih =>
    rw [List.length_cons] at hlength
    have hshort : path.length < 3 := by omega
    have hslot : LinkSlot m.apicBase path i style.flags := by
      simpa using hslots [] i rest rfl
    obtain ⟨hext, hnext, hentries⟩ :=
      linkTable_spec hstyle h hroot htable hshort hslot (linkTables_granted_of hgranted)
    have hslots' : ∀ front k back, rest = front ++ k :: back →
        LinkSlot (linkTable style t i m).2.apicBase (path ++ [i] ++ front) k style.flags := by
      intro front k back hsplit
      rw [hext.apic_eq, List.append_assoc]
      exact hslots (i :: front) k back (by rw [hsplit]; rfl)
    obtain ⟨hext', hlast, hlinks⟩ := ih (path ++ [i]) (linkTable style t i m).1
      (linkTable style t i m).2 hext.tables hnext (by simp; omega) hslots' hgranted
    rw [List.append_assoc] at hlast
    refine ⟨hext.trans hext', hlast, fun root' path' j hroot' hlength' ↦ ?_⟩
    have hfirst := hentries root' path' j hroot' hlength'
    have hrest := hlinks root' path' j hroot' hlength'
    rw [List.append_assoc] at hrest
    by_cases hhere : root' = root ∧ path' = path ∧ j = i ∧ m.phys.entry root path i = 0
    · obtain ⟨rfl, rfl, rfl, hzero⟩ := hhere
      rw [if_pos ⟨rfl, rfl, rfl, hzero⟩] at hfirst
      refine Or.inr ⟨hzero, rfl, ⟨rest, by simp⟩, ?_⟩
      rcases hrest with hsame | ⟨hzero', -⟩
      · exact ⟨_, hsame.trans hfirst⟩
      · rw [hfirst] at hzero'
        exact absurd hzero' (hslot.tableFlags.ne_zero _)
    · rw [if_neg hhere] at hfirst
      rcases hrest with hsame | ⟨hzero, hroot₂, hlead, hmake⟩
      · exact Or.inl (hsame.trans hfirst)
      · exact Or.inr ⟨hfirst.symm.trans hzero, hroot₂, hlead, hmake⟩

/-- The slots on the way to a user page. -/
theorem userSlot_front {addr : ℕ} (hslot : UserSlot (tablePath addr) (pteIndex addr)) (front : List ℕ) (i : ℕ)
    (back : List ℕ) (hsplit : tablePath addr = front ++ i :: back) : UserSlot front i := by
  have hindices := userSlot_page_iff.1 hslot
  rcases front with _ | ⟨a, _ | ⟨b, _ | ⟨c, front⟩⟩⟩
  · simp only [tablePath, List.nil_append, List.cons.injEq] at hsplit
    rw [← hsplit.1]
    exact hindices.1
  · simp only [tablePath, List.cons_append, List.nil_append, List.cons.injEq] at hsplit
    rw [← hsplit.1, ← hsplit.2.1]
    exact hindices
  · simp only [tablePath, List.cons_append, List.nil_append, List.cons.injEq] at hsplit
    rw [← hsplit.1, ← hsplit.2.1]
    exact hindices
  · have hlength := congrArg List.length hsplit
    simp [tablePath] at hlength

/-- The slots on the way to a user page take links with user flags. -/
theorem linkSlot_user {apic : ApicBase} {addr flags : ℕ}
    (hslot : UserSlot (tablePath addr) (pteIndex addr)) (hflags : UserFlags flags) (front : List ℕ) (i : ℕ)
    (back : List ℕ) (hsplit : tablePath addr = front ++ i :: back) :
    LinkSlot apic ([] ++ front) i flags :=
  Or.inl ⟨userSlot_front hslot front i back hsplit, hflags⟩

section Page

variable {addr t : ℕ}

/-- Writing a last-level slot of a user page. -/
theorem writePage_spec (h : Tables roots m) (hroot : roots root)
    (htable : m.phys.tableAt root (tablePath addr) = some t) {e : ℕ}
    (hok : EntryOk m.apicBase (tablePath addr) (pteIndex addr) e) :
    Extends roots m (m.writeEntry t (pteIndex addr) e) ∧
      ∀ root' path' j, roots root' → path'.length ≤ 3 →
        (m.writeEntry t (pteIndex addr) e).phys.entry root' path' j =
          if root' = root ∧ path' = tablePath addr ∧ j = pteIndex addr then e
          else m.phys.entry root' path' j := by
  have hlast : ¬ (tablePath addr).length < 3 := by simp [tablePath]
  have hlength : (tablePath addr).length ≤ 3 := by simp [tablePath]
  have hwrite : Writable tableOf 3 roots m.phys (tablePath addr) t (pteIndex addr) e :=
    ⟨fun hshort ↦ absurd hshort hlast, fun hshort ↦ absurd hshort hlast⟩
  refine ⟨⟨?_, fun pfn hpfn ↦ ?_, fun _ _ ↦ id, fun pfn hpfn ↦ ?_, rfl⟩, ?_⟩
  · exact h.writeEntry hroot hlength htable hwrite hok fun _ hshort ↦ absurd hshort hlast
  · rcases h.isTable_writeEntry hroot hlength htable hwrite hpfn with hold | ⟨hshort, -⟩
    · exact Or.inl hold
    · exact absurd hshort hlast
  · refine PhysMem.write_of_ne ?_
    rintro rfl
    exact hpfn (h.table_usable _ (Tables.isTable_of_tableAt hroot hlength htable)).contains
  · exact fun root' path' j hroot' hlength' ↦
      h.entry_writeEntry hroot hlength htable hwrite hroot' hlength' j

/-- A user page was mapped: its entry is the given one, all other page entries are unchanged, and
above them only empty slots on the way to the page were filled. -/
structure MapsPage (roots : ℕ → Prop) (m m' : Memory) (root addr pfn flags linkFlags : ℕ) : Prop where
  extend : Extends roots m m'
  pages : ∀ root' path' j, roots root' → path'.length = 3 →
    m'.phys.entry root' path' j =
      if root' = root ∧ path' = tablePath addr ∧ j = pteIndex addr then makeEntry pfn flags
      else m.phys.entry root' path' j
  links : ∀ root' path' j, roots root' → path'.length < 3 →
    LinksTo m m' root (tablePath addr) linkFlags root' path' j
  pmd_eq : m'.osPmdPfn = m.osPmdPfn

/-- Descending to the last level, getting hold of a frame and writing its entry maps the page. -/
theorem mapsPage_of_steps {style : TableStyle} (hstyle : style.Sound) (hflags : UserFlags style.flags)
    (h : Tables roots m) (hroot : roots root) (hslot : UserSlot (tablePath addr) (pteIndex addr))
    (page : ℕ × Memory) {leafFlags : ℕ} (hleaf : UserFlags leafFlags)
    (hpage : Region.user.Usable page.1)
    (hextend : Tables roots (linkTables style (tablePath addr) root m).2 →
      Extends roots (linkTables style (tablePath addr) root m).2 page.2)
    (hphys : page.2.phys = (linkTables style (tablePath addr) root m).2.phys)
    (hpmd : page.2.osPmdPfn = (linkTables style (tablePath addr) root m).2.osPmdPfn)
    (hgranted : (linkTables style (tablePath addr) root m).2.AllocsGranted) :
    MapsPage roots m
      (page.2.writeEntry (linkTables style (tablePath addr) root m).1 (pteIndex addr)
        (makeEntry page.1 leafFlags)) root addr page.1 leafFlags style.flags := by
  obtain ⟨hext, htable, hlinks⟩ := linkTables_spec hstyle hroot (tablePath addr) [] root m h
    PhysMem.tableAt_nil (by simp [tablePath]) (linkSlot_user hslot hflags) hgranted
  have hext₁ := hext.trans (hextend hext.tables)
  rw [List.nil_append] at htable
  have hok : EntryOk page.2.apicBase (tablePath addr) (pteIndex addr) (makeEntry page.1 leafFlags) :=
    .userPage hslot rfl hpage hleaf
  have htable₁ : page.2.phys.tableAt root (tablePath addr) =
      some (linkTables style (tablePath addr) root m).1 := by rw [hphys, htable]
  obtain ⟨hext₂, hentries⟩ := writePage_spec hext₁.tables hroot htable₁ hok
  refine ⟨hext₁.trans hext₂, fun root' path' j hroot' hlength' ↦ ?_, fun root' path' j hroot' hlength' ↦ ?_,
    hpmd.trans (linkTables_pmd _ _ _ _)⟩
  · rw [hentries root' path' j hroot' hlength'.le, hphys]
    split
    · rfl
    · rcases hlinks root' path' j hroot' hlength'.le with hsame | ⟨-, -, hlead, -⟩
      · exact hsame
      · have hle := hlead.length_le
        simp [tablePath, hlength'] at hle
  · have hother : ¬ (root' = root ∧ path' = tablePath addr ∧ j = pteIndex addr) := by
      rintro ⟨-, rfl, -⟩
      simp [tablePath] at hlength'
    have hlink := hlinks root' path' j hroot' hlength'.le
    have hentry := hentries root' path' j hroot' hlength'.le
    rw [if_neg hother, hphys] at hentry
    rw [List.nil_append] at hlink
    unfold LinksTo
    rwa [hentry]

/-- The page was mapped to a frame of the user region that was not in use and now is. -/
structure MapsFresh (roots : ℕ → Prop) (m m' : Memory) (root addr pfn flags linkFlags : ℕ) : Prop extends
    MapsPage roots m m' root addr pfn flags linkFlags where
  fresh : m.allocated .user pfn = false
  marked : m'.allocated .user pfn = true
  usable : Region.user.Usable pfn

/-- Descending to the last level, allocating a frame and writing its entry. -/
theorem mapsFresh_of_steps {style : TableStyle} (hstyle : style.Sound) (hflags : UserFlags style.flags)
    (h : Tables roots m) (hroot : roots root) (hslot : UserSlot (tablePath addr) (pteIndex addr))
    {leafFlags : ℕ} (hleaf : UserFlags leafFlags)
    (hgranted : (osPfnAlloc .user (linkTables style (tablePath addr) root m).2).2.AllocsGranted) :
    MapsFresh roots m
      ((osPfnAlloc .user (linkTables style (tablePath addr) root m).2).2.writeEntry
        (linkTables style (tablePath addr) root m).1 (pteIndex addr)
        (makeEntry (osPfnAlloc .user (linkTables style (tablePath addr) root m).2).1 leafFlags))
      root addr (osPfnAlloc .user (linkTables style (tablePath addr) root m).2).1 leafFlags style.flags := by
  have hgranted₁ := hgranted.of_osPfnAlloc
  have hext := (linkTables_spec hstyle hroot (tablePath addr) [] root m h PhysMem.tableAt_nil
    (by simp [tablePath]) (linkSlot_user hslot hflags) hgranted₁).1
  have hgrant := osPfnAlloc_grant hext.tables.regions_ok hgranted
  refine ⟨?_, ?_, (hgrant.allocated_iff _ _).2 (Or.inr ⟨rfl, rfl⟩), hgrant.usable⟩
  · exact mapsPage_of_steps hstyle hflags h hroot hslot _ hleaf hgrant.usable
      (fun htables ↦ Extends.of_grant htables hgrant) (by rw [hgrant.phys_eq]; rfl) hgrant.pmd_eq hgranted₁
  · by_contra hset
    have hset' := hext.still_allocated .user _ (by simpa using hset)
    rw [hgrant.not_allocated] at hset'
    exact Bool.noConfusion hset'

/-- `install_page_table` maps the faulting page with the access flags of the fault. -/
theorem installPageTable_spec (h : Tables roots m) (hroot : roots root)
    (hslot : UserSlot (tablePath addr) (pteIndex addr)) (errorCode : ℕ)
    (hgranted : (installPageTable root addr errorCode m).AllocsGranted) :
    ∃ pfn, MapsFresh roots m (installPageTable root addr errorCode m) root addr pfn
      (pageTableStyle errorCode).flags (pageTableStyle errorCode).flags :=
  ⟨_, mapsFresh_of_steps (pageTableStyle_sound errorCode) (userFlags_pageTableStyle errorCode) h hroot
    hslot (userFlags_pageTableStyle errorCode) hgranted⟩

/-- `install_ptable` with a given frame maps that frame. -/
theorem installPtable_given (h : Tables roots m) (hroot : roots root)
    (hslot : UserSlot (tablePath addr) (pteIndex addr)) (haddr : addr ≠ 0) (mm : MmSegment) {upfn : ℕ}
    (hupfn : Region.user.Usable upfn)
    (hgranted : (installPtable root mm addr upfn m).2.AllocsGranted) :
    MapsPage roots m (installPtable root mm addr upfn m).2 root addr upfn
      (if mm.writable then 0x7 else 0x5) 0x7 := by
  unfold installPtable at hgranted ⊢
  simp only [if_neg haddr, if_neg hupfn.ne_zero, userPageEntry_eq] at hgranted ⊢
  exact mapsPage_of_steps ptableStyle_sound (Or.inr rfl) h hroot hslot (upfn, _)
    (userFlags_page _) hupfn (fun htables ↦ Extends.refl htables) rfl rfl hgranted

/-- `install_ptable` without a frame maps one not in use, and returns it. -/
theorem installPtable_fresh (h : Tables roots m) (hroot : roots root)
    (hslot : UserSlot (tablePath addr) (pteIndex addr)) (haddr : addr ≠ 0) (mm : MmSegment)
    (hgranted : (installPtable root mm addr 0 m).2.AllocsGranted) :
    MapsFresh roots m (installPtable root mm addr 0 m).2 root addr (installPtable root mm addr 0 m).1
      (if mm.writable then 0x7 else 0x5) 0x7 := by
  unfold installPtable at hgranted ⊢
  simp only [if_neg haddr, if_true, userPageEntry_eq] at hgranted ⊢
  exact mapsFresh_of_steps ptableStyle_sound (Or.inr rfl) h hroot hslot (userFlags_page _) hgranted

/-- Without an address the page is the first of the segment. -/
theorem installPtable_zero (mm : MmSegment) (hstart : mm.start ≠ 0) (upfn : ℕ) (m : Memory) :
    installPtable root mm 0 upfn m = installPtable root mm mm.start upfn m := by
  unfold installPtable
  rw [if_pos rfl, if_neg hstart]

end Page

section Multi

variable {t index : ℕ} {write : Bool}

/-- One round of the loop of `install_ptable_multi`, with its allocation. -/
def fillPte (table index : ℕ) (write : Bool) (m : Memory) : Memory :=
  (osPfnAlloc .user m).2.writeEntry table index (userPageEntry (osPfnAlloc .user m).1 write)

/-- After the first round the loop allocates before each write. -/
theorem fillPtes_succ (startPfn ctr remaining : ℕ) (m : Memory) :
    fillPtes t index startPfn write (ctr + 1) (remaining + 1) m =
      fillPtes t index startPfn write (ctr + 2) remaining (fillPte t (index + (ctr + 1)) write m) := rfl

/-- The first round uses the frame allocated before the loop. -/
theorem fillPtes_first (remaining : ℕ) (m : Memory) :
    fillPtes t index (osPfnAlloc .user m).1 write 0 (remaining + 1) (osPfnAlloc .user m).2 =
      fillPtes t index (osPfnAlloc .user m).1 write 1 remaining (fillPte t index write m) := rfl

theorem fillPtes_granted_of {startPfn : ℕ} (remaining ctr : ℕ) (m : Memory)
    (h : (fillPtes t index startPfn write (ctr + 1) remaining m).AllocsGranted) : m.AllocsGranted := by
  induction remaining generalizing ctr m with
  | zero => exact h
  | succ remaining ih =>
    rw [fillPtes_succ] at h
    have hround : (osPfnAlloc .user m).2.AllocsGranted :=
      ih (ctr + 1) (fillPte t (index + (ctr + 1)) write m) h
    exact hround.of_osPfnAlloc

/-- One round maps one page to a fresh frame. -/
theorem fillPte_spec {addr : ℕ} (h : Tables roots m) (hroot : roots root)
    (hslot : UserSlot (tablePath addr) (pteIndex addr))
    (htable : m.phys.tableAt root (tablePath addr) = some t)
    (hgranted : (fillPte t (pteIndex addr) write m).AllocsGranted) :
    MapsFresh roots m (fillPte t (pteIndex addr) write m) root addr (osPfnAlloc .user m).1
      (if write then 0x7 else 0x5) 0x7 ∧
      (fillPte t (pteIndex addr) write m).phys.tableAt root (tablePath addr) = some t := by
  have hgrant := osPfnAlloc_grant h.regions_ok hgranted
  have hext := Extends.of_grant h hgrant
  have hphys : (osPfnAlloc .user m).2.phys = m.phys := by
    rw [hgrant.phys_eq]
    rfl
  have htable₁ : (osPfnAlloc .user m).2.phys.tableAt root (tablePath addr) = some t := by
    rw [hphys, htable]
  have hlength : (tablePath addr).length ≤ 3 := by simp [tablePath]
  have hok : EntryOk (osPfnAlloc .user m).2.apicBase (tablePath addr) (pteIndex addr)
      (userPageEntry (osPfnAlloc .user m).1 write) := by
    rw [userPageEntry_eq]
    exact .userPage hslot rfl hgrant.usable (userFlags_page write)
  obtain ⟨hext₁, hentries⟩ := writePage_spec hext.tables hroot htable₁ hok
  constructor
  · refine ⟨⟨hext.trans hext₁, fun root' path' j hroot' hlength' ↦ ?_,
      fun root' path' j hroot' hlength' ↦ Or.inl ?_, hgrant.pmd_eq⟩, hgrant.not_allocated,
      (hgrant.allocated_iff _ _).2 (Or.inr ⟨rfl, rfl⟩), hgrant.usable⟩
    · rw [← userPageEntry_eq]
      exact (hentries root' path' j hroot' hlength'.le).trans (by rw [hphys])
    · have hother : ¬ (root' = root ∧ path' = tablePath addr ∧ j = pteIndex addr) := by
        rintro ⟨-, rfl, -⟩
        simp [tablePath] at hlength'
      exact (hentries root' path' j hroot' hlength'.le).trans (by rw [if_neg hother, hphys])
  · rw [fillPte, writeEntry_phys, PhysMem.tableAt,
      walk_setEntry hext.tables.separated hroot hlength htable₁ hroot hlength]
    · exact htable₁
    · rintro ⟨-, hlead⟩
      have hle := hlead.length_le
      simp at hle

/-- Pages mapped one after the other, each to a fresh frame. -/
inductive MapsAll (roots : ℕ → Prop) (root leafFlags : ℕ) : List ℕ → Memory → Memory → Prop
  | nil (m : Memory) : MapsAll roots root leafFlags [] m m
  | cons {addr pfn : ℕ} {addrs : List ℕ} {m m' m'' : Memory}
      (page : MapsFresh roots m m' root addr pfn leafFlags 0x7)
      (rest : MapsAll roots root leafFlags addrs m' m'') :
      MapsAll roots root leafFlags (addr :: addrs) m m''

/-- The pages `first, …, first + count - 1` counted from `start`. -/
def pagesFrom (start : ℕ) (first count : ℕ) : List ℕ :=
  (List.range' first count).map fun k ↦ start + k * pageSize

theorem MapsAll.tables {leafFlags : ℕ} {addrs : List ℕ} (h : MapsAll roots root leafFlags addrs m m')
    (htables : Tables roots m) :
    Tables roots m' := by
  induction h with
  | nil _ => exact htables
  | cons page _ ih => exact ih page.extend.tables

theorem tablePath_page (start k : ℕ) (hfit : pteIndex start + k < 512) :
    tablePath (start + k * pageSize) = tablePath start ∧
      pteIndex (start + k * pageSize) = pteIndex start + k := by
  rw [pteIndex_eq] at hfit
  simp only [tablePath, pgdIndex_eq, pudIndex_eq, pmdIndex_eq, pteIndex_eq, pageSize,
    List.cons.injEq, and_true]
  omega

theorem pagesFrom_succ (start first count : ℕ) :
    pagesFrom start first (count + 1) =
      (start + first * pageSize) :: pagesFrom start (first + 1) count := by
  simp [pagesFrom, List.range'_succ]

theorem fillPtes_spec {start startPfn : ℕ} (hroot : roots root)
    (hslot : UserSlot (tablePath start) (pteIndex start)) (remaining ctr : ℕ) (m : Memory)
    (h : Tables roots m) (htable : m.phys.tableAt root (tablePath start) = some t)
    (hfit : pteIndex start + (ctr + 1) + remaining ≤ 512)
    (hgranted : (fillPtes t (pteIndex start) startPfn write (ctr + 1) remaining m).AllocsGranted) :
    MapsAll roots root (if write then 0x7 else 0x5) (pagesFrom start (ctr + 1) remaining) m
      (fillPtes t (pteIndex start) startPfn write (ctr + 1) remaining m) := by
  induction remaining generalizing ctr m with
  | zero => exact .nil m
  | succ remaining ih =>
    rw [fillPtes_succ] at hgranted ⊢
    rw [pagesFrom_succ]
    obtain ⟨hpath, hindex⟩ := tablePath_page start (ctr + 1) (by omega)
    have hgranted₁ := fillPtes_granted_of remaining (ctr + 1) _ hgranted
    rw [← hindex] at hgranted₁
    have hslot' : UserSlot (tablePath (start + (ctr + 1) * pageSize))
        (pteIndex (start + (ctr + 1) * pageSize)) := by
      rw [hpath]
      exact hslot
    obtain ⟨hpage, htable'⟩ := fillPte_spec h hroot hslot' (by rw [hpath, htable]) hgranted₁
    rw [hpath] at htable'
    rw [hindex] at hpage htable'
    exact .cons hpage (ih (ctr + 1) _ hpage.extend.tables htable' (by omega) hgranted)

/-- `install_ptable_multi` maps its pages to fresh frames, one after the other. -/
theorem installPtableMulti_spec {start count : ℕ} (h : Tables roots m) (hroot : roots root)
    (hslot : UserSlot (tablePath start) (pteIndex start)) (hfit : pteIndex start + (count + 1) ≤ 512)
    (hgranted : (installPtableMulti root start (count + 1) write m).2.AllocsGranted) :
    MapsAll roots root (if write then 0x7 else 0x5) (pagesFrom start 0 (count + 1)) m
      (installPtableMulti root start (count + 1) write m).2 := by
  have hsplit : (installPtableMulti root start (count + 1) write m).2 =
      fillPtes (linkTables ptableStyle (tablePath start) root m).1 (pteIndex start)
        (osPfnAlloc .user (linkTables ptableStyle (tablePath start) root m).2).1 write 1 count
        (fillPte (linkTables ptableStyle (tablePath start) root m).1 (pteIndex start) write
          (linkTables ptableStyle (tablePath start) root m).2) := rfl
  rw [hsplit] at hgranted ⊢
  rw [pagesFrom_succ, Nat.zero_mul, Nat.add_zero]
  have hgranted₁ := fillPtes_granted_of count 0 _ hgranted
  have hpage := mapsFresh_of_steps ptableStyle_sound (Or.inr rfl) h hroot hslot (userFlags_page write)
    hgranted₁
  rw [← userPageEntry_eq] at hpage
  have htable : (fillPte (linkTables ptableStyle (tablePath start) root m).1 (pteIndex start) write
      (linkTables ptableStyle (tablePath start) root m).2).phys.tableAt root (tablePath start) =
        some (linkTables ptableStyle (tablePath start) root m).1 := by
    have hlinks := linkTables_spec ptableStyle_sound hroot (tablePath start) [] root m h
      PhysMem.tableAt_nil (by simp [tablePath]) (linkSlot_user hslot (Or.inr rfl))
      hgranted₁.of_osPfnAlloc
    exact (fillPte_spec hlinks.1.tables hroot hslot hlinks.2.1 hgranted₁).2
  exact .cons hpage (fillPtes_spec hroot hslot count 0 _ hpage.extend.tables htable (by omega) hgranted)

/-- The frame that `install_ptable_multi` returns is one of the user region. -/
theorem installPtableMulti_first {start count : ℕ} (h : Tables roots m) (hroot : roots root)
    (hslot : UserSlot (tablePath start) (pteIndex start))
    (hgranted : (installPtableMulti root start (count + 1) write m).2.AllocsGranted) :
    Region.user.Usable (installPtableMulti root start (count + 1) write m).1 := by
  have hgranted₁ : (fillPte (linkTables ptableStyle (tablePath start) root m).1 (pteIndex start) write
      (linkTables ptableStyle (tablePath start) root m).2).AllocsGranted := fillPtes_granted_of count 0 _ hgranted
  have hlinks := linkTables_spec ptableStyle_sound hroot (tablePath start) [] root m h
    PhysMem.tableAt_nil (by simp [tablePath]) (linkSlot_user hslot (Or.inr rfl)) hgranted₁.of_osPfnAlloc
  have hgrant : Grant .user _ _ _ := osPfnAlloc_grant hlinks.1.tables.regions_ok hgranted₁
  exact hgrant.usable

end Multi

/-- The pages of CODE below a root table. -/
def textTable : Memory := (installPtableMulti blankTable.1 codeStart codePages false blankTable.2).2

theorem tables_textTable : Tables (fun r ↦ False ∨ r = blankTable.1) textTable := by
  have hgranted : (installPtableMulti blankTable.1 codeStart (7 + 1) false blankTable.2).2.AllocsGranted := by
    unfold AllocsGranted
    decide +kernel
  exact (installPtableMulti_spec tables_blankTable (Or.inr rfl) (userSlot_page_iff.2 (by decide)) (by decide)
    hgranted).tables tables_blankTable

/-- And the first page of DATA, for walks that are computed. -/
def userTable : Memory :=
  (installPtable blankTable.1 ⟨dataStart, dataStart + pageSize, dataStart + pageSize, 7⟩ dataStart 0 textTable).2

theorem tables_userTable : Tables (fun r ↦ False ∨ r = blankTable.1) userTable := by
  have hgranted : userTable.AllocsGranted := by
    unfold AllocsGranted
    decide +kernel
  unfold userTable at hgranted ⊢
  exact (installPtable_fresh tables_textTable (Or.inr rfl) (userSlot_page_iff.2 (by decide)) (by decide) _
    hgranted).extend.tables

end GemOS
