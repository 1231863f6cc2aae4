import GemOS.Process.Persistence

/-!
# The pages of a forked process

`copy_mm` walks the pages of the parent and gives the child each one that it finds mapped: the frame
itself for CODE and RODATA, a copy in a fresh frame for DATA and STACK. `Populates` is the list of these
rounds. The page copies go through the identity window, and one that faults ends the walk early.
-/

namespace GemOS

open Foundation Memory Kernel

variable {roots : ℕ → Prop} {parent child : ℕ} {m m₁ m' : Memory} {addr : ℕ} {addrs : List ℕ}

/-- The child's table is given the parent's pages at these addresses, one after the other. -/
inductive Populates (roots : ℕ → Prop) (parent child : ℕ) : List ℕ → Memory → Memory → Prop
  | nil (m : Memory) : Populates roots parent child [] m m
  | skip {addr : ℕ} {addrs : List ℕ} {m m' : Memory} (unmapped : m.phys.pageEntry parent addr = 0)
      (rest : Populates roots parent child addrs m m') : Populates roots parent child (addr :: addrs) m m'
  | share {addr pfn flags : ℕ} {addrs : List ℕ} {m m₁ m' : Memory} (user : UserAddr addr)
      (usable : Region.user.Usable pfn) (flags_ok : UserFlags flags)
      (entry_eq : m.phys.pageEntry parent addr = makeEntry pfn flags)
      (maps : MapsPage roots m m₁ child addr pfn 0x5 0x7)
      (rest : Populates roots parent child addrs m₁ m') : Populates roots parent child (addr :: addrs) m m'
  | copy {addr pfn src flags leafFlags : ℕ} {addrs : List ℕ} {m m₁ m' : Memory} (user : UserAddr addr)
      (data : dataStart ≤ addr) (usable : Region.user.Usable src) (flags_ok : UserFlags flags)
      (leaf_ok : UserFlags leafFlags)
      (entry_eq : m.phys.pageEntry parent addr = makeEntry src flags)
      (window : inWindow src ∧ inWindow pfn)
      (maps : MapsFresh roots m m₁ child addr pfn leafFlags 0x7)
      (rest : Populates roots parent child addrs { m₁ with phys := m₁.phys.copy pfn src } m') :
      Populates roots parent child (addr :: addrs) m m'

/-- A frame of user data is overwritten. -/
theorem carries_copy (h : Tables roots m) {pfn : ℕ} (hpfn : Region.user.Usable pfn) (src : ℕ) :
    Carries roots m { m with phys := m.phys.copy pfn src } := by
  apply Carries.of_userData h
  intro frame hframe
  funext index
  unfold PhysMem.copy
  rw [if_neg]
  rintro rfl
  exact hframe hpfn

/-- The page that was mapped is mapped. -/
theorem MapsPage.mapped {pfn flags linkFlags root : ℕ} (h : MapsPage roots m m' root addr pfn flags linkFlags)
    (hroot : roots root) (hflags : UserFlags flags) : m'.phys.pageEntry root addr ≠ 0 := by
  rw [PhysMem.pageEntry, h.pages root _ _ hroot rfl, if_pos ⟨rfl, rfl, rfl⟩]
  exact hflags.tableFlags.ne_zero _

theorem carries_share {pfn linkFlags : ℕ} (h : MapsPage roots m m₁ child addr pfn 0x5 linkFlags)
    (haddr : UserAddr addr) :
    Carries roots m m₁ := .of_mapsPage h (Or.inl rfl) haddr fun _ ↦ rfl

/-- Page copies change no entry of a table. -/
theorem entry_copy (h : Tables roots m) {pfn src root : ℕ} (hpfn : Region.user.Usable pfn) (hroot : roots root)
    {path : List ℕ} (hlength : path.length ≤ 3) (i : ℕ) :
    (m.phys.copy pfn src).entry root path i = m.phys.entry root path i := by
  change ({ m with phys := m.phys.copy pfn src } : Memory).phys.entry root path i = _
  refine Tables.entry_congr (fun table htable ↦ ?_) hroot hlength i
  funext index
  refine if_neg ?_
  rintro rfl
  exact absurd ((h.table_usable _ htable).contains.eq hpfn.contains) (by decide)

/-- Memory changed, but below no root except `child`. -/
structure Fosters (roots : ℕ → Prop) (child : ℕ) (m m' : Memory) : Prop where
  carries : Carries roots m m'
  others : ∀ r path i, roots r → r ≠ child → path.length ≤ 3 → m'.phys.entry r path i = m.phys.entry r path i

namespace Fosters

theorem refl (h : Tables roots m) : Fosters roots child m m := ⟨Carries.refl h, fun _ _ _ _ _ _ ↦ rfl⟩

theorem trans (first : Fosters roots child m m₁) (second : Fosters roots child m₁ m') : Fosters roots child m m' where
  carries := first.carries.trans second.carries
  others r path i hr hne hlength :=
    (second.others r path i hr hne hlength).trans (first.others r path i hr hne hlength)

theorem of_mapsPage {pfn flags linkFlags : ℕ} (hmaps : MapsPage roots m m' child addr pfn flags linkFlags)
    (hcarries : Carries roots m m') : Fosters roots child m m' where
  carries := hcarries
  others r path i hr hne hlength := by
    rcases hlength.lt_or_eq with hshort | hlast
    · exact (hmaps.links r path i hr hshort).resolve_right fun hnew ↦ hne hnew.2.1
    · rw [hmaps.pages r path i hr hlast, if_neg fun hand ↦ hne hand.1]

theorem of_copy (h : Tables roots m) {pfn : ℕ} (hpfn : Region.user.Usable pfn) (src : ℕ) :
    Fosters roots child m { m with phys := m.phys.copy pfn src } where
  carries := carries_copy h hpfn src
  others _ _ i hr _ hlength := entry_copy h hpfn hr hlength i

end Fosters

namespace Populates

theorem append {addrs' : List ℕ} (first : Populates roots parent child addrs m m₁)
    (second : Populates roots parent child addrs' m₁ m') : Populates roots parent child (addrs ++ addrs') m m' := by
  induction first with
  | nil => exact second
  | skip unmapped _ ih => exact .skip unmapped (ih second)
  | share user usable flags_ok entry_eq maps _ ih => exact .share user usable flags_ok entry_eq maps (ih second)
  | copy user data usable flags_ok leaf_ok entry_eq window maps _ ih =>
    exact .copy user data usable flags_ok leaf_ok entry_eq window maps (ih second)

/-- Only the child's table changes, by induction on the pages. -/
theorem fosters (h : Populates roots parent child addrs m m') (htables : Tables roots m) :
    Fosters roots child m m' := by
  induction h with
  | nil => exact .refl htables
  | skip _ _ ih => exact ih htables
  | share user _ _ _ maps _ ih =>
    have hfirst := Fosters.of_mapsPage maps (carries_share maps user)
    exact hfirst.trans (ih hfirst.carries.tables)
  | @copy _ _ src _ _ _ _ _ _ user data _ _ leaf_ok _ _ maps _ ih =>
    have hfirst := Fosters.of_mapsPage maps.toMapsPage
      (.of_mapsPage maps.toMapsPage leaf_ok user fun hlow ↦ absurd data (not_le.2 hlow))
    have hcopied := hfirst.trans (.of_copy hfirst.carries.tables maps.usable src)
    exact hcopied.trans (ih hcopied.carries.tables)

theorem carries (h : Populates roots parent child addrs m m') (htables : Tables roots m) : Carries roots m m' :=
  (h.fosters htables).carries

/-- The child has no pages but those of the walk. -/
theorem pages (h : Populates roots parent child addrs m m') (htables : Tables roots m) (hchild : roots child)
    (hmapped : m'.phys.pageEntry child addr ≠ 0) :
    m.phys.pageEntry child addr ≠ 0 ∨
      ∃ other ∈ addrs, tablePath addr = tablePath other ∧ pteIndex addr = pteIndex other := by
  induction h with
  | nil => exact Or.inl hmapped
  | skip _ _ ih => exact (ih htables hmapped).imp id fun ⟨other, hother, hpage⟩ ↦
    ⟨other, List.mem_cons_of_mem _ hother, hpage⟩
  | share user _ _ _ maps _ ih =>
    rcases ih maps.extend.tables hmapped with hold | ⟨other, hother, hpage⟩
    · rw [PhysMem.pageEntry, maps.pages child _ _ hchild rfl] at hold
      split at hold
      · rename_i hhere
        exact Or.inr ⟨_, List.mem_cons_self .., hhere.2⟩
      · exact Or.inl hold
    · exact Or.inr ⟨other, List.mem_cons_of_mem _ hother, hpage⟩
  | @copy _ _ src _ _ _ _ _ _ user data _ _ leaf_ok _ _ maps _ ih =>
    have htables₁ := maps.extend.tables
    rcases ih (carries_copy htables₁ maps.usable src).tables hmapped with hold | ⟨other, hother, hpage⟩
    · rw [PhysMem.pageEntry, entry_copy htables₁ maps.usable hchild (by simp [tablePath]),
        maps.pages child _ _ hchild rfl]
        at hold
      split at hold
      · rename_i hhere
        exact Or.inr ⟨_, List.mem_cons_self .., hhere.2⟩
      · exact Or.inl hold
    · exact Or.inr ⟨other, List.mem_cons_of_mem _ hother, hpage⟩

/-- A page that every process needs comes to the child when the parent has it. -/
theorem anchor (h : Populates roots parent child addrs m m') (htables : Tables roots m) (hparent : roots parent)
    (hchild : roots child) (haddr : addr ∈ addrs) (hanchor : Anchor addr)
    (hmapped : m.phys.pageEntry parent addr ≠ 0) : m'.phys.pageEntry child addr ≠ 0 := by
  induction h with
  | nil => exact absurd haddr List.not_mem_nil
  | skip unmapped _ ih =>
    rcases List.mem_cons.1 haddr with rfl | htail
    · exact absurd unmapped hmapped
    · exact ih htables htail hmapped
  | share user _ _ _ maps rest ih =>
    have hfirst := carries_share maps user
    rcases List.mem_cons.1 haddr with rfl | htail
    · exact (rest.carries hfirst.tables).anchors child _ hchild hanchor (maps.mapped hchild (Or.inl rfl))
    · exact ih hfirst.tables htail (hfirst.anchors parent _ hparent hanchor hmapped)
  | @copy _ _ src _ _ _ _ _ _ user data _ _ leaf_ok _ _ maps rest ih =>
    have hfirst := Carries.of_mapsPage maps.toMapsPage leaf_ok user fun hlow ↦ absurd data (not_le.2 hlow)
    have hcopy := carries_copy hfirst.tables maps.usable src
    have hcopied := hfirst.trans hcopy
    rcases List.mem_cons.1 haddr with rfl | htail
    · apply (rest.carries hcopied.tables).anchors child _ hchild hanchor
      exact hcopy.anchors child _ hchild hanchor (maps.toMapsPage.mapped hchild leaf_ok)
    · exact ih hcopied.tables htail (hcopied.anchors parent _ hparent hanchor hmapped)

end Populates

theorem UserAddr.ne_zero (h : UserAddr addr) : addr ≠ 0 := by
  have hlow := h.1
  omega

/-- The frame that `copy_mm` reads out of an entry of the parent. -/
theorem frame_of_pte {e pfn flags : ℕ} (hpfn : Region.user.Usable pfn) (hflags : UserFlags flags)
    (he : e = makeEntry pfn flags) : (e &&& flagMask) >>> pageShift = pfn := by
  rw [he, frame_flagMask_makeEntry (hpfn.contains.lt.trans (by norm_num)) hflags.tableFlags]

/-- The CODE and RODATA loops, by induction on the pages. -/
theorem sharePages_spec (h : Tables roots m) (hparent : roots parent) (hchild : roots child) {seg : MmSegment}
    (hwrite : seg.writable = false) (vaddrs : List ℕ) (huser : ∀ vaddr ∈ vaddrs, UserAddr vaddr)
    (hgranted : (sharePages parent child seg vaddrs m).AllocsGranted) :
    Populates roots parent child vaddrs m (sharePages parent child seg vaddrs m) := by
  induction vaddrs generalizing m with
  | nil => exact .nil m
  | cons vaddr vaddrs ih =>
    have haddr := huser vaddr (List.mem_cons_self ..)
    have hrest := fun other (hmem : other ∈ vaddrs) ↦ huser other (List.mem_cons_of_mem _ hmem)
    have hgranted₁ : (sharePage parent child seg vaddr m).AllocsGranted := hgranted.anti (le_sharePages _ _ _ _ _)
    rw [sharePages] at hgranted ⊢
    rcases h.page_cases hparent haddr.slot with
      ⟨hzero, hnone, -⟩ | ⟨pt, pfn, flags, htable, husable, hflags, hentry, hsome, -⟩
    · have hsame : sharePage parent child seg vaddr m = m := by rw [sharePage, hnone]
      rw [hsame] at hgranted ⊢
      exact .skip hzero (ih h hrest hgranted)
    · have hframe : ((m.phys pt (pteIndex vaddr) &&& flagMask) >>> pageShift) % 2 ^ 32 = pfn := by
        rw [frame_of_pte husable hflags ((PhysMem.entry_of_tableAt htable _).symm.trans hentry),
          Nat.mod_eq_of_lt (husable.contains.lt.trans (by norm_num))]
      have hshare : sharePage parent child seg vaddr m = (installPtable child seg vaddr pfn m).2 := by
        rw [sharePage, hsome, ← hframe]
      rw [hshare] at hgranted hgranted₁ ⊢
      have hmaps := installPtable_given h hchild haddr.slot haddr.ne_zero seg husable hgranted₁
      rw [hwrite] at hmaps
      exact .share haddr husable hflags hentry hmaps (ih hmaps.extend.tables hrest hgranted)

/-- Mapping a page below another root leaves the tables of this one where they are. -/
theorem MapsPage.tableAt_other {root pfn flags linkFlags : ℕ} {target : ℕ}
    (h : MapsPage roots m m' root target pfn flags linkFlags) (hparent : roots parent) (hne : parent ≠ root) :
    m'.phys.tableAt parent (tablePath addr) = m.phys.tableAt parent (tablePath addr) := by
  have hentry : m'.phys.entry parent [pgdIndex addr, pudIndex addr] (pmdIndex addr) =
      m.phys.entry parent [pgdIndex addr, pudIndex addr] (pmdIndex addr) := by
    rcases h.links parent [pgdIndex addr, pudIndex addr] (pmdIndex addr) hparent (by simp) with hsame | ⟨-, hroot, -⟩
    · exact hsame
    · exact absurd hroot hne
  have hlast : ∀ phys : PhysMem, phys.tableAt parent ([pgdIndex addr, pudIndex addr] ++ [pmdIndex addr]) =
      tableOf (phys.entry parent [pgdIndex addr, pudIndex addr] (pmdIndex addr)) := fun phys ↦
    PhysMem.tableAt_concat_entry _
  calc
    m'.phys.tableAt parent (tablePath addr) =
        tableOf (m'.phys.entry parent [pgdIndex addr, pudIndex addr] (pmdIndex addr)) := hlast m'.phys
    _ = tableOf (m.phys.entry parent [pgdIndex addr, pudIndex addr] (pmdIndex addr)) := by rw [hentry]
    _ = m.phys.tableAt parent (tablePath addr) := (hlast m.phys).symm

/-- The page copy of a fork faulted when memory was `m`. -/
structure CopyFault (roots : ℕ → Prop) (child : ℕ) (k : Kernel) (m : Memory) (k' : Kernel) : Prop where
  le : k.mem ≤ m
  fosters : m.AllocsGranted → Fosters roots child k.mem m
  departs : Departs { k with mem := m } k'

/-- Where the DATA and STACK loops may end: with these pages of the child populated, or at a copy that
faults. -/
abbrev Copies (roots : ℕ → Prop) (child : ℕ) (vaddrs : List ℕ) (p : Prog Kernel Unit) (k : Kernel) : Prop :=
  Spec p k
    (fun _ k' ↦ ∃ m, k' = { k with mem := m } ∧ k.mem ≤ m ∧
      (m.AllocsGranted → Populates roots k.ctx.pgd child vaddrs k.mem m))
    fun k' ↦ ∃ m, CopyFault roots child k m k'

/-- A frame is no page of a process for the fault handler. -/
theorem ContextOk.not_demandPaged {ctx : ExecContext} (h : ContextOk ctx) {pfn : ℕ} (hpfn : pfn < 0x20000)
    (errorCode : ℕ) : demandPaged ctx (pfn <<< pageShift) errorCode = false := by
  rw [← Bool.not_eq_true]
  intro hdemand
  have hlow := (h.userAddr_of_demand hdemand).1
  rw [Nat.shiftLeft_eq, pageShift] at hlow
  omega

theorem copyPage_copies {k : Kernel} (h : k.mem.AllocsGranted → Tables roots k.mem) (hparent : roots k.ctx.pgd)
    (hchild : roots child) (hne : k.mem.AllocsGranted → k.ctx.pgd ≠ child) (seg : MmSegment) (haddr : UserAddr addr)
    (hdata : dataStart ≤ addr) : Copies roots child [addr] (copyPage child seg addr) k := by
  unfold copyPage
  apply Spec.read_bind
  cases hsome : getUserPte k.mem.phys k.ctx.pgd addr with
  | none =>
    refine Spec.pure ⟨k.mem, rfl, le_rfl, fun hgranted ↦ .skip ?_ (.nil _)⟩
    rcases (h hgranted).page_cases hparent haddr.slot with ⟨hzero, -, -⟩ | ⟨_, _, _, -, -, -, -, hpte, -⟩
    · exact hzero
    · exact absurd (hsome.symm.trans hpte) (by simp)
  | some slot =>
    obtain ⟨pt, index⟩ := slot
    apply Spec.call_bind
    apply Spec.read_bind
    have hle := le_installPtable child seg addr 0 k.mem
    have hmaps := fun hgranted ↦
      installPtable_fresh (h (AllocsGranted.anti hle hgranted)) hchild haddr.slot haddr.ne_zero seg hgranted
    change Spec (copyFrame (installPtable child seg addr 0 k.mem).1
      (((installPtable child seg addr 0 k.mem).2.phys pt index &&& flagMask) >>> pageShift))
      { k with mem := (installPtable child seg addr 0 k.mem).2 } _ _
    generalize (installPtable child seg addr 0 k.mem).1 = pfn at *
    generalize (installPtable child seg addr 0 k.mem).2 = m₁ at *
    -- the entry of the parent is where it was before the child's page was mapped
    have hsource : m₁.AllocsGranted → ∃ flags, UserFlags flags ∧
        Region.user.Usable ((m₁.phys pt index &&& flagMask) >>> pageShift) ∧
        k.mem.phys.pageEntry k.ctx.pgd addr = makeEntry ((m₁.phys pt index &&& flagMask) >>> pageShift) flags := by
      intro hgranted
      have htables := h (hgranted.anti hle)
      rcases htables.page_cases hparent haddr.slot with
        ⟨-, hnone, -⟩ | ⟨pt', src, flags, htable, husable, hflags, hentry, hpte, -⟩
      · exact absurd (hsome.symm.trans hnone) (by simp)
      · obtain ⟨rfl, rfl⟩ := Prod.mk.inj (Option.some.inj (hsome.symm.trans hpte))
        have hpage : m₁.phys pt (pteIndex addr) = makeEntry src flags := by
          have hother := hne (hgranted.anti hle)
          have htable₁ := ((hmaps hgranted).tableAt_other hparent hother).trans htable
          rw [← PhysMem.entry_of_tableAt htable₁, (hmaps hgranted).pages _ _ _ hparent rfl,
            if_neg fun hand ↦ hother hand.1]
          exact hentry
        rw [frame_of_pte husable hflags hpage]
        exact ⟨flags, hflags, husable, hentry⟩
    generalize (m₁.phys pt index &&& flagMask) >>> pageShift = src at *
    have hfosters : m₁.AllocsGranted → Fosters roots child k.mem m₁ := fun hgranted ↦
      .of_mapsPage (hmaps hgranted).toMapsPage (.of_mapsPage (hmaps hgranted).toMapsPage (userFlags_page _) haddr
        fun hlow ↦ absurd hdata (not_le.2 hlow))
    refine (copyFrame_spec _ _ _).mono ?_ ?_
    · rintro _ _ ⟨hsrc, hdst, rfl⟩
      refine ⟨_, rfl, hle, fun hgranted ↦ ?_⟩
      obtain ⟨flags, hflags, husable, hentry⟩ := hsource hgranted
      exact .copy haddr hdata husable hflags (userFlags_page _) hentry ⟨hsrc, hdst⟩ (hmaps hgranted) (.nil _)
    · rintro k' ⟨-, hdeparts⟩
      exact ⟨m₁, hle, hfosters, hdeparts⟩

/-- The DATA and STACK loops, by induction on the pages. -/
theorem copyPages_copies {k : Kernel} (h : k.mem.AllocsGranted → Tables roots k.mem) (hparent : roots k.ctx.pgd)
    (hchild : roots child) (hne : k.mem.AllocsGranted → k.ctx.pgd ≠ child) (seg : MmSegment) (vaddrs : List ℕ)
    (huser : ∀ vaddr ∈ vaddrs, UserAddr vaddr ∧ dataStart ≤ vaddr) :
      Copies roots child vaddrs (copyPages child seg vaddrs) k := by
  induction vaddrs generalizing k with
  | nil => exact Spec.pure ⟨k.mem, rfl, le_rfl, fun _ ↦ .nil _⟩
  | cons vaddr vaddrs ih =>
    have hfirst := copyPage_copies h hparent hchild hne seg (huser vaddr (List.mem_cons_self ..)).1
      (huser vaddr (List.mem_cons_self ..)).2
    unfold copyPages
    refine hfirst.bind ?_
    rintro _ _ ⟨m₁, rfl, hle₁, hpopulates₁⟩
    have hfosters₁ := fun hgranted ↦ (hpopulates₁ hgranted).fosters (h (AllocsGranted.anti hle₁ hgranted))
    have hrest := ih (k := { k with mem := m₁ }) (fun hgranted ↦ (hfosters₁ hgranted).carries.tables) hparent
      (fun hgranted ↦ hne (AllocsGranted.anti hle₁ hgranted)) fun other hmem ↦ huser other (List.mem_cons_of_mem _ hmem)
    refine hrest.mono ?_ ?_
    · rintro _ _ ⟨m₂, rfl, hle₂, hpopulates₂⟩
      refine ⟨m₂, rfl, hle₁.trans hle₂, fun hgranted ↦ ?_⟩
      exact (hpopulates₁ (hgranted.anti hle₂)).append (hpopulates₂ hgranted)
    · rintro k' ⟨m₂, hfault⟩
      refine ⟨m₂, hle₁.trans hfault.le, fun hgranted ↦ ?_, hfault.departs⟩
      exact (hfosters₁ (hgranted.anti hfault.le)).trans (hfault.fosters hgranted)

end GemOS
