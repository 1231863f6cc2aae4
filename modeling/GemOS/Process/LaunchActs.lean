import GemOS.Process.EventActs

/-!
# The first address space as acts

`exec_init` founds a space, takes a frame for each page of the binary, one for data and one for the stack, and then
loads the binary. There is no other space yet, so what the load writes beyond the frames of the code pages is nobody's
page.
-/

namespace GemOS

open Foundation TableForest Memory Kernel AddrSpaces

variable {intact : Fin maxProcesses → Prop} {roots : ℕ → Prop} {k : Kernel} {m m' : Memory} {live : Set ℕ}
  {R : Rights ℕ ℕ ℕ} {root t addr : ℕ} {write : Bool} {event : Event}

section Rows

variable (hsub : ∀ r ∈ live, roots r) (hroot : root ∈ live) (hmine : root ∉ R.theirs)

include hsub hroot hmine

/-- A page that was not mapped is mapped to a frame that was not in use. -/
theorem MapsFresh.raises {pfn flags linkFlags : ℕ} (hmaps : MapsFresh roots m m' root addr pfn flags linkFlags)
    (h : Tables roots m) (hflags : UserFlags flags) (haddr : UserAddr addr) (hread : addr < dataStart → flags = 0x5)
    (htakes : TakesFrame m m' pfn) (hvacant : m.phys.pageEntry root addr = 0) :
    Raises roots live R root [addr] m m' :=
  ⟨.of_mapsPage hmaps.toMapsPage hflags haddr hread (hsub root hroot),
    .single (hmaps.step h hsub hroot hmine hflags haddr hread htakes fun _ ↦ hvacant)⟩

/-- The loop of `install_ptable_multi` for read-only pages, by induction on the rounds that are left. -/
theorem fillPtes_raises {start startPfn : ℕ} (hslot : UserSlot (tablePath start) (pteIndex start)) (remaining ctr : ℕ)
    (m : Memory) (h : Tables roots m) (htable : m.phys.tableAt root (tablePath start) = some t)
    (hfit : pteIndex start + (ctr + 1) + remaining ≤ 512)
    (hnew : Unvisited root (pagesFrom start (ctr + 1) remaining) m)
    (hgranted : (fillPtes t (pteIndex start) startPfn false (ctr + 1) remaining m).AllocsGranted) :
    Raises roots live R root (pagesFrom start (ctr + 1) remaining) m
      (fillPtes t (pteIndex start) startPfn false (ctr + 1) remaining m) := by
  induction remaining generalizing ctr m with
  | zero => exact ⟨.refl h _, .refl⟩
  | succ remaining ih =>
    rw [fillPtes_succ] at hgranted ⊢
    rw [pagesFrom_succ] at hnew ⊢
    obtain ⟨hpath, hindex⟩ := tablePath_page start (ctr + 1) (by omega)
    have hgranted₁ := fillPtes_granted_of remaining (ctr + 1) _ hgranted
    have htakes : TakesFrame m (fillPte t (pteIndex start + (ctr + 1)) false m) (osPfnAlloc .user m).1 :=
      takesFrame_of_lists h.regions_ok hgranted₁ rfl rfl
    rw [← hindex] at hgranted₁
    have hslot' : UserSlot (tablePath (start + (ctr + 1) * pageSize)) (pteIndex (start + (ctr + 1) * pageSize)) := by
      rw [hpath]
      exact hslot
    obtain ⟨hpage, htable'⟩ := fillPte_spec h (hsub root hroot) hslot' (by rw [hpath, htable]) hgranted₁
    rw [hpath] at htable'
    rw [hindex] at hpage htable'
    obtain ⟨haddr, hvacant⟩ := hnew.head
    have hfirst : Raises roots live R root _ m _ :=
      hpage.raises hsub hroot hmine h (Or.inl rfl) haddr (fun _ ↦ rfl) htakes hvacant
    exact hfirst.append (ih (ctr + 1) _ hpage.extend.tables htable' (by omega) (hfirst.unvisited hnew) hgranted)

/-- `install_ptable_multi` for read-only pages. -/
theorem installPtableMulti_raises {start count : ℕ} (h : Tables roots m)
    (hslot : UserSlot (tablePath start) (pteIndex start)) (hfit : pteIndex start + (count + 1) ≤ 512)
    (hnew : Unvisited root (pagesFrom start 0 (count + 1)) m)
    (hgranted : (installPtableMulti root start (count + 1) false m).2.AllocsGranted) :
    Raises roots live R root (pagesFrom start 0 (count + 1)) m
      (installPtableMulti root start (count + 1) false m).2 := by
  have hsplit : (installPtableMulti root start (count + 1) false m).2 =
      fillPtes (linkTables ptableStyle (tablePath start) root m).1 (pteIndex start)
        (osPfnAlloc .user (linkTables ptableStyle (tablePath start) root m).2).1 false 1 count
        (fillPte (linkTables ptableStyle (tablePath start) root m).1 (pteIndex start) false
          (linkTables ptableStyle (tablePath start) root m).2) := rfl
  rw [hsplit] at hgranted ⊢
  rw [pagesFrom_succ, Nat.zero_mul, Nat.add_zero] at hnew ⊢
  obtain ⟨haddr, hvacant⟩ := hnew.head
  have hgranted₁ := fillPtes_granted_of count 0 _ hgranted
  have hpage := mapsFresh_of_steps ptableStyle_sound (Or.inr rfl) h (hsub root hroot) hslot
    (userFlags_page false) hgranted₁
  rw [← userPageEntry_eq] at hpage
  have htakes := takesFrame_linked ptableStyle_sound (Or.inr rfl) h (hsub root hroot) haddr hgranted₁
    (linkTables ptableStyle (tablePath start) root m).1 (pteIndex start)
    (userPageEntry (osPfnAlloc .user (linkTables ptableStyle (tablePath start) root m).2).1 false)
  have htable : (fillPte (linkTables ptableStyle (tablePath start) root m).1 (pteIndex start) false
      (linkTables ptableStyle (tablePath start) root m).2).phys.tableAt root (tablePath start) =
        some (linkTables ptableStyle (tablePath start) root m).1 := by
    have hlinks := linkTables_spec ptableStyle_sound (hsub root hroot) (tablePath start) [] root m h
      PhysMem.tableAt_nil (by simp [tablePath]) (linkSlot_user hslot (Or.inr rfl)) hgranted₁.of_osPfnAlloc
    exact (fillPte_spec hlinks.1.tables (hsub root hroot) hslot hlinks.2.1 hgranted₁).2
  have hfirst : Raises roots live R root _ m _ :=
    hpage.raises hsub hroot hmine h (Or.inl rfl) haddr (fun _ ↦ rfl) htakes hvacant
  exact hfirst.append (fillPtes_raises hsub hroot hmine hslot count 0 _ hpage.extend.tables htable (by omega)
    (hfirst.unvisited hnew) hgranted)

/-- `install_ptable` for a page of its own frame. -/
theorem installPtable_raises (h : Tables roots m) (haddr : UserAddr addr) (seg : MmSegment)
    (hread : addr < dataStart → (if seg.writable then 0x7 else 0x5) = 0x5) (hvacant : m.phys.pageEntry root addr = 0)
    (hgranted : (installPtable root seg addr 0 m).2.AllocsGranted) :
    Raises roots live R root [addr] m (installPtable root seg addr 0 m).2 :=
  (installPtable_fresh h (hsub root hroot) haddr.slot haddr.ne_zero seg hgranted).raises hsub hroot hmine h
    (userFlags_page _)
    haddr hread (installPtable_takes h (hsub root hroot) haddr seg hgranted) hvacant

end Rows

theorem unvisited_initPages (hclear : ∀ path i, m.phys.entry root path i = 0) : Unvisited root initPages m where
  user := by decide
  apart := by decide
  vacant _ _ := hclear _ _

/-- `exec_init` founds a space and fills it. -/
theorem buildInit_acts (h : Tables roots m) (hsub : ∀ r ∈ live, roots r) (hknown : ∀ r ∈ R.known, roots r)
    (old : MmSeg → MmSegment) (config : OsConfigs) (hgranted : (buildInit
      (initSegments old) config m).2.2.AllocsGranted) :
    Evolves sharedPages R (m.spaces live)
      ((buildInit (initSegments old) config m).2.2.spaces (insert (buildInit (initSegments old) config m).1 live)) := by
  rw [buildInit_eq] at hgranted ⊢
  simp only at hgranted ⊢
  have hbefore := hgranted.anti (le_installOsPts _ _ _)
  have hstages := initStages old h hbefore
  have hpgd : (osPfnAlloc .osPt m).2.AllocsGranted :=
    (hstages.text_granted.anti (le_installPtableMulti _ _ _ _ _)).anti (le_zeroFrame _ _)
  have hstrange : (osPfnAlloc .osPt m).1 ∉ R.known := fun hmem ↦ hstages.begun.fresh (hknown _ hmem)
  have hmine : (osPfnAlloc .osPt m).1 ∉ R.theirs := fun hmem ↦ hstrange (R.theirs_sub hmem)
  have hbegun : (initEmpty m).spaces (insert (osPfnAlloc .osPt m).1 live) =
      { m.spaces live with live := insert (osPfnAlloc .osPt m).1 live } :=
    spaces_begun h hsub (osPfnAlloc_grant h.regions_ok hpgd)
  have hfound : Step sharedPages R (m.spaces live) _ :=
    found_step m (fun hmem ↦ hstages.begun.fresh (hsub _ hmem)) hstrange
  rw [← hbegun] at hfound
  have hsub' : ∀ r ∈ insert (osPfnAlloc .osPt m).1 live, roots r ∨ r = (osPfnAlloc .osPt m).1 := insert_sub hsub
  have hroot := Set.mem_insert (osPfnAlloc .osPt m).1 live
  have hnew := unvisited_initPages fun path i ↦ hstages.clear path i
  have htext : Raises _ _ R (osPfnAlloc .osPt m).1 (pagesFrom codeStart 0 (7 + 1)) (initEmpty m)
      (initText m).2 :=
    installPtableMulti_raises hsub' hroot hmine hstages.begun.tables (UserAddr.slot (by decide)) (by decide) hnew.left
      hstages.text_granted
  have hnewData := htext.unvisited hnew
  have hdata : Raises _ _ R (osPfnAlloc .osPt m).1 [dataStart] (initText m).2 (initData old m) :=
    installPtable_raises hsub' hroot hmine htext.tables (by decide) (initSegments old .data)
      (fun hlow ↦ absurd hlow (lt_irrefl _)) hnewData.left.head.2 hstages.data_granted
  have hnewStack := hdata.unvisited hnewData
  have hstack : Raises _ _ R (osPfnAlloc .osPt m).1 [stackTopPage] (initData old m) (initStack old m) :=
    installPtable_raises hsub' hroot hmine hdata.tables (by decide) _
      (fun hlow ↦ absurd hlow (by decide)) hnewStack.head.2
      hstages.stack_granted
  obtain ⟨_, hlast⟩ := hstages.stack
  have hmapped := hlast.toMapsPage.mapped (Or.inr rfl) (Or.inr rfl)
  have hmaps := installOsPts_spec hstack.tables (Or.inr rfl) (PhysMem.top_ne_zero (by decide) hmapped) hgranted
  rw [spaces_mapsKernel hstack.tables hsub' hmaps (installOsPts_user _ config _)]
  exact (Relation.ReflTransGen.single hfound).trans (htext.acts.trans (hdata.acts.trans hstack.acts))

/-- Frames that are no tables are written while no space is known. -/
theorem spaces_load (h : Tables roots m) (hsub : ∀ r ∈ live, roots r) (hstrange : ∀ r ∈ live, r ∉ R.known)
    {phys : PhysMem} (hphys : ∀ pfn, m.phys.IsTable roots pfn → phys pfn = m.phys pfn) :
    Step sharedPages R (m.spaces live) (Memory.spaces live { m with phys := phys }) := by
  have htables : Tables roots { m with phys := phys } := h.congr h.regions_ok rfl hphys h.table_allocated
  have heq : Memory.spaces live { m with phys := phys } =
      { m.spaces live with data := (Memory.spaces live { m with phys := phys }).data } := by
    refine AddrSpaces.ext rfl ?_ rfl rfl
    funext r page
    by_cases hr : r ∈ live
    · rw [spaces_page _ hr]
      exact (h.userPage_eq_of_phys htables hphys (hsub r hr) page).trans (spaces_page _ hr page).symm
    · rw [spaces_page_of_not_mem _ hr]
      exact (spaces_page_of_not_mem _ hr page).symm
  rw [heq]
  exact .load hstrange

/-- The `init` command of the shell. -/
theorem launch_acts (h : InShell intact roots k) (args : InitArgs) (scratch : UserRegs)
    (hnone : ∀ r, r ∉ R.known) (hgranted : (k.launch args scratch).mem.AllocsGranted) :
    Acts R k (k.launch args scratch) := by
  obtain ⟨hmem, hcr3⟩ := launch_mem k args scratch
  obtain ⟨i, record, -, hnew, hctxs, hstate, -, hpgd, -⟩ := launch_finished h args scratch hgranted
  have hempty : liveRoots k.ctxs = ∅ := Set.eq_empty_iff_forall_notMem.2 fun r ⟨j, hlive, _⟩ ↦ h.none_live j hlive
  have hroots : liveRoots (k.launch args scratch).ctxs = insert (builtInit k).1 ∅ := by
    rw [hctxs, liveRoots_insert hnew.slot (h.none_live i) (by rw [hstate]; exact ProcessState.noConfusion), hempty,
      ← hpgd, hcr3]
  have hbuilt : (builtInit k).2.2.AllocsGranted := by
    rw [hmem] at hgranted
    exact hgranted
  have hgrant := osPfnAlloc_grant h.sound.tables.regions_ok (hbuilt.anti (le_buildInit _ _ _))
  have htables := (Carries.of_grant h.sound.tables hgrant).tables
  have hno : ∀ r ∈ (∅ : Set ℕ), roots r := fun r hr ↦ hr.elim
  have hstack : (osPfnAlloc .osPt k.mem).2.spaces ∅ = k.mem.spaces ∅ := spaces_grant h.sound.tables hno hgrant
  have hacts : Evolves sharedPages R _ _ :=
    buildInit_acts htables hno (fun r hr ↦ absurd hr (hnone r)) (slotMms k) k.config hbuilt
  obtain ⟨hfinished, htext⟩ := buildInit_finished htables (slotMms k) k.config hbuilt
  unfold Acts Kernel.spaces
  rw [hempty, hroots, hmem, ← hstack]
  exact hacts.tail (spaces_load hfinished.persists.tables (insert_sub hno) (fun r _ ↦ hnone r) fun _ hpfn ↦
    copyFrames_table hfinished.persists.tables htext hpfn)

/-- What the process that runs may do to the spaces at an event. -/
def rights (event : Event) (k : Kernel) : Rights ℕ ℕ ℕ where
  theirs := liveRoots k.ctxs \ {k.cr3}
  known := liveRoots k.ctxs
  theirs_sub := Set.sdiff_subset
  given := givenPages event k
  renewed := renewedPages event k
  stored := placeOf '' storedBytes event k
  tidy := GivesOwn event k
  strict := k.wp = true

/-- Every event is a history of acts of the process that runs, when its allocations are granted. -/
theorem acts_step (h : Inv intact k) (event : Event) (hgranted : (Kernel.step event k).mem.AllocsGranted) :
    Acts (rights event k) k (Kernel.step event k) := by
  obtain ⟨roots, hshell | ⟨i, huser⟩ | hswapper | ⟨hstopped, -⟩⟩ := h
  · have hnone : ∀ r, r ∉ (rights event k).known := fun r ⟨j, hlive, _⟩ ↦ hshell.none_live j hlive
    rcases step_shell hshell.mode_eq event with hsame | ⟨args, scratch, -, hlaunch⟩
    · rw [hsame]
    · rw [hlaunch] at hgranted ⊢
      exact launch_acts hshell args scratch hnone hgranted
  · have hobeys : Obeys (rights event k) (userProgram event) k :=
      userProgram_obeys huser (fun hmem ↦ hmem.2 rfl) huser.liveRoots_sub subset_rfl subset_rfl
        (fun addr haddr ↦ Set.mem_image_of_mem placeOf haddr) id id
    rw [step_user huser.mode_eq] at hgranted ⊢
    exact Spec.final (P := fun k' ↦ k'.mem.AllocsGranted → Acts (rights event k) k k') hobeys hgranted
  · rcases step_swapper hswapper.mode_eq event with ⟨-, hsame⟩ | ⟨-, htick⟩
    · rw [hsame]
    · rw [htick]
      exact swapperTick_acts hswapper
  · have hne : ∀ mode, ¬ Stopped mode → k.mode ≠ mode := fun mode hmode heq ↦ hmode (heq ▸ hstopped)
    rw [step_stopped (hne _ id) (hne _ id) (hne _ id)]

end GemOS
