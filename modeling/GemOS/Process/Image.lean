import GemOS.Paging.OtherFrames
import GemOS.Process.Teardown

/-!
# The image of init

`exec_init` maps the eight code pages to the frames that eight calls of `os_pfn_alloc` return, and copies the binary to
eight frames in a row from the first of them on. Whatever memory holds, the code pages hold the binary and no frame of
anyone else is written exactly when the eight frames are in a row; earlier processes can leave the bitmap so that they
are not.
-/

namespace GemOS

open Foundation TableForest Memory Kernel

variable {roots : ℕ → Prop} {m m' : Memory} {root t : ℕ} {write : Bool}

/-- The frame that the `n`-th of the next calls of `get_free_page` returns. -/
def PageList.upcoming (pgl : PageList) : ℕ → ℕ
  | 0 => pgl.getFreePage.1
  | n + 1 => pgl.getFreePage.2.upcoming n

theorem osPfnAlloc_upcoming {region : Region} (hgranted : (osPfnAlloc region m).2.AllocsGranted) :
    (osPfnAlloc region m).1 = (m.pglists region).upcoming 0 ∧
      (osPfnAlloc region m).2.pglists region = (m.pglists region).getFreePage.2 := by
  by_cases hzero : (m.pglists region).freePages = 0
  · rw [osPfnAlloc_of_zero hzero] at hgranted
    exact Bool.noConfusion (hgranted _ (List.mem_cons_self ..))
  · rw [osPfnAlloc_of_pos hzero]
    exact ⟨rfl, Function.update_self ..⟩

theorem osPfnAlloc_user_list (m : Memory) : (osPfnAlloc .osPt m).2.pglists .user = m.pglists .user := by
  by_cases hzero : (m.pglists .osPt).freePages = 0
  · rw [osPfnAlloc_of_zero hzero]
  · rw [osPfnAlloc_of_pos hzero]
    exact Function.update_of_ne (show Region.user ≠ .osPt by decide) (m.pglists .osPt).getFreePage.2 m.pglists

/-- Linking tables takes no frame of the user region. -/
theorem linkTables_user (style : TableStyle) (path : List ℕ) (t : ℕ) (m : Memory) :
    (linkTables style path t m).2.pglists .user = m.pglists .user := by
  induction path generalizing t m with
  | nil => rfl
  | cons i path ih =>
    refine (ih _ _).trans ?_
    unfold linkTable
    split
    · rfl
    · simp only
      split <;> exact osPfnAlloc_user_list m

/-- Pages mapped one after the other leave all others alone. -/
theorem MapsAll.other {flags : ℕ} {addrs : List ℕ} (h : MapsAll roots root flags addrs m m') {r addr : ℕ} (hr : roots r)
    (hother : ∀ a ∈ addrs, ¬(tablePath addr = tablePath a ∧ pteIndex addr = pteIndex a)) :
    m'.phys.pageEntry r addr = m.phys.pageEntry r addr := by
  induction h with
  | nil => rfl
  | cons page _ ih =>
    obtain ⟨hfirst, hrest⟩ := List.forall_mem_cons.1 hother
    rw [ih hrest]
    exact (page.pages r _ _ hr rfl).trans (if_neg fun hand ↦ hfirst hand.2)

theorem MapsAll.still_allocated {flags : ℕ} {addrs : List ℕ} (h : MapsAll roots root flags addrs m m') {region : Region}
    {pfn : ℕ} (hpfn : m.allocated region pfn = true) : m'.allocated region pfn = true := by
  induction h with
  | nil => exact hpfn
  | cons page _ ih => exact ih (page.extend.still_allocated region pfn hpfn)

theorem MapsAll.phys_eq {flags : ℕ} {addrs : List ℕ} (h : MapsAll roots root flags addrs m m') {frame : ℕ}
    (hframe : ¬Region.osPt.Contains frame) : m'.phys frame = m.phys frame := by
  induction h with
  | nil => rfl
  | cons page _ ih => exact ih.trans (page.extend.phys_eq frame hframe)

/-- A row of pages was mapped to the upcoming frames, none of which was in use. -/
structure MapsRow (root flags start first count : ℕ) (m m' : Memory) : Prop where
  entry : ∀ i < count, m'.phys.pageEntry root (start + (first + i) * pageSize) =
    makeEntry ((m.pglists .user).upcoming i) flags
  fresh : ∀ i < count, m.allocated .user ((m.pglists .user).upcoming i) = false
  marked : ∀ i < count, m'.allocated .user ((m.pglists .user).upcoming i) = true

/-- One page before the row. -/
theorem MapsRow.cons {flags start first count : ℕ} {m₁ : Memory} (hroot : roots root)
    (hfit : pteIndex start + first + count < 512)
    (hpage : MapsFresh roots m m₁ root (start + first * pageSize) ((m.pglists .user).upcoming 0) flags 0x7)
    (hlist : m₁.pglists .user = (m.pglists .user).getFreePage.2)
    (hall : MapsAll roots root flags (pagesFrom start (first + 1) count) m₁ m')
    (hrow : MapsRow root flags start (first + 1) count m₁ m') : MapsRow root flags start first (count + 1) m m' := by
  refine ⟨fun i hi ↦ ?_, fun i hi ↦ ?_, fun i hi ↦ ?_⟩
  · cases i with
    | zero =>
      rw [Nat.add_zero, hall.other hroot fun a ha ↦ ?_]
      · exact (hpage.pages root _ _ hroot rfl).trans (if_pos ⟨rfl, rfl, rfl⟩)
      · simp only [pagesFrom, List.mem_map, List.mem_range'_1] at ha
        obtain ⟨n, hn, rfl⟩ := ha
        rw [(tablePath_page start first (by omega)).2, (tablePath_page start n (by omega)).2]
        omega
    | succ i =>
      have hentry := hrow.entry i (by omega)
      rw [hlist, show first + 1 + i = first + (i + 1) by omega] at hentry
      exact hentry
  · cases i with
    | zero => exact hpage.fresh
    | succ i =>
      have hfresh := hrow.fresh i (by omega)
      rw [hlist] at hfresh
      by_contra hset
      have hset' := hpage.extend.still_allocated .user _ (by simpa using hset)
      rw [PageList.upcoming, hfresh] at hset'
      exact Bool.noConfusion hset'
  · cases i with
    | zero => exact hall.still_allocated hpage.marked
    | succ i =>
      have hmarked := hrow.marked i (by omega)
      rw [hlist] at hmarked
      exact hmarked

/-- The rounds of the loop of `install_ptable_multi`, by induction on those that are left. -/
theorem fillPtes_row {start startPfn : ℕ} (hroot : roots root)
    (hslot : UserSlot (tablePath start) (pteIndex start)) (remaining ctr : ℕ) (m : Memory)
    (h : Tables roots m) (htable : m.phys.tableAt root (tablePath start) = some t)
    (hfit : pteIndex start + (ctr + 1) + remaining ≤ 512)
    (hgranted : (fillPtes t (pteIndex start) startPfn write (ctr + 1) remaining m).AllocsGranted) :
    MapsRow root (if write then 0x7 else 0x5) start (ctr + 1) remaining m
      (fillPtes t (pteIndex start) startPfn write (ctr + 1) remaining m) := by
  induction remaining generalizing ctr m with
  | zero => exact ⟨fun i hi ↦ absurd hi (Nat.not_lt_zero i), fun i hi ↦ absurd hi (Nat.not_lt_zero i),
      fun i hi ↦ absurd hi (Nat.not_lt_zero i)⟩
  | succ remaining ih =>
    rw [fillPtes_succ] at hgranted ⊢
    obtain ⟨hpath, hindex⟩ := tablePath_page start (ctr + 1) (by omega)
    have hgranted₁ := fillPtes_granted_of remaining (ctr + 1) _ hgranted
    obtain ⟨hfirst, hlist⟩ : (osPfnAlloc .user m).1 = (m.pglists .user).upcoming 0 ∧
        (osPfnAlloc .user m).2.pglists .user = (m.pglists .user).getFreePage.2 := osPfnAlloc_upcoming hgranted₁
    rw [← hindex] at hgranted₁
    have hslot' : UserSlot (tablePath (start + (ctr + 1) * pageSize)) (pteIndex (start + (ctr + 1) * pageSize)) := by
      rw [hpath]
      exact hslot
    obtain ⟨hpage, htable'⟩ := fillPte_spec h hroot hslot' (by rw [hpath, htable]) hgranted₁
    rw [hpath] at htable'
    rw [hindex] at hpage htable'
    rw [hfirst] at hpage
    refine .cons hroot (by omega) hpage hlist ?_ ?_
    · exact fillPtes_spec hroot hslot remaining (ctr + 1) _ hpage.extend.tables htable' (by omega) hgranted
    · exact ih (ctr + 1) _ hpage.extend.tables htable' (by omega) hgranted

/-- `install_ptable_multi` maps its pages to the upcoming frames, and returns the first of them. -/
theorem installPtableMulti_row {start count : ℕ} (h : Tables roots m) (hroot : roots root)
    (hslot : UserSlot (tablePath start) (pteIndex start)) (hfit : pteIndex start + (count + 1) ≤ 512)
    (hgranted : (installPtableMulti root start (count + 1) write m).2.AllocsGranted) :
    (installPtableMulti root start (count + 1) write m).1 = (m.pglists .user).upcoming 0 ∧
      MapsRow root (if write then 0x7 else 0x5) start 0 (count + 1) m
        (installPtableMulti root start (count + 1) write m).2 := by
  have hlinks := fun hlinked ↦ linkTables_spec ptableStyle_sound hroot (tablePath start) [] root m h PhysMem.tableAt_nil
    (by simp [tablePath]) (linkSlot_user hslot (Or.inr rfl)) hlinked
  have huser := linkTables_user ptableStyle (tablePath start) root m
  unfold installPtableMulti at hgranted ⊢
  simp only at hgranted ⊢
  rw [fillPtes_first] at hgranted ⊢
  have hgranted₁ := fillPtes_granted_of count 0 _ hgranted
  obtain ⟨hext, htable, -⟩ := hlinks hgranted₁.of_osPfnAlloc
  have hpage := mapsFresh_of_steps ptableStyle_sound (Or.inr rfl) h hroot hslot (userFlags_page write) hgranted₁
  rw [← userPageEntry_eq] at hpage
  change MapsFresh roots m (fillPte (linkTables ptableStyle (tablePath start) root m).1 (pteIndex start) write
    (linkTables ptableStyle (tablePath start) root m).2) root start _ _ _ at hpage
  generalize linkTables ptableStyle (tablePath start) root m = linked at *
  obtain ⟨hfirst, hlist⟩ : (osPfnAlloc .user linked.2).1 = (linked.2.pglists .user).upcoming 0 ∧
      (osPfnAlloc .user linked.2).2.pglists .user = (linked.2.pglists .user).getFreePage.2 :=
        osPfnAlloc_upcoming hgranted₁
  rw [huser] at hfirst hlist
  obtain ⟨-, htable'⟩ := fillPte_spec hext.tables hroot hslot htable hgranted₁
  refine ⟨hfirst, ?_⟩
  rw [hfirst] at hpage
  replace hlist : (fillPte linked.1 (pteIndex start) write linked.2).pglists .user = _ := hlist
  generalize fillPte linked.1 (pteIndex start) write linked.2 = m₁ at *
  have hrest := fillPtes_spec hroot hslot count 0 m₁ hpage.extend.tables htable' (by omega) hgranted
  refine MapsRow.cons hroot (by omega) ?_ hlist hrest ?_
  · rw [Nat.zero_mul, Nat.add_zero]
    exact hpage
  · exact fillPtes_row hroot hslot count 0 _ hpage.extend.tables htable' (by omega) hgranted

/-- The row stays when the page table is finished, and it was already fresh when it was begun. -/
theorem MapsRow.within {flags start first count : ℕ} {m₀ m₁ : Memory} (h : MapsRow root flags start first count m m₁)
    (hlist : m.pglists .user = m₀.pglists .user)
    (hentry : ∀ i < count, m'.phys.pageEntry root (start + (first + i) * pageSize) =
      m₁.phys.pageEntry root (start + (first + i) * pageSize))
    (hmarked : ∀ pfn, m₁.allocated .user pfn = true → m'.allocated .user pfn = true) :
    MapsRow root flags start first count m₀ m' := by
  refine ⟨fun i hi ↦ (hentry i hi).trans ?_, fun i hi ↦ ?_, fun i hi ↦ hmarked _ ?_⟩
  · rw [← hlist]
    exact h.entry i hi
  · have hfresh := h.fresh i hi
    unfold allocated at hfresh ⊢
    rwa [hlist] at hfresh
  · rw [← hlist]
    exact h.marked i hi

theorem initEmpty_user (m : Memory) : (initEmpty m).pglists .user = m.pglists .user := osPfnAlloc_user_list m

/-- The code pages of `exec_init`, and the frames outside the page-table region. -/
theorem buildInit_row (h : Tables roots m) (old : MmSeg → MmSegment) (config : OsConfigs)
    (hgranted : (buildInit (initSegments old) config m).2.2.AllocsGranted) :
    (buildInit (initSegments old) config m).2.1 = (m.pglists .user).upcoming 0 ∧
      MapsRow (buildInit (initSegments old) config m).1 0x5 codeStart 0 codePages m
        (buildInit (initSegments old) config m).2.2 ∧
      ∀ frame, ¬Region.osPt.Contains frame → (buildInit (initSegments old) config m).2.2.phys frame = m.phys frame := by
  rw [buildInit_eq] at hgranted ⊢
  simp only at hgranted ⊢
  have hstages := initStages old h (hgranted.anti (le_installOsPts _ _ _))
  obtain ⟨_, hdata⟩ := hstages.data
  obtain ⟨_, hstack⟩ := hstages.stack
  have hroot : (fun r ↦ roots r ∨ r = (osPfnAlloc .osPt m).1) (osPfnAlloc .osPt m).1 := Or.inr rfl
  have hslot : UserSlot (tablePath codeStart) (pteIndex codeStart) := UserAddr.slot (by decide)
  obtain ⟨hfirst, hrow⟩ : (initText m).1 = _ ∧ MapsRow _ _ codeStart 0 (7 + 1) _ (initText m).2 :=
    installPtableMulti_row hstages.begun.tables hroot hslot (by decide) hstages.text_granted
  have htop : (initStack old m).phys (osPfnAlloc .osPt m).1 0 ≠ 0 :=
    PhysMem.top_ne_zero (by decide) (hstack.mapped hroot (Or.inr rfl))
  have hkernel := installOsPts_spec hstack.extend.tables hroot htop hgranted
  have hgrant := osPfnAlloc_grant h.regions_ok ((hstages.text_granted.anti (le_installPtableMulti _ _ _ _ _)).anti
    (le_zeroFrame _ _))
  refine ⟨hfirst.trans (by rw [initEmpty_user]), hrow.within (initEmpty_user m) (fun i hi ↦ ?_) (fun pfn hpfn ↦ ?_),
    fun frame hframe ↦ ?_⟩
  · have hi' : i < 8 := hi
    obtain ⟨hpath, hindex⟩ := tablePath_page codeStart (0 + i) (by rw [show pteIndex codeStart = 0 by decide]; omega)
    have hslot' : UserSlot (tablePath (codeStart + (0 + i) * pageSize))
        (pteIndex (codeStart + (0 + i) * pageSize)) := by
      rw [hpath]
      exact hslot
    have hother : ∀ other, tablePath other ≠ tablePath codeStart → ¬((osPfnAlloc .osPt m).1 = (osPfnAlloc .osPt m).1 ∧
        tablePath (codeStart + (0 + i) * pageSize) = tablePath other ∧
          pteIndex (codeStart + (0 + i) * pageSize) = pteIndex other) :=
            fun other hne hand ↦ hne (hand.2.1.symm.trans hpath)
    unfold PhysMem.pageEntry
    rw [hkernel.others _ _ _ hroot (by simp [tablePath]) (Or.inr hslot'), hstack.pages _ _ _ hroot rfl,
      if_neg (hother stackTopPage (by decide)), hdata.pages _ _ _ hroot rfl, if_neg (hother dataStart (by decide))]
  · exact hkernel.extend.still_allocated _ _ (hstack.extend.still_allocated _ _ (hdata.extend.still_allocated _ _ hpfn))
  · rw [hkernel.extend.phys_eq frame hframe, hstack.extend.phys_eq frame hframe, hdata.extend.phys_eq frame hframe,
      hstages.text.phys_eq hframe]
    have hne : frame ≠ (osPfnAlloc .osPt m).1 := fun heq ↦ hframe (heq ▸ hgrant.usable.contains)
    exact (PhysMem.zero_of_ne hne).trans ((Extends.of_grant h hgrant).phys_eq frame hframe)

/-- In a memory with the same tables `exec_init` builds the same. -/
theorem buildInit_same (hsame : SameTables m m') (h : Tables roots m) (old : MmSeg → MmSegment) (config : OsConfigs)
    (hgranted : (buildInit (initSegments old) config m).2.2.AllocsGranted) :
    SameTables (buildInit (initSegments old) config m).2.2 (buildInit (initSegments old) config m').2.2 := by
  rw [buildInit_eq] at hgranted ⊢
  rw [buildInit_eq]
  simp only at hgranted ⊢
  have hstages := initStages old h (hgranted.anti (le_installOsPts _ _ _))
  obtain ⟨_, hdata⟩ := hstages.data
  obtain ⟨_, hstack⟩ := hstages.stack
  have hroot : (fun r ↦ roots r ∨ r = (osPfnAlloc .osPt m).1) (osPfnAlloc .osPt m).1 := Or.inr rfl
  have htop : (initStack old m).phys (osPfnAlloc .osPt m).1 0 ≠ 0 :=
    PhysMem.top_ne_zero (by decide) (hstack.mapped hroot (Or.inr rfl))
  obtain ⟨hpgd, hempty⟩ := hsame.alloc .osPt
  have htext : SameTables (initText m).2 (initText m').2 := by
    unfold initText initEmpty
    rw [hpgd]
    exact ((hempty.zeroFrame _).installPtableMulti hstages.begun.tables hroot (UserAddr.slot (by decide)) _ _
      hstages.text_granted).same
  have hdataSame : SameTables (initData old m) (initData old m') := by
    unfold initData
    rw [hpgd]
    exact (htext.installPtable hstages.text_tables hroot (UserAddr.slot (by decide))
      (by decide) _ 0 hstages.data_granted).same
  have hstackSame : SameTables (initStack old m) (initStack old m') := by
    unfold initStack
    rw [hpgd]
    exact (hdataSame.installPtable hdata.extend.tables hroot (UserAddr.slot (by decide))
      (by decide) _ 0 hstages.stack_granted).same
  rw [hpgd]
  exact hstackSame.installOsPts config hstack.extend.tables hroot htop hgranted

/-- The segments that `create_context` finds in the slot. -/
def slotMms (k : Kernel) : MmSeg → MmSegment := (k.getNewCtx.2.ctxs k.getNewCtx.1).mms

/-- The page table of `init`, and memory behind it. -/
def builtInit (k : Kernel) : ℕ × ℕ × Memory := buildInit (initSegments (slotMms k)) k.config (osPfnAlloc .osPt k.mem).2

/-- Memory after the `init` command, and the page table in use. -/
theorem launch_mem (k : Kernel) (args : InitArgs) (scratch : UserRegs) :
    (k.launch args scratch).mem = { (builtInit k).2.2 with
      phys := copyFrames (builtInit k).2.1 initImage codePages (builtInit k).2.2.phys } ∧
      (k.launch args scratch).cr3 = (builtInit k).1 := by
  obtain ⟨hmem, -, -, hcr3, -, -⟩ := execInit_fields k.createContext.1 args scratch k.createContext.2
  have hmms : (k.createContext.2.ctxs k.createContext.1).mms = initSegments (slotMms k) := by
    unfold Kernel.createContext
    simp only
    rw [updateCtx_self]
    exact (setNameBytes_seat _ 0 initName).2.2
  have hconfig : k.createContext.2.config = k.config ∧ k.createContext.2.mem = (osPfnAlloc .osPt k.mem).2 := by
    unfold Kernel.createContext
    simp only [updateCtx_mem, getNewCtx_mem]
    refine ⟨?_, trivial⟩
    rcases k.getNewCtx_cases with ⟨i, f, -, -, -, hnew⟩ | ⟨-, hnew⟩
    · rw [hnew]
      rfl
    · rw [hnew]
      rfl
  rw [hmms, hconfig.1, hconfig.2] at hmem hcr3
  exact ⟨hmem, hcr3⟩

/-- The copies of `exec_init`, when the frames lie above the binary. -/
theorem copyFrames_apply {dst src count : ℕ} (phys : PhysMem) (happart : src + count ≤ dst) (frame : ℕ) :
    copyFrames dst src count phys frame =
      if dst ≤ frame ∧ frame < dst + count then phys (src + (frame - dst)) else phys frame := by
  induction count generalizing frame with
  | zero => exact (if_neg (by omega)).symm
  | succ count ih =>
    have hcopy : copyFrames dst src (count + 1) phys frame =
        if frame = dst + count then copyFrames dst src count phys
          (src + count) else copyFrames dst src count phys frame := by
      rw [copyFrames]
      unfold PhysMem.copy
      split <;> rfl
    rw [hcopy, ih (by omega), ih (by omega)]
    by_cases hlast : frame = dst + count
    · subst hlast
      rw [if_pos rfl, if_neg (by omega), if_pos (by omega), Nat.add_sub_cancel_left]
    · rw [if_neg hlast]
      exact if_congr (by omega) rfl rfl

/-- The code pages after the `init` command, what it wrote outside the page-table region, and the frames it was given. -/
structure Loaded (k k' : Kernel) : Prop where
  mapped : ∀ i < codePages, ∃ writable,
    hwWalk k'.mem.phys k'.cr3 (codeStart + i * pageSize) = some ⟨(k.mem.pglists .user).upcoming i, true, writable⟩
  usable : ∀ i < codePages, Region.user.Usable ((k.mem.pglists .user).upcoming i)
  phys_eq : ∀ frame, ¬Region.osPt.Contains frame → k'.mem.phys frame =
    if (k.mem.pglists .user).upcoming 0 ≤ frame ∧ frame < (k.mem.pglists .user).upcoming 0 + codePages then
      k.mem.phys (initImage + (frame - (k.mem.pglists .user).upcoming 0))
    else k.mem.phys frame
  fresh : ∀ i < codePages, k.mem.allocated .user ((k.mem.pglists .user).upcoming i) = false
  marked : ∀ i < codePages, k'.mem.allocated .user ((k.mem.pglists .user).upcoming i) = true

theorem loaded {intact : Fin maxProcesses → Prop} {k : Kernel} (h : InShell intact roots k) (args : InitArgs)
    (scratch : UserRegs) (hgranted : (k.launch args scratch).mem.AllocsGranted) :
    Loaded k (k.launch args scratch) := by
  obtain ⟨-, record, hfinished, -, -, -, -, hcr3, -⟩ := launch_finished h args scratch hgranted
  obtain ⟨hmem, hbuilt⟩ := launch_mem k args scratch
  have hbuiltGranted : (builtInit k).2.2.AllocsGranted := by
    rw [hmem] at hgranted
    exact hgranted
  have hgrant := osPfnAlloc_grant h.sound.tables.regions_ok (hbuiltGranted.anti (le_buildInit _ _ _))
  have htables := (Carries.of_grant h.sound.tables hgrant).tables
  obtain ⟨hfirst, hrow, hphys⟩ := buildInit_row htables (slotMms k) k.config hbuiltGranted
  obtain ⟨hbegun, htext⟩ := buildInit_finished htables (slotMms k) k.config hbuiltGranted
  have hlist := osPfnAlloc_user_list k.mem
  have hsame := Extends.of_grant h.sound.tables hgrant
  have hbuiltTables := hbegun.persists.tables
  change Region.user.Usable (builtInit k).2.1 at htext
  change Tables (fun r ↦ roots r ∨ r = (builtInit k).1) (builtInit k).2.2 at hbuiltTables
  change (builtInit k).2.1 = _ at hfirst
  change MapsRow (builtInit k).1 _ _ _ _ _ (builtInit k).2.2 at hrow
  change ∀ frame, ¬Region.osPt.Contains frame → (builtInit k).2.2.phys frame =
    (osPfnAlloc .osPt k.mem).2.phys frame at hphys
  rw [hlist] at hfirst
  replace hrow := hrow.within hlist (fun _ _ ↦ rfl) fun _ ↦ id
  generalize builtInit k = built at *
  have hcopied : ∀ pfn, built.2.2.phys.IsTable (fun r ↦ roots r ∨ r = built.1) pfn →
      (k.launch args scratch).mem.phys pfn = built.2.2.phys pfn := fun pfn hpfn ↦ by
    rw [hmem]
    exact copyFrames_table hbuiltTables htext hpfn
  have hmappedRow : ∀ i < codePages, (∃ writable, hwWalk (k.launch args scratch).mem.phys (k.launch args scratch).cr3
      (codeStart + i * pageSize) = some ⟨(k.mem.pglists .user).upcoming i, true, writable⟩) ∧
        Region.user.Usable ((k.mem.pglists .user).upcoming i) := fun i hi ↦ by
    have hentry := hrow.entry i hi
    have hroot : (fun r ↦ roots r ∨ r = record.pgd) record.pgd := Or.inr rfl
    have hslot : UserSlot (tablePath (codeStart + i * pageSize)) (pteIndex (codeStart + i * pageSize)) :=
      (userAddr_codePages _ (List.mem_map.2 ⟨i, List.mem_range'_1.2 ⟨Nat.zero_le i, by omega⟩, rfl⟩)).slot
    have hpage : (k.launch args scratch).mem.phys.pageEntry record.pgd (codeStart + i * pageSize) =
        makeEntry ((k.mem.pglists .user).upcoming i) 0x5 := by
      rw [← hcr3, hbuilt, ← hentry, Nat.zero_add]
      exact Tables.entry_congr hcopied (Or.inr rfl) (by simp [tablePath]) _
    rcases hfinished.persists.tables.page_cases hroot hslot with
      ⟨hzero, -, -⟩ | ⟨_, pfn, flags, -, husable, hflags, hmake, -, hwalk⟩
    · rw [hpage] at hzero
      have hread : UserFlags 0x5 := Or.inl rfl
      exact absurd hzero (hread.tableFlags.ne_zero _)
    · have hframe := congrArg (· >>> 12) (hmake.symm.trans hpage)
      simp only [makeEntry_shiftRight hflags.tableFlags.lt, makeEntry_shiftRight (show 0x5 < 4096 by decide)] at hframe
      rw [hcr3, hwalk, hframe]
      exact ⟨⟨_, rfl⟩, hframe ▸ husable⟩
  refine ⟨fun i hi ↦ (hmappedRow i hi).1, fun i hi ↦ (hmappedRow i hi).2, fun frame hframe ↦ ?_,
    hrow.fresh, fun i hi ↦ ?_⟩
  · have hlow := htext.1
    have himage : initImage + codePages ≤ built.2.1 :=
      le_trans (show initImage + codePages ≤ Region.user.base + Region.user.reserved by decide) hlow
    have hkept : ∀ other, ¬Region.osPt.Contains other → built.2.2.phys other = k.mem.phys other := fun other hother ↦
      (hphys other hother).trans (hsame.phys_eq other hother)
    rw [hmem]
    change copyFrames built.2.1 initImage codePages built.2.2.phys frame = _
    rw [copyFrames_apply _ himage, hfirst]
    split
    · refine hkept _ fun hcontains ↦ ?_
      have hbase : 0x2000 ≤ initImage + (frame - (k.mem.pglists .user).upcoming 0) := hcontains.1
      have hsmall : initImage + codePages ≤ 0x2000 := by decide
      omega
    · exact hkept frame hframe
  · rw [hmem]
    exact hrow.marked i hi

/-- The kernel with other contents in the frames outside the page-table region. -/
def Kernel.withFrames (other : PhysMem) (k : Kernel) : Kernel :=
  { k with mem.phys := fun frame ↦ if Region.osPt.Contains frame then k.mem.phys frame else other frame }

theorem sameTables_withFrames (other : PhysMem) (k : Kernel) : SameTables k.mem (k.withFrames other).mem :=
  ⟨rfl, fun _ ht ↦ if_pos ht, rfl, rfl, rfl⟩

section WithFrames

variable {intact : Fin maxProcesses → Prop} {k : Kernel}

theorem InShell.withFrames (h : InShell intact roots k) (other : PhysMem) :
    InShell intact roots (k.withFrames other) := by
  refine ⟨h.sound.carries ?_, h.mode_eq, h.none_live⟩
  exact .of_congr h.sound.tables h.sound.tables.regions_ok rfl rfl
    (fun pfn hpfn ↦ if_pos (h.sound.tables.table_usable pfn hpfn).contains) fun _ ↦ id

/-- What memory holds does not matter to the allocator calls of the `init` command. -/
theorem InShell.launch_withFrames (h : InShell intact roots k) (other : PhysMem) (args : InitArgs) (scratch : UserRegs)
    (hgranted : (k.launch args scratch).mem.AllocsGranted) :
    ((k.withFrames other).launch args scratch).mem.AllocsGranted := by
  rw [(launch_mem k args scratch).1] at hgranted
  rw [(launch_mem (k.withFrames other) args scratch).1]
  have hgranted' : (builtInit k).2.2.AllocsGranted := hgranted
  have htables := (Carries.of_grant h.sound.tables
    (osPfnAlloc_grant h.sound.tables.regions_ok (hgranted'.anti (le_buildInit _ _ _)))).tables
  have hsame : SameTables (builtInit k).2.2 (builtInit (k.withFrames other)).2.2 :=
    buildInit_same ((sameTables_withFrames other k).alloc .osPt).same htables (slotMms k) k.config hgranted'
  exact hsame.granted hgranted'

end WithFrames

/-- After the `init` command the code pages hold the binary, and of the user region only frames that it was given were
written. -/
structure LoadsImage (args : InitArgs) (scratch : UserRegs) (k : Kernel) : Prop where
  pages : ∀ i < codePages, ∃ mapping, hwWalk (k.launch args scratch).mem.phys (k.launch args scratch).cr3
    (codeStart + i * pageSize) = some mapping ∧ mapping.user = true ∧
      ∀ j < 512, (k.launch args scratch).mem.phys mapping.pfn j = k.mem.phys (initImage + i) j
  others : ∀ frame, Region.user.Contains frame →
    (k.launch args scratch).mem.allocated .user frame = k.mem.allocated .user frame →
      ∀ j < 512, (k.launch args scratch).mem.phys frame j = k.mem.phys frame j

/-- The next eight calls of the allocator return frames in a row. -/
def InARow (pgl : PageList) : Prop := ∀ i < codePages, pgl.upcoming i = pgl.upcoming 0 + i

instance (pgl : PageList) : Decidable (InARow pgl) := by
  unfold InARow
  infer_instance

theorem user_not_osPt {frame : ℕ} (h : Region.user.Contains frame) : ¬Region.osPt.Contains frame := fun hosPt ↦
  Region.noConfusion (h.eq hosPt)

theorem image_not_osPt {i : ℕ} (hi : i < codePages) : ¬Region.osPt.Contains (initImage + i) := fun hosPt ↦ by
  have hlow : 0x2000 ≤ initImage + i := hosPt.1
  have hsmall : initImage + codePages ≤ 0x2000 := by decide
  omega

theorem Loaded.loadsImage {k : Kernel} {args : InitArgs} {scratch : UserRegs} (h : Loaded k (k.launch args scratch))
    (hrow : InARow (k.mem.pglists .user)) : LoadsImage args scratch k := by
  constructor
  · intro i hi
    obtain ⟨writable, hwalk⟩ := h.mapped i hi
    refine ⟨_, hwalk, rfl, fun j _ ↦ ?_⟩
    simp only
    rw [h.phys_eq _ (user_not_osPt (h.usable i hi).contains), hrow i hi, if_pos (by omega), Nat.add_sub_cancel_left]
  · intro frame hframe hsame j _
    rw [h.phys_eq frame (user_not_osPt hframe), if_neg]
    rintro ⟨hlow, hhigh⟩
    obtain ⟨i, rfl⟩ := Nat.exists_eq_add_of_le hlow
    have hi : i < codePages := by omega
    rw [← hrow i hi, h.fresh i hi, h.marked i hi] at hsame
    exact Bool.noConfusion hsame

/-- When every frame holds its own number, the copy shows which frame the page table maps. -/
theorem Loaded.inARow {k : Kernel} {args : InitArgs} {scratch : UserRegs} (h : Loaded k (k.launch args scratch))
    (hload : LoadsImage args scratch k) (hnumbers : ∀ frame, ¬Region.osPt.Contains frame → k.mem.phys frame 0 = frame) :
    InARow (k.mem.pglists .user) := by
  intro i hi
  obtain ⟨mapping, hwalk, -, hpage⟩ := hload.pages i hi
  obtain ⟨writable, hwalk'⟩ := h.mapped i hi
  obtain rfl := Option.some.inj (hwalk.symm.trans hwalk')
  have hword := hpage 0 (by decide)
  have husable := h.usable i hi
  simp only at hword
  rw [h.phys_eq _ (user_not_osPt husable.contains), hnumbers _ (image_not_osPt hi)] at hword
  split at hword
  · rename_i hin
    rw [hnumbers _ (image_not_osPt (by omega))] at hword
    omega
  · rw [hnumbers _ (user_not_osPt husable.contains)] at hword
    have hlow : Region.user.base + Region.user.reserved ≤ _ := husable.1
    have hbase : initImage + codePages ≤ Region.user.base + Region.user.reserved := by decide
    omega

/-- Whatever the frames outside the page-table region hold, the `init` command loads the binary, exactly when the
allocator is about to hand out frames in a row. -/
theorem launch_loads_iff {k : Kernel} (h : Reachable k) (hmode : k.mode = .shell) (args : InitArgs) (scratch : UserRegs)
    (hgranted : (k.launch args scratch).mem.AllocsGranted) :
    (∀ other, LoadsImage args scratch (k.withFrames other)) ↔ InARow (k.mem.pglists .user) := by
  have hle : k ≤ k.launch args scratch := by
    have hstep := (onward_step (.launch args scratch) k).le
    unfold Kernel.step stepWith at hstep
    rwa [hmode] at hstep
  obtain ⟨roots, hshell⟩ := (h.inv (hgranted.anti hle)).inShell hmode
  have hloaded := fun other ↦ loaded (hshell.withFrames other) args scratch
    (hshell.launch_withFrames other args scratch hgranted)
  constructor
  · intro hload
    exact (hloaded fun frame _ ↦ frame).inARow (hload _) fun frame hframe ↦ congrFun (if_neg hframe) 0
  · exact fun hrow other ↦ (hloaded other).loadsImage hrow

set_option maxRecDepth 4000 in
/-- The first process after boot. -/
theorem launch_loads_iff_boot :
    (∀ other, LoadsImage ⟨0, 0, 0, 0, 0⟩ .zero (blankBoot.withFrames other)) ↔
      InARow (blankBoot.mem.pglists .user) := by
  have hrun : blankBoot.mode = .shell ∧ ∀ event ∈ (blankBoot.launch ⟨0, 0, 0, 0, 0⟩ .zero).mem.trace,
      event.Granted := by
    decide +kernel
  exact launch_loads_iff (Reachable.boot _ _ _ _) hrun.1 _ _ hrun.2

/-- A machine whose frames hold their own numbers at boot. -/
def numberedBoot : Kernel := Kernel.boot (fun frame _ ↦ frame) .reset true .zero

/-- A process touches ten pages of data, forks, touches another one and exits; then its child is about to exit. -/
def holeEvents : List Event :=
  [launchInit] ++ callEvents 4 9 1 ++ (List.range' 1 9).map (fun n ↦ .store (dataStart + n * pageSize) 1) ++
    callEvents 10 0 0 ++ callEvents 4 1 1 ++ [.store (dataStart + 10 * pageSize) 1] ++ callEvents 1 0 0 ++
    [.compute { UserRegs.zero with rdi := 1 }]

/-- The child before it calls `exit`, and the prompt behind it as `cleanupPresent` leaves it. -/
@[irreducible] def lastChild : Kernel := run Kernel.step numberedBoot holeEvents

@[irreducible] def lastCleaned : Kernel := lastChild.saveRegs.retire.cleanedWith cleanupPresent

/-- The prompt that comes back behind these two processes. -/
def holePrompt : Kernel := Kernel.step (.syscall fun _ ↦ 0) lastChild

theorem reachable_lastChild : Reachable lastChild := by
  have hboot : Reachable numberedBoot := Reachable.boot _ _ _ _
  unfold lastChild
  exact hboot.run holeEvents

/-- The third page of code then holds the fourth page of the binary, and the third one overwrites a frame that the
allocator did not hand out. -/
theorem hole_not_loaded :
    Reachable holePrompt ∧ holePrompt.mode = .shell ∧ (holePrompt.launch ⟨0, 0, 0, 0, 0⟩ .zero).mem.AllocsGranted ∧
      ¬LoadsImage ⟨0, 0, 0, 0, 0⟩ .zero holePrompt := by
  have hrun : lastChild.mode = .user ∧ lastChild.syscallRequested = some .exit ∧
      lastChild.saveRegs.retire.procExist = false ∧ lastCleaned.mode = .shell ∧
      (∀ event ∈ (lastCleaned.launch ⟨0, 0, 0, 0, 0⟩ .zero).mem.trace, event.Granted) ∧
      Region.user.Contains (Region.user.base + 34) ∧
      (lastCleaned.launch ⟨0, 0, 0, 0, 0⟩ .zero).mem.allocated .user (Region.user.base + 34) =
        lastCleaned.mem.allocated .user (Region.user.base + 34) ∧
      ¬(lastCleaned.launch ⟨0, 0, 0, 0, 0⟩ .zero).mem.phys (Region.user.base + 34) 0 =
        lastCleaned.mem.phys (Region.user.base + 34) 0 := by decide +kernel
  obtain ⟨huser, hcall, hlast, hmode, hgranted, hcontains, hsame, hword⟩ := hrun
  have hexit := step_exit_last (k := lastChild) (fun _ ↦ 0) huser hcall hlast
  have hprompt : holePrompt = lastCleaned := by
    rw [holePrompt, hexit, doCleanup_eq_present, lastCleaned]
  rw [hprompt]
  refine ⟨hprompt ▸ reachable_lastChild.run [.syscall fun _ ↦ 0], hmode, hgranted, fun hload ↦ ?_⟩
  exact hword (hload.others _ hcontains hsame 0 (by decide))

end GemOS
