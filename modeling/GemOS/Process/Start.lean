import GemOS.Process.Birth

/-!
# The first process

`exec_init` fills a new page table with the pages of the binary, one page of data and one of the stack, and adds the
kernel mappings; the shell's `init` command makes the record of slot 1 and enters user mode on that table.
-/

namespace GemOS

open Foundation TableForest Memory Kernel

variable {intact : Fin maxProcesses → Prop} {roots : ℕ → Prop} {root addr : ℕ} {m m₁ m' : Memory}
  {addrs addrs' : List ℕ}
  {k : Kernel}

/-- Pages were mapped below `root` at these addresses, read-only below the DATA segment, and nothing else. -/
structure Furnishes (roots : ℕ → Prop) (root : ℕ) (addrs : List ℕ) (m m' : Memory) : Prop where
  fosters : Fosters roots root m m'
  kept : ∀ addr, m.phys.pageEntry root addr ≠ 0 → m'.phys.pageEntry root addr ≠ 0
  pages : ∀ addr, UserAddr addr → m'.phys.pageEntry root addr ≠ 0 →
    m.phys.pageEntry root addr ≠ 0 ∨ ∃ other ∈ addrs, addr / 4096 = other / 4096
  mapped : ∀ addr ∈ addrs, m'.phys.pageEntry root addr ≠ 0
  top_writable : TopWritable m root → TopWritable m' root

namespace Furnishes

theorem refl (h : Tables roots m) : Furnishes roots root [] m m :=
  ⟨.refl h, fun _ ↦ id, fun _ _ ↦ Or.inl, fun _ haddr ↦ absurd haddr List.not_mem_nil, id⟩

theorem trans (first : Furnishes roots root addrs m m₁) (second : Furnishes roots root addrs' m₁ m') :
    Furnishes roots root (addrs ++ addrs') m m' where
  fosters := first.fosters.trans second.fosters
  kept addr := second.kept addr ∘ first.kept addr
  pages addr haddr hmapped := by
    rcases second.pages addr haddr hmapped with hold | ⟨other, hother, hpage⟩
    · refine (first.pages addr haddr hold).imp id ?_
      rintro ⟨other, hother, hpage⟩
      exact ⟨other, List.mem_append_left _ hother, hpage⟩
    · exact Or.inr ⟨other, List.mem_append_right _ hother, hpage⟩
  mapped addr haddr := by
    rcases List.mem_append.1 haddr with hfirst | hsecond
    · exact second.kept addr (first.mapped addr hfirst)
    · exact second.mapped addr hsecond
  top_writable := second.top_writable ∘ first.top_writable

theorem of_mapsPage {pfn flags : ℕ} (hmaps : MapsPage roots m m' root addr pfn flags 0x7) (hroot : roots root)
    (haddr : UserAddr addr) (hflags : UserFlags flags) (hread : addr < dataStart → flags = 0x5) :
    Furnishes roots root [addr] m m' := by
  have hpage : ∀ other, m'.phys.pageEntry root other =
      if root = root ∧ tablePath other = tablePath addr ∧ pteIndex other = pteIndex addr then makeEntry pfn flags
      else m.phys.pageEntry root other := fun other ↦ hmaps.pages root _ _ hroot rfl
  refine ⟨.of_mapsPage hmaps (.of_mapsPage hmaps hflags haddr hread), fun other hmapped ↦ ?_,
    fun other hother hmapped ↦ ?_, fun other hother ↦ ?_, fun htop ↦ htop.mapsPage hmaps hroot⟩
  · rw [hpage]
    split
    · exact hflags.tableFlags.ne_zero _
    · exact hmapped
  · rw [hpage] at hmapped
    split at hmapped
    · rename_i hhere
      have hlt := hother.2
      have hlt' := haddr.2
      exact Or.inr ⟨addr, List.mem_singleton_self _, (indices_eq_iff (by omega) (by omega)).1 hhere.2⟩
    · exact Or.inl hmapped
  · rw [List.mem_singleton.1 hother]
    exact hmaps.mapped hroot hflags

/-- A row of read-only pages. -/
theorem of_mapsAll (h : MapsAll roots root 0x5 addrs m m') (htables : Tables roots m) (hroot : roots root)
    (haddrs : ∀ addr ∈ addrs, UserAddr addr) : Furnishes roots root addrs m m' := by
  induction h with
  | nil => exact .refl htables
  | cons page _ ih =>
    have hfirst := of_mapsPage page.toMapsPage hroot (haddrs _ (List.mem_cons_self ..)) (Or.inl rfl) fun _ ↦ rfl
    exact hfirst.trans (ih page.extend.tables fun other hother ↦ haddrs other (List.mem_cons_of_mem _ hother))

end Furnishes

/-- The pages that `exec_init` maps. -/
def initPages : List ℕ := pagesFrom codeStart 0 codePages ++ ([dataStart] ++ [stackTopPage])

theorem userAddr_codePages : ∀ addr ∈ pagesFrom codeStart 0 codePages, UserAddr addr := by
  intro addr haddr
  obtain ⟨n, hn, rfl⟩ := mem_pagesFrom haddr
  simp only [codePages, codeStart, pageSize] at *
  constructor <;> omega

section Stages

variable (old : MmSeg → MmSegment)

/-- The empty page table of `exec_init`. -/
def initEmpty (m : Memory) : Memory := (osPfnAlloc .osPt m).2.zeroFrame (osPfnAlloc .osPt m).1

/-- With the code pages; the first of their frames. -/
def initText (m : Memory) : ℕ × Memory :=
  installPtableMulti (osPfnAlloc .osPt m).1 codeStart codePages false (initEmpty m)

/-- With the page of data. -/
def initData (m : Memory) : Memory :=
  (installPtable (osPfnAlloc .osPt m).1 (initSegments old .data) dataStart 0 (initText m).2).2

/-- With the page of the stack. -/
def initStack (m : Memory) : Memory :=
  (installPtable (osPfnAlloc .osPt m).1
    { initSegments old .stack with start := (initSegments old .stack).stop - pageSize } stackTopPage 0
      (initData old m)).2

theorem buildInit_eq (config : OsConfigs) (m : Memory) :
    buildInit (initSegments old) config m =
      ((osPfnAlloc .osPt m).1, (initText m).1, installOsPts (osPfnAlloc .osPt m).1 config (initStack old m)) := by
  have hstart : ((initSegments old .data).start ≠ 0) ∧
      ({ initSegments old .stack with start := (initSegments old .stack).stop - pageSize } : MmSegment).start ≠ 0 := by
    change dataStart ≠ 0 ∧ stackStart - pageSize ≠ 0
    decide
  unfold buildInit
  simp only [installPtable_zero _ hstart.1, installPtable_zero _ hstart.2]
  rfl

/-- What each stage does below the new root. -/
structure InitStages (roots : ℕ → Prop) (m : Memory) : Prop where
  begun : Begun roots m (initEmpty m) (osPfnAlloc .osPt m).1
  clear : ∀ path i, (initEmpty m).phys.entry (osPfnAlloc .osPt m).1 path i = 0
  text_granted : (initText m).2.AllocsGranted
  text : MapsAll (fun r ↦ roots r ∨ r = (osPfnAlloc .osPt m).1) (osPfnAlloc .osPt m).1 0x5
    (pagesFrom codeStart 0 codePages)
    (initEmpty m) (initText m).2
  text_tables : Tables (fun r ↦ roots r ∨ r = (osPfnAlloc .osPt m).1) (initText m).2
  text_first : Region.user.Usable (initText m).1
  data_granted : (initData old m).AllocsGranted
  data : ∃ pfn, MapsFresh (fun r ↦ roots r ∨ r = (osPfnAlloc .osPt m).1) (initText m).2 (initData old m)
    (osPfnAlloc .osPt m).1 dataStart pfn 0x7 0x7
  stack_granted : (initStack old m).AllocsGranted
  stack : ∃ pfn, MapsFresh (fun r ↦ roots r ∨ r = (osPfnAlloc .osPt m).1) (initData old m) (initStack old m)
    (osPfnAlloc .osPt m).1 stackTopPage pfn 0x7 0x7

theorem initStages (h : Tables roots m) (hgranted : (initStack old m).AllocsGranted) : InitStages old roots m := by
  have hdata : (initData old m).AllocsGranted := hgranted.anti (le_installPtable _ _ _ _ _)
  have htext : (initText m).2.AllocsGranted := hdata.anti (le_installPtable _ _ _ _ _)
  have hpgd := (htext.anti (le_installPtableMulti _ _ _ _ _)).anti (le_zeroFrame _ _)
  obtain ⟨hbegun, hzero⟩ := Begun.start h (osPfnAlloc_grant h.regions_ok hpgd)
  have hroot : (fun r ↦ roots r ∨ r = (osPfnAlloc .osPt m).1) (osPfnAlloc .osPt m).1 := Or.inr rfl
  have hslot : UserSlot (tablePath codeStart) (pteIndex codeStart) := UserAddr.slot (by decide)
  have hcode : MapsAll _ (osPfnAlloc .osPt m).1 0x5 (pagesFrom codeStart 0 (7 + 1)) (initEmpty m) (initText m).2 :=
    installPtableMulti_spec hbegun.tables hroot hslot (by decide) htext
  have hcodeTables := (Furnishes.of_mapsAll hcode hbegun.tables hroot userAddr_codePages).fosters.carries.tables
  have hdataPage := installPtable_fresh hcodeTables hroot (UserAddr.slot (by decide)) (by decide)
    (initSegments old .data) hdata
  have hstackPage := installPtable_fresh hdataPage.extend.tables hroot
    (UserAddr.slot (by decide)) (by decide) _ hgranted
  have hwrite : decide ((mmRd ||| mmWr) &&& mmWr ≠ 0) = true := by decide
  rw [if_pos (show (initSegments old .data).writable = true from hwrite)] at hdataPage
  rw [if_pos (show ({ initSegments old .stack with start := (initSegments old .stack).stop - pageSize } :
    MmSegment).writable = true from hwrite)] at hstackPage
  exact ⟨hbegun, hzero, htext, hcode, hcodeTables, installPtableMulti_first hbegun.tables hroot hslot htext, hdata,
    ⟨_, hdataPage⟩, hgranted, ⟨_, hstackPage⟩⟩

end Stages

/-- `exec_init` finishes a page table; its binary goes to a frame of the user region. -/
theorem buildInit_finished (h : Tables roots m) (old : MmSeg → MmSegment) (config : OsConfigs)
    (hgranted : (buildInit (initSegments old) config m).2.2.AllocsGranted) :
    Finished roots m (buildInit (initSegments old) config m).2.2 (buildInit (initSegments old) config m).1 initPages ∧
      Region.user.Usable (buildInit (initSegments old) config m).2.1 := by
  rw [buildInit_eq] at hgranted ⊢
  simp only at hgranted ⊢
  have hstages := initStages old h (hgranted.anti (le_installOsPts _ _ _))
  obtain ⟨_, hdata⟩ := hstages.data
  obtain ⟨_, hstack⟩ := hstages.stack
  have hroot : (fun r ↦ roots r ∨ r = (osPfnAlloc .osPt m).1) (osPfnAlloc .osPt m).1 := Or.inr rfl
  have hcodePages := Furnishes.of_mapsAll hstages.text hstages.begun.tables hroot userAddr_codePages
  have hdataPage := Furnishes.of_mapsPage hdata.toMapsPage hroot (by decide) (Or.inr rfl) fun hlow ↦
    absurd hlow (lt_irrefl _)
  have hstackPage := Furnishes.of_mapsPage hstack.toMapsPage hroot (by decide) (Or.inr rfl) fun hlow ↦
    absurd hlow (by decide)
  have hall := hcodePages.trans (hdataPage.trans hstackPage)
  refine ⟨(hstages.begun.fosters hall.fosters).finish
    (hall.top_writable (Or.inl (hstages.clear [] 0))) (fun addr haddr ↦ ?_)
    (fun addr haddr hmapped ↦ ?_) hgranted, hstages.text_first⟩
  · apply hall.mapped
    rcases haddr with rfl | rfl
    · decide
    · decide
  · exact (hall.pages addr haddr hmapped).resolve_left fun hold ↦ hold (hstages.clear _ _)

theorem copyFrames_of_lt {dst src count : ℕ} (phys : PhysMem) {frame : ℕ} (hframe : frame < dst) :
    copyFrames dst src count phys frame = phys frame := by
  induction count with
  | zero => rfl
  | succ count ih =>
    rw [copyFrames, ← ih]
    funext i
    exact if_neg (by omega)

/-- The binary lies above the page tables. -/
theorem copyFrames_table (h : Tables roots m) {text : ℕ} (htext : Region.user.Usable text) {src count pfn : ℕ}
    (hpfn : m.phys.IsTable roots pfn) : copyFrames text src count m.phys pfn = m.phys pfn := by
  have hhigh := (h.table_usable pfn hpfn).contains.2
  have hlow := htext.contains.1
  have hregions : Region.osPt.base + Region.osPt.frames ≤ Region.user.base := by decide
  exact copyFrames_of_lt _ (by omega)

namespace Finished

variable {pgd : ℕ}

/-- A frame was handed out before the table was begun. -/
theorem of_grant {pfn : ℕ} (h : Tables roots m) (hgrant : Memory.Grant .osPt m m₁ pfn)
    (hfinished : Finished roots m₁ m' pgd addrs) : Finished roots m m' pgd addrs :=
  { hfinished with
    persists := Persists.trans (Carries.of_grant h hgrant) hfinished.persists fun _ ↦ id
    others := fun r path i hr hlength ↦ (hfinished.others r path i hr hlength).trans
      (Tables.entry_congr (fun _ ↦ h.grant_phys hgrant) hr hlength i) }

/-- Frames that are no tables were written after the table was finished. -/
theorem write (h : Finished roots m m₁ pgd addrs) {phys : PhysMem}
    (hphys : ∀ pfn, m₁.phys.IsTable (fun r ↦ roots r ∨ r = pgd) pfn → phys pfn = m₁.phys pfn) :
    Finished roots m { m₁ with phys := phys } pgd addrs := by
  have htables := h.persists.tables
  have hcarries : Carries _ m₁ { m₁ with phys := phys } :=
    Carries.of_congr htables htables.regions_ok rfl rfl hphys fun _ ↦ id
  have hentry : ∀ r path i, (roots r ∨ r = pgd) → path.length ≤ 3 → phys.entry r path i = m₁.phys.entry r path i :=
    fun r path i hr hlength ↦ (Tables.entry_congr hphys hr hlength i : ({ m₁ with phys := phys } : Memory).phys.entry
      r path i = _)
  have hpage : ∀ addr, phys.pageEntry pgd addr = m₁.phys.pageEntry pgd addr := fun addr ↦
    hentry pgd _ _ (Or.inr rfl) (by simp [tablePath])
  refine ⟨h.persists.trans hcarries fun _ ↦ Or.inl, h.fresh, fun r path i hr hlength ↦ ?_, fun addr haddr hmapped ↦ ?_,
    (hcarries.kernelMapped_iff (Or.inr rfl)).2 h.mapped, fun addr haddr ↦ ?_, ?_⟩
  · exact (hentry r path i (Or.inl hr) hlength).trans (h.others r path i hr hlength)
  · exact h.pages addr haddr (hpage addr ▸ hmapped)
  · exact (hpage addr).symm ▸ h.anchors addr haddr
  · rw [show ({ m₁ with phys := phys } : Memory).phys.entry pgd [] 0 = m₁.phys.entry pgd [] 0 from
      hentry pgd [] 0 (Or.inr rfl) (by simp)]
    exact h.top_writable

end Finished

/-- `create_context` makes a record with a kernel stack and the segments of a new process. -/
theorem createContext_born (k : Kernel) :
    ∃ record old, k.createContext.1 = k.getNewCtx.1 ∧ Born k.getNewCtx.1 record k k.createContext.2 ∧
      k.createContext.2.mem = (osPfnAlloc .osPt k.mem).2 ∧
      (∀ j, k.getNewCtx.1 = some j → record.pid = j ∧ (k.ctxs (some j)).state = .unused) ∧
      record.osStackPfn = (osPfnAlloc .osPt k.mem).1 ∧ record.osRsp = stackTop record.osStackPfn ∧
      record.mms = initSegments old := by
  obtain ⟨record, hborn, -, hslot, -⟩ := k.getNewCtx_born
  have hmem := getNewCtx_mem k
  unfold Kernel.createContext
  simp only
  rw [hmem]
  generalize k.getNewCtx.1 = child at *
  generalize k.getNewCtx.2 = k₁ at *
  have hself := hborn.self
  obtain ⟨hseat, -, hmms⟩ := setNameBytes_seat { record with
    state := .new, type := .user, usedMem := 0, pgd := 0, osStackPfn := (osPfnAlloc .osPt k.mem).1,
    osRsp := stackTop (osPfnAlloc .osPt k.mem).1, mms := initSegments record.mms } 0 initName
  refine ⟨_, record.mms, trivial, (hborn.memory _).trans ⟨rfl, rfl, rfl, rfl, rfl, rfl, rfl⟩, rfl,
    fun j hj ↦ ?_, ?_, ?_, ?_⟩
  all_goals
    change _ at *
    simp only [hself]
  · exact ⟨hseat.pid_eq.trans (hslot j hj).1, (hslot j hj).2⟩
  · exact hseat.stack_eq
  · exact hseat.rsp_eq.trans (congrArg stackTop hseat.stack_eq.symm)
  · exact hmms

/-- The record of a process that `exec_init` starts. -/
def ExecContext.started (ctx : ExecContext) (pgd : ℕ) : ExecContext :=
  { ctx with pgd := pgd, mms := execSegments ctx.mms, state := .running }

/-- `exec_init` enters user mode on the page table that it built, unless that does not map the kernel. -/
theorem execInit_fields (p : CtxPtr) (args : InitArgs) (scratch : UserRegs) (k : Kernel) :
    let built := buildInit (k.ctxs p).mms k.config k.mem
    let k' := k.execInit p args scratch
    k'.mem = { built.2.2 with phys := copyFrames built.2.1 initImage codePages built.2.2.phys } ∧
      k'.ctxs = Function.update k.ctxs p ((k.ctxs p).started built.1) ∧ k'.current = p ∧ k'.cr3 = built.1 ∧
      k'.regs.entryCs = userCs ∧ (k'.mode = .user ∨ k'.mode = .dead) := by
  unfold Kernel.execInit
  simp only
  generalize buildInit (k.ctxs p).mms k.config k.mem = built
  have hctxs : (({ k with
      mem := { built.2.2 with phys := copyFrames built.2.1 initImage codePages built.2.2.phys }
      stats.numProcesses := (k.stats.numProcesses + 1) % 2 ^ 64 }.updateCtx p
        fun ctx ↦ { ctx with pgd := built.1, mms := execSegments ctx.mms }).setCurrentCtx p).ctxs =
          Function.update k.ctxs p ((k.ctxs p).started built.1) := by
    funext q
    rw [setCurrentCtx_ctxs, updateCtx_ctxs, Function.update_apply]
    split
    · rename_i heq
      rw [heq]
      rfl
    · rfl
  unfold Kernel.loadCr3
  split
  · refine ⟨rfl, hctxs, rfl, rfl, rfl, ?_⟩
    unfold Kernel.iret
    simp only
    split
    · exact Or.inr rfl
    · exact Or.inl (if_pos rfl)
  · exact ⟨rfl, hctxs, rfl, rfl, rfl, Or.inr rfl⟩

/-- The segments after `exec_init` are those of a new process. -/
theorem contextOk_started {ctx : ExecContext} {old : MmSeg → MmSegment} (hmms : ctx.mms = initSegments old) (pgd : ℕ) :
    ContextOk (ctx.started pgd) := by
  have hstarted : (ctx.started pgd).mms = execSegments (initSegments old) := congrArg execSegments hmms
  generalize ctx.started pgd = started at *
  constructor
  case segments =>
    rw [hstarted]
    intro seg
    cases seg <;> rfl
  all_goals
    rw [hstarted]
  case code_next => rfl
  case rodata_next =>
    change rodataStart ≤ rodataStart ∧ rodataStart < dataStart ∧ rodataStart % pageSize = 0
    decide
  case data_next =>
    change dataStart ≤ dataStart + pageSize ∧ dataStart + pageSize < stackStart - maxStackSize ∧
      (dataStart + pageSize) % pageSize = 0
    decide
  case stack_next => rfl

/-- The `init` command finishes a page table and starts a process on it. -/
theorem launch_finished (h : InShell intact roots k) (args : InitArgs) (scratch : UserRegs)
    (hgranted : (k.launch args scratch).mem.AllocsGranted) :
    ∃ i record, Finished roots k.mem (k.launch args scratch).mem record.pgd initPages ∧
      Newcomer intact (fun r ↦ roots r ∨ r = record.pgd) (k.launch args scratch).mem k.ctxs (some i) i record ∧
      (k.launch args scratch).ctxs = Function.update k.ctxs (some i) record ∧ record.state = .running ∧
      (k.launch args scratch).current = some i ∧ (k.launch args scratch).cr3 = record.pgd ∧
      (k.launch args scratch).regs.entryCs = userCs ∧
      ((k.launch args scratch).mode = .user ∨ (k.launch args scratch).mode = .dead) := by
  obtain ⟨record, old, hchild, hborn, hmem, hslot, hstack, hrsp, hmms⟩ := createContext_born k
  obtain ⟨hmem', hctxs', hcurrent, hcr3, hcs, hmode⟩ := execInit_fields k.createContext.1 args scratch k.createContext.2
  obtain ⟨i, hi⟩ : ∃ i, k.getNewCtx.1 = some i := by
    obtain ⟨-, -, -, -, hfull⟩ := k.getNewCtx_born
    by_contra hnone
    refine h.none_live ⟨1, by decide⟩ ⟨by decide, hfull ?_ _⟩
    exact Option.eq_none_iff_forall_ne_some.2 fun i hi ↦ hnone ⟨i, hi⟩
  unfold Kernel.launch at hgranted ⊢
  rw [hi] at hchild hborn
  rw [hchild, hborn.self, hmms, hmem] at hmem' hctxs' hcr3
  rw [hborn.ctxs_eq, Function.update_idem] at hctxs'
  rw [hchild] at hcurrent hcs hmode hgranted ⊢
  generalize k.createContext.2.execInit (some i) args scratch = k' at *
  generalize k.createContext.2.config = config at *
  have hbuilt : (buildInit (initSegments old) config (osPfnAlloc .osPt k.mem).2).2.2.AllocsGranted := by
    rw [hmem'] at hgranted
    exact hgranted
  have hgrant := osPfnAlloc_grant h.sound.tables.regions_ok (hbuilt.anti (le_buildInit _ _ _))
  rw [← hstack] at hgrant
  have htables := (Carries.of_grant h.sound.tables hgrant).tables
  obtain ⟨hfinished, htext⟩ := buildInit_finished htables old config hbuilt
  have hwritten : Finished roots (osPfnAlloc .osPt k.mem).2 k'.mem
      (buildInit (initSegments old) config (osPfnAlloc .osPt k.mem).2).1 initPages := by
    rw [hmem']
    exact hfinished.write fun _ hpfn ↦ copyFrames_table hfinished.persists.tables htext hpfn
  generalize (buildInit (initSegments old) config (osPfnAlloc .osPt k.mem).2).1 = pgd at *
  have hclear : ¬ k.mem.phys.IsTable roots record.osStackPfn := h.sound.tables.not_isTable_of_clear hgrant.not_allocated
  have hmarked : (osPfnAlloc .osPt k.mem).2.allocated .osPt record.osStackPfn = true :=
    (hgrant.allocated_iff _ _).2 (Or.inr ⟨rfl, rfl⟩)
  have hfree := h.sound.free_slot (hslot i hi).2
  refine ⟨i, record.started pgd, hwritten.of_grant h.sound.tables hgrant, ⟨hfree.1, hfree.2, Or.inr rfl,
    contextOk_started hmms pgd, (hslot i hi).1, hrsp, fun hne ↦ absurd rfl hne,
      Or.inl ⟨hwritten.mapped, hwritten.anchors,
      hwritten.top_writable, ⟨hgrant.usable, hwritten.persists.still_allocated _ hmarked, fun htable ↦ ?_⟩,
        fun j hj ↦ ?_⟩⟩,
    hctxs', rfl, hcurrent, hcr3, hcs, hmode⟩
  · apply hclear
    exact (Tables.isTable_congr (fun _ ↦ h.sound.tables.grant_phys hgrant) _).1
      (hwritten.persists.not_table _ hmarked htable)
  · have hzero := hj.resolve_right fun hand ↦ h.none_live j hand.1
    have hheld := (h.sound.stack_ok j (Or.inl hzero)).allocated
    intro heq
    rw [heq] at hheld
    change k.mem.allocated .osPt record.osStackPfn = true at hheld
    rw [hgrant.not_allocated] at hheld
    exact Bool.noConfusion hheld

/-- The `init` command keeps the invariant. -/
theorem InShell.inv_launch (h : InShell intact roots k) (args : InitArgs) (scratch : UserRegs)
    (hgranted : (k.launch args scratch).mem.AllocsGranted) : Inv intact (k.launch args scratch) := by
  obtain ⟨i, record, hfinished, hnew, hctxs, hstate, hcurrent, hcr3, hcs, hmode⟩ :=
    launch_finished h args scratch hgranted
  generalize k.launch args scratch = k' at *
  have hsound : Sound intact roots k.mem k.ctxs (some i) := by
    refine h.sound.recontext h.sound.swapper_ok (.refl _) (fun j hj ↦ absurd hj (h.none_live j)) fun j hj ↦ ?_
    exact absurd hj (h.none_live j)
  have hsound' : Sound intact (fun r ↦ roots r ∨ r = record.pgd) k'.mem k'.ctxs k'.current := by
    rw [hctxs, hcurrent]
    exact (hsound.persists hfinished.persists hsound.live_root).insert hnew
  refine ⟨fun r ↦ roots r ∨ r = record.pgd, ?_⟩
  rcases hmode with hmode | hmode
  · have hself : k'.ctxs (some i) = record := by rw [hctxs, Function.update_self]
    refine Or.inr (Or.inl ⟨i, hsound', hmode, hcurrent, ⟨hnew.slot, ?_⟩, ?_, ?_, hcs⟩)
    · rw [hself, hstate]
      decide
    · rw [hself]
      exact hfinished.mapped
    · rw [hself, hcr3]
  · refine Or.inr (Or.inr (Or.inr ⟨?_, hsound'⟩))
    rw [hmode]
    trivial

end GemOS
