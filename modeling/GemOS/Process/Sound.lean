import GemOS.Process.Accesses

/-!
# The invariant of the process table

`Sound` relates the process table to memory: the page tables of all processes are well formed, their
records are as `create_context` and `do_fork` leave them, and each process has a kernel stack and an
address space of its own. A fork that was cut short leaves a record behind whose page table has no kernel
window and whose kernel stack is that of its parent; such a process is dead as soon as it is chosen, and
nothing is asked of it. The invariant is indexed by the slots that are known to be none of these.
-/

namespace GemOS

open Foundation TableForest Memory

variable {intact : Fin maxProcesses → Prop} {roots : ℕ → Prop} {m m' : Memory} {ctxs ctxs' : CtxPtr → ExecContext}
  {current current' : CtxPtr} {i j : Fin maxProcesses}

/-- The segments are those of `create_context`, with `next_free` within them. -/
structure ContextOk (ctx : ExecContext) : Prop where
  segments : ∀ seg, ctx.mms seg = { initSegments ctx.mms seg with nextFree := (ctx.mms seg).nextFree }
  code_next : (ctx.mms .code).nextFree = codeStart + codePages <<< pageShift
  rodata_next : rodataStart ≤ (ctx.mms .rodata).nextFree ∧ (ctx.mms .rodata).nextFree < dataStart ∧
    (ctx.mms .rodata).nextFree % pageSize = 0
  data_next : dataStart ≤ (ctx.mms .data).nextFree ∧
    (ctx.mms .data).nextFree < stackStart - maxStackSize ∧ (ctx.mms .data).nextFree % pageSize = 0
  stack_next : (ctx.mms .stack).nextFree = stackTopPage

structure SwapperOk (ctx : ExecContext) : Prop where
  pid_eq : ctx.pid = 0
  pgd_eq : ctx.pgd = swapperPgd
  in_use : ctx.state ≠ .unused
  cs_eq : ctx.regs.entryCs = kernelCs
  no_alarm : ctx.ticksToAlarm = 0

/-- The record keeps its number, its page table and its kernel stack. -/
structure SameSpace (ctx ctx' : ExecContext) : Prop where
  pid_eq : ctx'.pid = ctx.pid
  pgd_eq : ctx'.pgd = ctx.pgd
  stack_eq : ctx'.osStackPfn = ctx.osStackPfn
  rsp_eq : ctx'.osRsp = ctx.osRsp

theorem SameSpace.refl (ctx : ExecContext) : SameSpace ctx ctx := ⟨rfl, rfl, rfl, rfl⟩

/-- A frame that can serve as a kernel stack. -/
structure StackOk (roots : ℕ → Prop) (m : Memory) (pfn : ℕ) : Prop where
  usable : Region.osPt.Usable pfn
  allocated : m.allocated .osPt pfn = true
  not_table : ¬ m.phys.IsTable roots pfn

/-- The swapper, or a process with a complete address space. -/
def HasStack (m : Memory) (ctxs : CtxPtr → ExecContext) (i : Fin maxProcesses) : Prop :=
  some i = swapper ∨ Live ctxs i ∧ KernelMapped m (ctxs (some i)).pgd

structure Sound (intact : Fin maxProcesses → Prop) (roots : ℕ → Prop) (m : Memory) (ctxs : CtxPtr → ExecContext)
    (current : CtxPtr) : Prop where
  tables : Tables roots m
  live_root : ∀ i, Live ctxs i → roots (ctxs (some i)).pgd
  swapper_ok : SwapperOk (ctxs swapper)
  context_ok : ∀ i, Live ctxs i → ContextOk (ctxs (some i))
  pid_eq : ∀ i, Live ctxs i → (ctxs (some i)).pid = i
  rsp_eq : ∀ i, (ctxs (some i)).state ≠ .unused →
    (ctxs (some i)).osRsp = Kernel.stackTop (ctxs (some i)).osStackPfn
  saved_cs : ∀ i, Live ctxs i → current ≠ some i → (ctxs (some i)).regs.entryCs = userCs
  root_case : ∀ i, Live ctxs i → KernelMapped m (ctxs (some i)).pgd ∨
    m.phys.entry (ctxs (some i)).pgd [0, 0] 0 = 0
  whole : ∀ i, intact i → Live ctxs i → KernelMapped m (ctxs (some i)).pgd
  anchors : ∀ i, Live ctxs i → KernelMapped m (ctxs (some i)).pgd →
    ∀ addr, Anchor addr → m.phys.pageEntry (ctxs (some i)).pgd addr ≠ 0
  stack_ok : ∀ i, HasStack m ctxs i → StackOk roots m (ctxs (some i)).osStackPfn
  stack_inj : ∀ i j, HasStack m ctxs i → HasStack m ctxs j →
    (ctxs (some i)).osStackPfn = (ctxs (some j)).osStackPfn → i = j
  pmd_ok : m.osPmdPfn < 2 ^ 32 ∧ m.osPmdPfn ≠ (ctxs swapper).osStackPfn
  read_only : ∀ r, roots r → ReadOnly m r
  top_writable : ∀ i, Live ctxs i → KernelMapped m (ctxs (some i)).pgd →
    (m.phys.entry (ctxs (some i)).pgd [] 0).testBit 1 = true

namespace ContextOk

variable {ctx : ExecContext}

theorem start_eq (h : ContextOk ctx) (seg : MmSeg) : (ctx.mms seg).start = (initSegments ctx.mms seg).start :=
  (congrArg MmSegment.start (h.segments seg) :)

theorem stop_eq (h : ContextOk ctx) (seg : MmSeg) : (ctx.mms seg).stop = (initSegments ctx.mms seg).stop :=
  (congrArg MmSegment.stop (h.segments seg) :)

theorem flags_eq (h : ContextOk ctx) (seg : MmSeg) :
    (ctx.mms seg).accessFlags = (initSegments ctx.mms seg).accessFlags :=
  (congrArg MmSegment.accessFlags (h.segments seg) :)

/-- The pages that a fault can map. -/
theorem demandPaged_iff (h : ContextOk ctx) (cr2 errorCode : ℕ) :
    demandPaged ctx cr2 errorCode = true ↔
      errorCode &&& 0x1 = 0 ∧
        ((dataStart ≤ cr2 ∧ cr2 < (ctx.mms .data).nextFree) ∨
          (rodataStart ≤ cr2 ∧ cr2 < (ctx.mms .rodata).nextFree ∧ errorCode &&& 0x2 = 0) ∨
          (stackStart - maxStackSize ≤ cr2 ∧ cr2 < stackTopPage)) := by
  have hdata := h.data_next
  have hrodata := h.rodata_next
  have hdataStart : (ctx.mms .data).start = dataStart := h.start_eq .data
  have hdataStop : (ctx.mms .data).stop = stackStart - maxStackSize - 1 := h.stop_eq .data
  have hrodataStart : (ctx.mms .rodata).start = rodataStart := h.start_eq .rodata
  have hrodataStop : (ctx.mms .rodata).stop = dataStart - 1 := h.stop_eq .rodata
  have hstackStart : (ctx.mms .stack).start = stackStart - maxStackSize := h.start_eq .stack
  have hstackStop : (ctx.mms .stack).stop = stackStart := h.stop_eq .stack
  have hstackNext : (ctx.mms .stack).nextFree = stackTopPage := h.stack_next
  unfold demandPaged
  rw [hdataStart, hdataStop, hrodataStart, hrodataStop, hstackStart, hstackStop, hstackNext]
  generalize (ctx.mms .data).nextFree = data at *
  generalize (ctx.mms .rodata).nextFree = rodata at *
  generalize errorCode &&& 0x1 = present
  generalize errorCode &&& 0x2 = write
  have hconsts : dataStart = 6442450944 ∧ rodataStart = 5368709120 ∧ stackStart = 34359738368 ∧
      maxStackSize = 16777216 ∧ stackTopPage = 34359734272 := by decide
  split
  · simp only [Bool.false_eq_true, false_iff]
    omega
  split
  · rw [decide_eq_true_eq]
    omega
  split
  · rw [decide_eq_true_eq]
    omega
  split
  · rw [decide_eq_true_eq]
    omega
  · simp only [Bool.false_eq_true, false_iff]
    omega

theorem userAddr_of_demand (h : ContextOk ctx) {cr2 errorCode : ℕ}
    (hdemand : demandPaged ctx cr2 errorCode = true) : UserAddr cr2 := by
  obtain ⟨-, hrange⟩ := (h.demandPaged_iff cr2 errorCode).1 hdemand
  have hdata := h.data_next
  have hrodata := h.rodata_next
  generalize (ctx.mms .data).nextFree = data at *
  generalize (ctx.mms .rodata).nextFree = rodata at *
  simp only [dataStart, rodataStart, stackStart, maxStackSize, stackTopPage, pageSize] at *
  constructor <;> omega

/-- A page below the DATA segment is mapped without the write bit. -/
theorem read_only_of_demand (h : ContextOk ctx) {cr2 errorCode : ℕ} (hdemand : demandPaged ctx cr2 errorCode = true)
    (hlow : cr2 < dataStart) : (pageTableStyle errorCode).flags = 0x5 := by
  obtain ⟨-, hrange⟩ := (h.demandPaged_iff cr2 errorCode).1 hdemand
  have hwrite : errorCode &&& 0x2 = 0 := by
    rcases hrange with ⟨hdata, -⟩ | ⟨-, -, hwrite⟩ | ⟨hstack, -⟩
    · omega
    · exact hwrite
    · simp only [dataStart, stackStart, maxStackSize] at *
      omega
  have hbit : errorCode.testBit 1 = false := by
    have hand : (errorCode &&& 0x2).testBit 1 = false := by
      rw [hwrite]
      rfl
    rwa [Nat.testBit_and, show Nat.testBit 0x2 1 = true from rfl, Bool.and_true] at hand
  rw [pageTableStyle_flags, hbit]
  rfl

end ContextOk

/-- The processor finds only frames of the user region at user privilege. -/
theorem Tables.hwWalk_usable (h : Tables roots m) {root addr : ℕ} (hroot : roots root) {mapping : Mapping}
    (hwalk : hwWalk m.phys root addr = some mapping) (huser : mapping.user = true) :
    Region.user.Usable mapping.pfn := by
  have hslot : UserSlot (tablePath addr) (pteIndex addr) := by
    by_contra hslot
    rw [h.hwWalk_not_user hroot hslot hwalk] at huser
    exact Bool.noConfusion huser
  rcases h.page_cases hroot hslot with ⟨-, -, hnone⟩ | ⟨_, _, _, -, husable, -, -, -, hsome⟩
  · rw [hnone] at hwalk
    exact absurd hwalk (by simp)
  · rw [hsome] at hwalk
    cases hwalk
    exact husable

/-- Freeing a frame that is no table keeps the tables. -/
theorem Tables.osPfnFree_osPt (h : Tables roots m) {pfn : ℕ} (hpfn : Region.osPt.Usable pfn)
    (htable : ¬ m.phys.IsTable roots pfn) : Tables roots (osPfnFree .osPt pfn m) := by
  refine h.congr (regionsOk_osPfnFree h.regions_ok (Or.inl rfl)) rfl (fun _ _ ↦ rfl) fun frame hframe ↦ ?_
  refine (allocated_osPfnFree h.regions_ok hpfn .osPt frame).2 ⟨h.table_allocated frame hframe, ?_⟩
  rintro ⟨-, rfl⟩
  exact htable hframe

theorem kernelMapped_osPfnFree (region : Region) (pfn : ℕ) {root : ℕ} :
    KernelMapped (osPfnFree region pfn m) root ↔ KernelMapped m root :=
  ⟨fun h ↦ ⟨h.window, h.apic⟩, fun h ↦ ⟨h.window, h.apic⟩⟩

/-- A table with kernel mappings has a first entry. -/
theorem KernelMapped.top_ne_zero {root : ℕ} (h : KernelMapped m root) : m.phys.entry root [] 0 ≠ 0 := by
  obtain ⟨table, htable, -⟩ := walk_of_entryAt_ne_zero (h.window 0 (by decide))
  intro hzero
  have hnone : m.phys.tableAt root [0] = none := by
    rw [← List.nil_append [0], PhysMem.tableAt_concat_entry, hzero, tableOf_zero]
  rw [← List.singleton_append, show walk tableOf m.phys root ([0] ++ [0]) = m.phys.tableAt root ([0] ++ [0]) from rfl,
    PhysMem.tableAt_append_none hnone] at htable
  exact absurd htable (by simp)

namespace Sound

/-- The process table does not change while the address spaces of its processes persist. -/
theorem persists {spaces roots' : ℕ → Prop} (h : Sound intact roots m ctxs current)
    (hpersists : Persists spaces roots roots' m m') (hspaces : ∀ i, Live ctxs i → spaces (ctxs (some i)).pgd) :
    Sound intact roots' m' ctxs current := by
  have hmapped : ∀ i, Live ctxs i → KernelMapped m' (ctxs (some i)).pgd → KernelMapped m (ctxs (some i)).pgd :=
    fun i hi ↦ (hpersists.kernelMapped_iff (hspaces i hi)).1
  have hstack : ∀ i, HasStack m' ctxs i → HasStack m ctxs i := fun i hi ↦
    hi.imp id fun hand ↦ ⟨hand.1, hmapped i hand.1 hand.2⟩
  constructor
  case tables => exact hpersists.tables
  case live_root => exact fun i hi ↦ hpersists.root_kept _ (hspaces i hi)
  case swapper_ok => exact h.swapper_ok
  case context_ok => exact h.context_ok
  case pid_eq => exact h.pid_eq
  case rsp_eq => exact h.rsp_eq
  case saved_cs => exact h.saved_cs
  case root_case =>
    exact fun i hi ↦ (h.root_case i hi).imp (hpersists.kernelMapped_iff (hspaces i hi)).2
      (hpersists.window_clear (hspaces i hi))
  case whole => exact fun i hintact hi ↦ (hpersists.kernelMapped_iff (hspaces i hi)).2 (h.whole i hintact hi)
  case anchors =>
    intro i hi hi' addr haddr
    exact hpersists.anchors _ addr (hspaces i hi) haddr (h.anchors i hi (hmapped i hi hi') addr haddr)
  case stack_ok =>
    intro i hi
    have hold := h.stack_ok i (hstack i hi)
    exact ⟨hold.usable, hpersists.still_allocated _ hold.allocated,
      fun htable ↦ hold.not_table (hpersists.not_table _ hold.allocated htable)⟩
  case stack_inj => exact fun i j hi hj ↦ h.stack_inj i j (hstack i hi) (hstack j hj)
  case pmd_ok =>
    rcases hpersists.pmd_eq with hsame | ⟨hsmall, hclear⟩
    · rw [hsame]
      exact h.pmd_ok
    · refine ⟨hsmall, fun heq ↦ ?_⟩
      have hold := (h.stack_ok _ (Or.inl swapper_eq.symm)).allocated
      rw [← swapper_eq, ← heq, hclear] at hold
      exact Bool.noConfusion hold
  case read_only => exact hpersists.read_only h.read_only
  case top_writable =>
    intro i hi hi'
    have hold := hmapped i hi hi'
    rw [hpersists.top_eq _ (hspaces i hi) hold.top_ne_zero]
    exact h.top_writable i hi hold

theorem carries (h : Sound intact roots m ctxs current) (hcarries : Carries roots m m') :
    Sound intact roots m' ctxs current := h.persists hcarries h.live_root

/-- Records may change but for their page table, kernel stack and number, as long as no process comes to
life. -/
theorem recontext (h : Sound intact roots m ctxs current) (hswapper : SwapperOk (ctxs' swapper))
    (hspace : SameSpace (ctxs swapper) (ctxs' swapper))
    (hlive : ∀ i, Live ctxs' i → Live ctxs i ∧ SameSpace (ctxs (some i)) (ctxs' (some i)) ∧
      ContextOk (ctxs' (some i)))
    (hsaved : ∀ i, Live ctxs' i → current' ≠ some i → (ctxs' (some i)).regs.entryCs = userCs) :
    Sound intact roots m ctxs' current' := by
  have hsame : ∀ i, HasStack m ctxs' i → HasStack m ctxs i ∧
      (ctxs' (some i)).osStackPfn = (ctxs (some i)).osStackPfn := by
    intro i hi
    rcases hi with hi | ⟨hi, hmapped⟩
    · refine ⟨Or.inl hi, ?_⟩
      rw [hi]
      exact hspace.stack_eq
    · obtain ⟨hold, hseat, -⟩ := hlive i hi
      rw [hseat.pgd_eq] at hmapped
      exact ⟨Or.inr ⟨hold, hmapped⟩, hseat.stack_eq⟩
  refine ⟨h.tables, fun i hi ↦ ?_, hswapper, fun i hi ↦ (hlive i hi).2.2, fun i hi ↦ ?_, fun i hi ↦ ?_, hsaved,
    fun i hi ↦ ?_, fun i hintact hi ↦ ?_, fun i hi hmapped ↦ ?_, fun i hi ↦ ?_, fun i j hi hj heq ↦ ?_, ?_,
    h.read_only, fun i hi hmapped ↦ ?_⟩
  · rw [(hlive i hi).2.1.pgd_eq]
    exact h.live_root i (hlive i hi).1
  · exact (hlive i hi).2.1.pid_eq.trans (h.pid_eq i (hlive i hi).1)
  · by_cases hzero : i.val = 0
    · have hi' : some i = swapper := by
        rw [swapper_eq]
        exact congrArg some (Fin.ext hzero)
      rw [hi', hspace.rsp_eq, hspace.stack_eq, swapper_eq]
      exact h.rsp_eq _ (swapper_eq ▸ h.swapper_ok.in_use)
    · obtain ⟨hold, hseat, -⟩ := hlive i ⟨hzero, hi⟩
      rw [hseat.rsp_eq, hseat.stack_eq]
      exact h.rsp_eq i hold.2
  · rw [(hlive i hi).2.1.pgd_eq]
    exact h.root_case i (hlive i hi).1
  · rw [(hlive i hi).2.1.pgd_eq]
    exact h.whole i hintact (hlive i hi).1
  · rw [(hlive i hi).2.1.pgd_eq] at hmapped ⊢
    exact h.anchors i (hlive i hi).1 hmapped
  · rw [(hsame i hi).2]
    exact h.stack_ok i (hsame i hi).1
  · rw [(hsame i hi).2, (hsame j hj).2] at heq
    exact h.stack_inj i j (hsame i hi).1 (hsame j hj).1 heq
  · rw [hspace.stack_eq]
    exact h.pmd_ok
  · rw [(hlive i hi).2.1.pgd_eq] at hmapped ⊢
    exact h.top_writable i (hlive i hi).1 hmapped

/-- A kernel stack that is given up is freed. -/
theorem free_stack (h : Sound intact roots m ctxs current) {pfn : ℕ} (hpfn : Region.osPt.Usable pfn)
    (htable : ¬ m.phys.IsTable roots pfn)
    (hother : ∀ i, HasStack m ctxs i → (ctxs (some i)).osStackPfn ≠ pfn) :
    Sound intact roots (osPfnFree .osPt pfn m) ctxs current := by
  have hstack : ∀ i, HasStack (osPfnFree .osPt pfn m) ctxs i → HasStack m ctxs i := fun i hi ↦
    hi.imp id fun hand ↦ ⟨hand.1, (kernelMapped_osPfnFree _ _).1 hand.2⟩
  refine ⟨h.tables.osPfnFree_osPt hpfn htable, h.live_root, h.swapper_ok, h.context_ok, h.pid_eq, h.rsp_eq, h.saved_cs,
    fun i hi ↦ (h.root_case i hi).imp (kernelMapped_osPfnFree _ _).2 id,
    fun i hintact hi ↦ (kernelMapped_osPfnFree _ _).2 (h.whole i hintact hi),
    fun i hi hmapped ↦ h.anchors i hi ((kernelMapped_osPfnFree _ _).1 hmapped), fun i hi ↦ ?_,
    fun i j hi hj ↦ h.stack_inj i j (hstack i hi) (hstack j hj), h.pmd_ok, h.read_only,
    fun i hi hmapped ↦ h.top_writable i hi ((kernelMapped_osPfnFree _ _).1 hmapped)⟩
  have hold := h.stack_ok i (hstack i hi)
  refine ⟨hold.usable, ?_, hold.not_table⟩
  exact (allocated_osPfnFree h.tables.regions_ok hpfn .osPt _).2
    ⟨hold.allocated, fun hand ↦ hother i (hstack i hi) hand.2⟩

end Sound

end GemOS
