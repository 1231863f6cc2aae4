import GemOS.Process.CallInvariant
import GemOS.Process.Offspring
import GemOS.Process.TableEffects

/-!
# A new process in the process table

`do_fork` and `do_clone` put a record into a free slot. With granted allocations the new process has a kernel stack
and an address space of its own, or shares that of its parent; a fork that was cut short leaves a record with a page
table that was only begun, and its slot is no longer known to be intact.
-/

namespace GemOS

open Foundation Memory Kernel

variable {intact intact' : Fin maxProcesses → Prop} {roots roots' : ℕ → Prop} {m m' : Memory}
  {ctxs : CtxPtr → ExecContext} {current child : CtxPtr} {k k' : Kernel} {i j : Fin maxProcesses} {record : ExecContext}

/-- A complete address space, and a kernel stack that no process of the table uses. -/
structure Housed (roots : ℕ → Prop) (m : Memory) (ctxs : CtxPtr → ExecContext) (record : ExecContext) : Prop where
  mapped : KernelMapped m record.pgd
  anchors : ∀ addr, Anchor addr → m.phys.pageEntry record.pgd addr ≠ 0
  top_writable : (m.phys.entry record.pgd [] 0).testBit 1 = true
  stack_ok : StackOk roots m record.osStackPfn
  stack_fresh : ∀ j, HasStack m ctxs j → (ctxs (some j)).osStackPfn ≠ record.osStackPfn

/-- A record that may enter the table. -/
structure Newcomer (intact : Fin maxProcesses → Prop) (roots : ℕ → Prop) (m : Memory) (ctxs : CtxPtr → ExecContext)
    (current : CtxPtr) (i : Fin maxProcesses) (record : ExecContext) : Prop where
  slot : i.val ≠ 0
  vacant : ¬ Live ctxs i
  root : roots record.pgd
  context_ok : ContextOk record
  pid_eq : record.pid = i
  rsp_eq : record.osRsp = Kernel.stackTop record.osStackPfn
  saved_cs : current ≠ some i → record.regs.entryCs = userCs
  space : Housed roots m ctxs record ∨ ¬ intact i ∧ m.phys.entry record.pgd [0, 0] 0 = 0

theorem not_kernelMapped_of_clear {root : ℕ} (hclear : m.phys.entry root [0, 0] 0 = 0) : ¬ KernelMapped m root :=
  fun hmapped ↦ hmapped.window 0 (by decide) hclear

namespace Sound

/-- Nothing is asked of fewer slots than before. -/
theorem mono (h : Sound intact roots m ctxs current) (hsub : ∀ i, intact' i → intact i) :
    Sound intact' roots m ctxs current :=
  { h with whole := fun i hintact hi ↦ h.whole i (hsub i hintact) hi }

/-- A free slot is not that of the swapper, and no process is there. -/
theorem free_slot (h : Sound intact roots m ctxs current) (hfree : (ctxs (some j)).state = .unused) :
    j.val ≠ 0 ∧ ¬ Live ctxs j := by
  refine ⟨fun hzero ↦ ?_, fun hlive ↦ hlive.2 hfree⟩
  have hswapper := h.swapper_ok.in_use
  rw [show swapper = some j from congrArg some (Fin.ext hzero.symm)] at hswapper
  exact hswapper hfree

/-- A record enters the table. -/
theorem insert (h : Sound intact roots m ctxs current) (hnew : Newcomer intact roots m ctxs current i record) :
    Sound intact roots m (Function.update ctxs (some i) record) current := by
  have hself : Function.update ctxs (some i) record (some i) = record := Function.update_self ..
  have hother : ∀ j, j ≠ i → Function.update ctxs (some i) record (some j) = ctxs (some j) := fun j hj ↦
    Function.update_of_ne (fun heq ↦ hj (Option.some.inj heq)) _ _
  have hswapper : Function.update ctxs (some i) record swapper = ctxs swapper := by
    apply Function.update_of_ne
    rw [swapper_eq]
    exact fun heq ↦ hnew.slot (congrArg Fin.val (Option.some.inj heq)).symm
  generalize Function.update ctxs (some i) record = ctxs' at *
  have hlive : ∀ j, j ≠ i → Live ctxs' j → Live ctxs j := fun j hj hlive ↦ ⟨hlive.1, hother j hj ▸ hlive.2⟩
  have hcase : ∀ {P : Fin maxProcesses → ExecContext → Prop}, P i record → (∀ j, Live ctxs j → P j (ctxs (some j))) →
      ∀ j, Live ctxs' j → P j (ctxs' (some j)) := by
    intro P hi hj j hlive'
    by_cases heq : j = i
    · rw [heq, hself]
      exact hi
    · rw [hother j heq]
      exact hj j (hlive j heq hlive')
  have hhoused : KernelMapped m record.pgd → Housed roots m ctxs record := fun hmapped ↦
    hnew.space.resolve_right fun hand ↦ not_kernelMapped_of_clear hand.2 hmapped
  have hstack : ∀ j, HasStack m ctxs' j →
      j ≠ i ∧ HasStack m ctxs j ∨ j = i ∧ Housed roots m ctxs record := by
    intro j hj
    by_cases heq : j = i
    · refine Or.inr ⟨heq, hhoused ?_⟩
      rcases hj with hzero | ⟨-, hmapped⟩
      · rw [swapper_eq] at hzero
        exact absurd (congrArg Fin.val (Option.some.inj hzero)) (heq ▸ hnew.slot)
      · rwa [heq, hself] at hmapped
    · refine Or.inl ⟨heq, hj.imp id fun hand ↦ ⟨hlive j heq hand.1, ?_⟩⟩
      rw [← hother j heq]
      exact hand.2
  constructor
  case tables => exact h.tables
  case live_root => exact hcase (P := fun _ ctx ↦ roots ctx.pgd) hnew.root h.live_root
  case swapper_ok =>
    rw [hswapper]
    exact h.swapper_ok
  case context_ok => exact hcase (P := fun _ ctx ↦ ContextOk ctx) hnew.context_ok h.context_ok
  case pid_eq => exact hcase (P := fun j ctx ↦ ctx.pid = j) hnew.pid_eq h.pid_eq
  case rsp_eq =>
    intro j hj
    by_cases heq : j = i
    · rw [heq, hself]
      exact hnew.rsp_eq
    · rw [hother j heq] at hj ⊢
      exact h.rsp_eq j hj
  case saved_cs =>
    exact fun j hj hne ↦ hcase (P := fun j ctx ↦ current ≠ some j → ctx.regs.entryCs = userCs) hnew.saved_cs h.saved_cs
      j hj hne
  case root_case =>
    refine hcase (P := fun _ ctx ↦ KernelMapped m ctx.pgd ∨ m.phys.entry ctx.pgd [0, 0] 0 = 0) ?_ h.root_case
    exact hnew.space.imp Housed.mapped And.right
  case whole =>
    refine fun j hintact hj ↦ hcase (P := fun j ctx ↦ intact j → KernelMapped m ctx.pgd) (fun hi ↦ ?_)
      (fun j hj hintact ↦ h.whole j hintact hj) j hj hintact
    exact (hnew.space.resolve_right fun hand ↦ hand.1 hi).mapped
  case anchors =>
    exact hcase (P := fun _ ctx ↦ KernelMapped m ctx.pgd → ∀ addr, Anchor addr → m.phys.pageEntry ctx.pgd addr ≠ 0)
      (fun hmapped ↦ (hhoused hmapped).anchors) h.anchors
  case stack_ok =>
    intro j hj
    rcases hstack j hj with ⟨hne, hold⟩ | ⟨rfl, hnewcomer⟩
    · rw [hother j hne]
      exact h.stack_ok j hold
    · rw [hself]
      exact hnewcomer.stack_ok
  case stack_inj =>
    intro j j' hj hj' heq
    rcases hstack j hj with ⟨hne, hold⟩ | ⟨rfl, hnewcomer⟩ <;> rcases hstack j' hj' with ⟨hne', hold'⟩ | ⟨rfl, -⟩
    · rw [hother j hne, hother j' hne'] at heq
      exact h.stack_inj j j' hold hold' heq
    · rw [hother j hne, hself] at heq
      have hnewcomer := (hstack j' hj').resolve_left fun hand ↦ hand.1 rfl
      exact absurd heq (hnewcomer.2.stack_fresh j hold)
    · rw [hother j' hne', hself] at heq
      exact absurd heq.symm (hnewcomer.stack_fresh j' hold')
    · rfl
  case pmd_ok =>
    rw [hswapper]
    exact h.pmd_ok
  case read_only => exact h.read_only
  case top_writable =>
    exact hcase (P := fun _ ctx ↦ KernelMapped m ctx.pgd → (m.phys.entry ctx.pgd [] 0).testBit 1 = true)
      (fun hmapped ↦ (hhoused hmapped).top_writable) h.top_writable

/-- Without a free slot the record is written at `NULL`, where no process lies. -/
theorem born (h : Sound intact roots m ctxs current)
    (hnew : ∀ j, child = some j → Newcomer intact roots m ctxs current j record) :
    Sound intact roots m (Function.update ctxs child record) current := by
  cases child with
  | some j => exact h.insert (hnew j rfl)
  | none =>
    have hsame : ∀ j, Function.update ctxs none record (some j) = ctxs (some j) := fun j ↦
      Function.update_of_ne (Option.some_ne_none j) _ _
    have hswapper : Function.update ctxs none record swapper = ctxs swapper := hsame _
    generalize Function.update ctxs none record = ctxs' at *
    have hlive : ∀ j, Live ctxs' j → Live ctxs j := fun j hj ↦ ⟨hj.1, hsame j ▸ hj.2⟩
    refine h.recontext ?_ ?_ (fun j hj ↦ ⟨hlive j hj, ?_⟩) fun j hj hne ↦ ?_
    · rw [hswapper]
      exact h.swapper_ok
    · rw [hswapper]
      exact .refl _
    · rw [hsame]
      exact ⟨.refl _, h.context_ok j (hlive j hj)⟩
    · rw [hsame]
      exact h.saved_cs j (hlive j hj) hne

/-- A fresh frame as the kernel stack over a complete address space. -/
theorem housed (h : Sound intact roots m ctxs current) (hgrant : Memory.Grant .osPt m m' record.osStackPfn)
    (hroot : roots record.pgd) (hmapped : KernelMapped m record.pgd)
    (hanchors : ∀ addr, Anchor addr → m.phys.pageEntry record.pgd addr ≠ 0)
    (htop : (m.phys.entry record.pgd [] 0).testBit 1 = true) : Housed roots m' ctxs record := by
  have hcarries := Carries.of_grant h.tables hgrant
  have hclear : ∀ pfn, m.allocated .osPt pfn = true → pfn ≠ record.osStackPfn := by
    rintro _ hpfn rfl
    rw [hgrant.not_allocated] at hpfn
    exact Bool.noConfusion hpfn
  refine ⟨(hcarries.kernelMapped_iff hroot).2 hmapped, fun addr haddr ↦
    hcarries.anchors _ addr hroot haddr (hanchors addr haddr),
    ?_, ⟨hgrant.usable, (hgrant.allocated_iff _ _).2 (Or.inr ⟨rfl, rfl⟩), fun htable ↦ ?_⟩, fun j hj ↦ ?_⟩
  · rw [hcarries.top_eq _ hroot hmapped.top_ne_zero]
    exact htop
  · refine h.tables.not_isTable_of_clear hgrant.not_allocated ?_
    exact (Tables.isTable_congr (fun _ ↦ h.tables.grant_phys hgrant) _).1 htable
  · refine hclear _ (h.stack_ok j (hj.imp id fun hand ↦ ⟨hand.1, ?_⟩)).allocated
    exact (hcarries.kernelMapped_iff (h.live_root j hand.1)).1 hand.2

end Sound

theorem InUser.mono (h : InUser intact roots k i) (hsub : ∀ i, intact' i → intact i) : InUser intact' roots k i :=
  { h with sound := h.sound.mono hsub }

/-- The current process makes a record. -/
theorem InUser.born (h : InUser intact roots k i) (hborn : Born child record k k') (hne : k.current ≠ child)
    (hpersists : Persists roots roots roots' k.mem k'.mem)
    (hnew : ∀ j, child = some j → Newcomer intact roots' k'.mem k.ctxs k.current j record) :
      InUser intact roots' k' i := by
  have hself : k'.ctxs (some i) = k.ctxs (some i) := hborn.of_ne (h.current_eq ▸ hne)
  refine ⟨?_, hborn.mode_eq.trans h.mode_eq, hborn.current_eq.trans h.current_eq, ⟨h.live.1, hself ▸ h.live.2⟩, ?_, ?_,
    (congrArg UserRegs.entryCs hborn.regs_eq).trans h.cs_eq⟩
  · rw [hborn.ctxs_eq, hborn.current_eq]
    exact (h.sound.persists hpersists h.sound.live_root).born hnew
  · rw [hself]
    exact (hpersists.kernelMapped_iff (h.sound.live_root i h.live)).2 h.mapped
  · rw [hborn.cr3_eq, hself]
    exact h.cr3_eq

theorem getNewCtx_mem (k : Kernel) : k.getNewCtx.2.mem = k.mem := by
  rcases k.getNewCtx_cases with ⟨i, f, -, -, -, hnew⟩ | ⟨-, hnew⟩
  · rw [hnew]
    rfl
  · rw [hnew]

/-- `setup_child_context` gives the child a kernel stack. -/
theorem setupChildContext_stack (child : CtxPtr) (k : Kernel) {E : Kernel → Prop} :
    Spec (setupChildContext child) k
      (fun _ k' ↦ k'.mem = (osPfnAlloc .osPt k.mem).2 ∧ Born child { k.ctxs child with
        osStackPfn := (osPfnAlloc .osPt k.mem).1, osRsp := stackTop (osPfnAlloc .osPt k.mem).1,
        state := .ready } k k') E := by
  unfold setupChildContext
  apply Spec.call_bind
  exact Spec.update ⟨rfl, rfl, rfl, rfl, rfl, rfl, rfl, rfl⟩

/-- Where a call that makes a record may end: at the current process, with one page table more, or after a fork that
was cut short at any state of the invariant in which less is known of a slot that was free. -/
abbrev Breeds (intact : Fin maxProcesses → Prop) (i : Fin maxProcesses) {α : Type}
    (p : Prog Kernel α) (k : Kernel) : Prop :=
  Spec p k (fun _ k' ↦ k ≤ k' ∧ (k'.mem.AllocsGranted → ∃ roots, InUser intact roots k' i)) fun k' ↦
    k ≤ k' ∧ (k'.mem.AllocsGranted → Inv (fun j ↦ intact j ∧ (k.ctxs (some j)).state ≠ .unused) k')

/-- The record of a fork, at the end or when it was cut short. -/
def ExecContext.forked (ctx : ExecContext) (pid pgd : ℕ) : ExecContext :=
  { ctx with pid := pid, ppid := ctx.pid, pgd := pgd }

theorem Born.withTable {k₁ : Kernel} {pid : ℕ}
    (h : Born child { k.ctx with pid := pid, ppid := k.ctx.pid } k k₁) (pgd : ℕ) (m : Memory) :
    Born child (k.ctx.forked pid pgd) k (k₁.withTable child pgd m) := by
  refine h.trans ⟨?_, rfl, rfl, rfl, rfl, rfl, rfl⟩
  change Function.update k₁.ctxs child _ = _
  rw [h.self]
  rfl

/-- `do_fork`. -/
theorem keeps_doFork (h : InUser intact roots k i) (hsaved : k.ctx.regs = k.regs) : Breeds intact i doFork k := by
  obtain ⟨record, hborn, -, hslot, -⟩ := k.getNewCtx_born
  have hmem := getNewCtx_mem k
  have hbusy : k.ctx.state ≠ .unused := h.ctx_eq ▸ h.live.2
  unfold doFork
  apply Spec.call_bind
  apply Spec.read_bind
  apply Spec.update_bind
  generalize k.getNewCtx.1 = child at *
  generalize k.getNewCtx.2 = k₁ at *
  have hne := current_ne_child h.current_eq hbusy fun j hj ↦ (hslot j hj).2
  have hcopy : Born child { k.ctx with pid := record.pid, ppid := k.ctx.pid } k (copyRecord child k₁) := by
    refine hborn.trans ⟨?_, rfl, rfl, rfl, rfl, rfl, rfl⟩
    rw [← hborn.ctx_eq hne, ← hborn.self]
    rfl
  have hcopied : (copyRecord child k₁).mem = k.mem := hmem
  have hne₂ : (copyRecord child k₁).current ≠ child := hcopy.current_eq ▸ hne
  have hctx := hcopy.ctx_eq hne
  generalize copyRecord child k₁ = k₂ at *
  have hroot := h.sound.live_root i h.live
  have hparent := hroot
  rw [← h.ctx_eq, ← hctx] at hparent
  have hanchors : k₂.mem.AllocsGranted → ∀ addr, Anchor addr → k₂.mem.phys.pageEntry k₂.ctx.pgd addr ≠ 0 := by
    rw [hcopied, hctx, h.ctx_eq]
    exact fun _ ↦ h.sound.anchors i h.live h.mapped
  have hok : ContextOk k.ctx := h.ctx_eq.symm ▸ h.context_ok
  have hcs : k.ctx.regs.entryCs = userCs := hsaved ▸ h.cs_eq
  refine ((copyMm_builds hne₂ (hctx ▸ hok) (fun _ ↦ hcopied ▸ h.sound.tables) hparent hanchors).mono
    (fun _ _ ↦ id) ?_).bind ?_
  · -- the copy of a page faulted
    rintro k' ⟨pgd, m, hle, hbegun, hdeparts⟩
    have hborn' := hcopy.withTable pgd m
    rw [hcopied] at hle hbegun
    refine ⟨hle.trans hdeparts.le, fun hgranted ↦ ?_⟩
    have hbegun' := hbegun (hgranted.anti hdeparts.le)
    refine hdeparts.inv ((h.mono fun j ↦ And.left).born hborn' hne hbegun'.persists fun j hj ↦ ?_) hgranted
    refine ⟨(h.sound.free_slot (hslot j hj).2).1, (h.sound.free_slot (hslot j hj).2).2, Or.inr rfl, hok.of_mms rfl,
      (hslot j hj).1, ?_, fun _ ↦ hcs, Or.inr ⟨fun hand ↦ hand.2 (hslot j hj).2, hbegun'.window_clear⟩⟩
    have hrsp := h.sound.rsp_eq i h.live.2
    rw [← h.ctx_eq] at hrsp
    exact hrsp
  rintro _ _ ⟨pgd, m, rfl, hle, hfinished⟩
  rw [hcopied] at hle hfinished
  have hborn' := hcopy.withTable pgd m
  refine (setupChildContext_stack child _).bind ?_
  rintro _ k' ⟨hmem', hborn₄⟩
  rw [hborn'.self] at hborn₄
  refine Spec.pure ⟨hle.trans ?_, fun hgranted ↦ ?_⟩
  · rw [hmem']
    exact le_osPfnAlloc .osPt m
  change k'.mem = (osPfnAlloc .osPt m).2 at hmem'
  change Born child { k.ctx.forked record.pid pgd with
    osStackPfn := (osPfnAlloc .osPt m).1, osRsp := stackTop (osPfnAlloc .osPt m).1, state := .ready } _ k' at hborn₄
  rw [hmem'] at hgranted
  have hbuilt := hfinished (hgranted.anti (le_osPfnAlloc .osPt m))
  have hsound := h.sound.persists hbuilt.persists h.sound.live_root
  have hgrant := osPfnAlloc_grant hsound.tables.regions_ok hgranted
  have hpersists := hbuilt.persists.trans (Carries.of_grant hsound.tables hgrant) fun r ↦ Or.inl
  rw [← hmem'] at hpersists
  refine ⟨_, h.born (hborn'.trans hborn₄) hne hpersists fun j hj ↦ ?_⟩
  rw [hmem']
  exact ⟨(h.sound.free_slot (hslot j hj).2).1, (h.sound.free_slot (hslot j hj).2).2, Or.inr rfl, hok.of_mms rfl,
    (hslot j hj).1, rfl, fun _ ↦ hcs,
    Or.inl (hsound.housed hgrant (Or.inr rfl) hbuilt.mapped hbuilt.anchors hbuilt.top_writable)⟩

/-- What the record of a clone takes from its parent, and what it keeps. -/
theorem clone_fields (ctx old : ExecContext) (stack thFunc userStack : ℕ) :
    let clone := (cloneRecord ctx stack thFunc userStack old).setNameBytes 0 (cloneName ctx)
    clone.pid = old.pid ∧ clone.pgd = ctx.pgd ∧ clone.osStackPfn = stack ∧ clone.osRsp = stackTop stack ∧
      clone.mms = ctx.mms ∧ clone.regs.entryCs = ctx.regs.entryCs := by
  obtain ⟨hseat, hcs, hmms⟩ := setNameBytes_seat (cloneRecord ctx stack thFunc userStack old) 0 (cloneName ctx)
  exact ⟨hseat.pid_eq, hseat.pgd_eq, hseat.stack_eq, hseat.rsp_eq, hmms, hcs⟩

theorem keeps_doClone (h : InUser intact roots k i) (hsaved : k.ctx.regs = k.regs) (thFunc userStack : ℕ) :
    Keeps intact roots i (doClone thFunc userStack) k := by
  obtain ⟨record, hborn, -, hslot, -⟩ := k.getNewCtx_born
  have hmem := getNewCtx_mem k
  have hbusy : k.ctx.state ≠ .unused := h.ctx_eq ▸ h.live.2
  unfold doClone
  apply Spec.call_bind
  apply Spec.call_bind
  apply Spec.update_bind
  generalize k.getNewCtx.1 = child at *
  generalize k.getNewCtx.2 = k₁ at *
  have hne := current_ne_child h.current_eq hbusy fun j hj ↦ (hslot j hj).2
  have hctx := (hborn.ctx_eq hne).trans h.ctx_eq
  have hstack := hborn.memory (osPfnAlloc .osPt k₁.mem).2
  change Spec _ ((({ k₁ with mem := (osPfnAlloc .osPt k₁.mem).2 } : Kernel)).updateCtx child _) _ _
  rw [show (pfnAlloc .osPt k₁).1 = (osPfnAlloc .osPt k₁.mem).1 from rfl]
  rw [hmem] at hstack ⊢
  refine Spec.pure ⟨le_osPfnAlloc .osPt k.mem, fun hgranted ↦ ?_⟩
  have hgrant := osPfnAlloc_grant h.sound.tables.regions_ok hgranted
  refine h.born (hstack.trans ⟨rfl, rfl, rfl, rfl, rfl, rfl, rfl⟩) hne
    (Carries.of_grant h.sound.tables hgrant) fun j hj ↦ ?_
  have hroot := h.sound.live_root i h.live
  change Newcomer intact roots (osPfnAlloc .osPt k.mem).2 k.ctxs k.current j
    ((cloneRecord k₁.ctx _ thFunc userStack (k₁.ctxs child)).setNameBytes 0 (cloneName k₁.ctx))
  rw [hctx, hborn.self]
  obtain ⟨hpid, hpgd, hstackEq, hrsp, hmms, hcs⟩ :=
    clone_fields (k.ctxs (some i)) record (osPfnAlloc .osPt k.mem).1 thFunc userStack
  rw [← h.ctx_eq, hsaved, h.cs_eq] at hcs
  rw [h.ctx_eq] at hcs
  generalize (cloneRecord (k.ctxs (some i)) _ thFunc userStack record).setNameBytes 0 _ = clone at *
  rw [← hstackEq] at hgrant hrsp
  refine ⟨(h.sound.free_slot (hslot j hj).2).1, (h.sound.free_slot (hslot j hj).2).2, hpgd ▸ hroot,
    h.context_ok.of_mms hmms,
    hpid.trans (hslot j hj).1, hrsp, fun _ ↦ hcs, Or.inl (h.sound.housed hgrant (hpgd ▸ hroot) (hpgd ▸ h.mapped) ?_ ?_)⟩
  · rw [hpgd]
    exact h.sound.anchors i h.live h.mapped
  · rw [hpgd]
    exact h.sound.top_writable i h.live h.mapped

end GemOS
