import GemOS.Process.Machine
import GemOS.Process.Calls

/-!
# What one event does to the process table

The scheduler's view of the kernel is the process table, the current context, the two registers that
follow it (`CR3` and the `rsp0` field of the TSS) and the number of processes. An event of a user
process changes the private data of the current record (`Works`), makes a record in a free slot
(`fork`, `clone`), puts the process to sleep or ends it, or stops the run; `Turn` lists these cases with
all that the later modules need. Nothing here depends on what memory holds.
-/

namespace GemOS

open Foundation Memory Kernel

/-- The record keeps its place: what decides when and on which stack and page table it runs. -/
structure SameSeat (ctx ctx' : ExecContext) : Prop where
  pid_eq : ctx'.pid = ctx.pid
  state_eq : ctx'.state = ctx.state
  pgd_eq : ctx'.pgd = ctx.pgd
  stack_eq : ctx'.osStackPfn = ctx.osStackPfn
  rsp_eq : ctx'.osRsp = ctx.osRsp
  sleep_eq : ctx'.ticksToSleep = ctx.ticksToSleep

structure SameAlarm (ctx ctx' : ExecContext) : Prop where
  ticks_eq : ctx'.ticksToAlarm = ctx.ticksToAlarm
  config_eq : ctx'.alarmConfigTime = ctx.alarmConfigTime
  handler_eq : ctx'.sighandlers .sigalrm = ctx.sighandlers .sigalrm

/-- What an event promises about the private data of the current context. -/
structure Keeping where
  alarm : Prop
  segments : Prop

theorem SameSeat.refl (ctx : ExecContext) : SameSeat ctx ctx := ⟨rfl, rfl, rfl, rfl, rfl, rfl⟩

theorem SameAlarm.refl (ctx : ExecContext) : SameAlarm ctx ctx := ⟨rfl, rfl, rfl⟩

theorem SameSeat.trans {ctx ctx₁ ctx₂ : ExecContext} (first : SameSeat ctx ctx₁) (second : SameSeat ctx₁ ctx₂) :
    SameSeat ctx ctx₂ where
  pid_eq := second.pid_eq.trans first.pid_eq
  state_eq := second.state_eq.trans first.state_eq
  pgd_eq := second.pgd_eq.trans first.pgd_eq
  stack_eq := second.stack_eq.trans first.stack_eq
  rsp_eq := second.rsp_eq.trans first.rsp_eq
  sleep_eq := second.sleep_eq.trans first.sleep_eq

theorem SameAlarm.trans {ctx ctx₁ ctx₂ : ExecContext} (first : SameAlarm ctx ctx₁)
    (second : SameAlarm ctx₁ ctx₂) : SameAlarm ctx ctx₂ where
  ticks_eq := second.ticks_eq.trans first.ticks_eq
  config_eq := second.config_eq.trans first.config_eq
  handler_eq := second.handler_eq.trans first.handler_eq

/-- The tables agree but for the private data of the current context and the record of `child`. The
record at `NULL` counts as the child of a call that found the table full; where there is no child,
`child` is `NULL` as well, and nothing is said about what lies there. -/
structure Holds (A : Keeping) (child : CtxPtr) (k k' : Kernel) : Prop where
  current_eq : k'.current = k.current
  rsp0_eq : k'.rsp0 = k.rsp0
  cs_eq : k'.regs.entryCs = k.regs.entryCs
  dispatches_eq : k'.dispatches = k.dispatches
  others : ∀ j, some j ≠ k.current → some j ≠ child → k'.ctxs (some j) = k.ctxs (some j)
  seat : SameSeat k.ctx k'.ctx
  name_eq : k'.ctx.name = k.ctx.name
  alarm : A.alarm → SameAlarm k.ctx k'.ctx
  segments : A.segments → k'.ctx.mms = k.ctx.mms

/-- The current context keeps the processor; only private data changed. -/
structure Works (A : Keeping) (k k' : Kernel) : Prop extends Holds A none k k' where
  mode_eq : k'.mode = k.mode
  cr3_eq : k'.cr3 = k.cr3
  processes_eq : k'.stats.numProcesses = k.stats.numProcesses

/-- The slot that `get_new_ctx` took and the record that was made there. -/
structure Spawned (child : CtxPtr) (k k' : Kernel) : Prop where
  vacant : ∀ j, child = some j → (k.ctxs (some j)).state = .unused
  full : child = none → ∀ j, (k.ctxs (some j)).state ≠ .unused
  pid_eq : ∀ j, child = some j → (k'.ctxs (some j)).pid = j
  cs_eq : ∀ j, child = some j → (k'.ctxs (some j)).regs.entryCs = k.regs.entryCs
  mms_eq : ∀ j, child = some j → (k'.ctxs (some j)).mms = k.ctx.mms
  name_bytes : ∀ j, child = some j → k.ctx.NameBytes → (k.ctxs (some j)).NameBytes →
    (k'.ctxs (some j)).NameBytes

/-- The event is this system call. -/
def Asks (event : Event) (k : Kernel) (call : Syscall) : Prop :=
  (∃ peek, event = .syscall peek) ∧ k.syscallRequested = some call

instance (event : Event) (k : Kernel) (call : Syscall) : Decidable (Asks event k call) :=
  match event with
  | .syscall peek => decidable_of_iff (k.syscallRequested = some call) ⟨fun h ↦ ⟨⟨peek, rfl⟩, h⟩, And.right⟩
  | .launch _ _ | .compute _ | .load _ | .store _ _ | .divide | .protection | .pageFaultGate | .tick =>
    isFalse fun ⟨⟨_, heq⟩, _⟩ ↦ Event.noConfusion heq

/-- The event neither counts the alarm down nor sets it or its handler. -/
def KeepsAlarm (event : Event) (k : Kernel) : Prop :=
  event ≠ .tick ∧ ¬ Asks event k .alarm ∧
    (Asks event k .signal → signalOf k.regs.rsi = some .sigalrm → k.regs.rdx = k.ctx.sighandlers .sigalrm)

/-- The event does not move the bound of a segment. -/
def KeepsSegments (event : Event) (k : Kernel) : Prop := ¬ Asks event k .expand ∧ ¬ Asks event k .shrink

/-- What the event promises. -/
def keeping (event : Event) (k : Kernel) : Keeping := ⟨KeepsAlarm event k, KeepsSegments event k⟩

/-- The fork of the current process does not return: the copy of a page faults. -/
def ForkCut (k : Kernel) : Prop := ∀ pid k', doFork k.saveRegs ≠ .ret pid k'

instance (k : Kernel) : Decidable (ForkCut k) :=
  decidable_of_iff (¬ (doFork k.saveRegs).returns = true) (by
    rw [Outcome.returns_iff]
    constructor
    · exact fun h pid k' heq ↦ h ⟨pid, k', heq⟩
    · rintro h ⟨pid, k', heq⟩
      exact h pid k' heq)

/-- The event makes no record. -/
structure NoChild (event : Event) (k : Kernel) : Prop where
  no_fork : ¬ Asks event k .fork
  no_clone : ¬ Asks event k .clone

theorem Asks.inj {event : Event} {k : Kernel} {call call' : Syscall} (h : Asks event k call)
    (h' : Asks event k call') : call = call' := Option.some.inj (h.2.symm.trans h'.2)

theorem noChild_of_ne {event : Event} {k : Kernel} (h : ∀ peek, event ≠ .syscall peek) : NoChild event k :=
  ⟨fun ⟨⟨peek, heq⟩, _⟩ ↦ h peek heq, fun ⟨⟨peek, heq⟩, _⟩ ↦ h peek heq⟩

/-- Before the current context leaves the processor for good. -/
structure Left (event : Event) (child : CtxPtr) (k k' : Kernel) : Prop extends
    Holds (keeping event k) child k k' where
  mode_eq : k'.mode = k.mode
  cr3_eq : k'.cr3 = k.cr3 ∨ k'.cr3 = swapperPgd
  processes_eq : k'.stats.numProcesses = k.stats.numProcesses
  /-- A fork that was cut short leaves a record in the state of its parent. -/
  cut : ∀ j, child = some j → Asks event k .fork ∧ ForkCut k ∧ Spawned child k k' ∧
    (k'.ctxs (some j)).state = k.ctx.state
  no_clone : ¬ Asks event k .clone
  /-- Without such a record, the table was full, or it was no fork. -/
  full : child = none → NoChild event k ∨ ForkCut k ∧ ∀ j, (k.ctxs (some j)).state ≠ .unused

def UserRegs.setRax (regs : UserRegs) (value : ℕ) : UserRegs := { regs with rax := value }

/-- The current context leaves the processor: its process ends, or the run stops. -/
inductive Leaves (event : Event) (k : Kernel) : Kernel → Prop
  | exit {k₁ : Kernel} {child : CtxPtr} (left : Left event child k k₁) : Leaves event k k₁.doExit
  | stop {k' : Kernel} {child : CtxPtr} (stopped : Stopped k'.mode)
      (left : Left event child k (k'.withMode k.mode)) (cr3_eq : k'.cr3 = k.cr3) : Leaves event k k'

/-- What one event of a user process, the tick apart, does to the process table. -/
inductive Turn (event : Event) (k : Kernel) : Kernel → Prop
  | work {k' : Kernel} (no_child : NoChild event k) (works : Works (keeping event k) k k') : Turn event k k'
  | fork {k' : Kernel} {child : CtxPtr} (asked : Asks event k .fork) (returned : ¬ ForkCut k)
      (holds : Holds (keeping event k) child k k') (spawned : Spawned child k k')
      (mode_eq : k'.mode = k.mode) (cr3_eq : k'.cr3 = k.cr3)
      (processes_eq : k'.stats.numProcesses = (k.stats.numProcesses + 1) % 2 ^ 64)
      (ready : ∀ j, child = some j → (k'.ctxs (some j)).state = .ready)
      (child_regs : ∀ j, child = some j → (k'.ctxs (some j)).regs = k.regs)
      (regs_eq : k'.regs = k.regs.setRax (k'.ctxs child).pid) : Turn event k k'
  | clone {k' : Kernel} {child : CtxPtr} (asked : Asks event k .clone)
      (holds : Holds (keeping event k) child k k') (spawned : Spawned child k k')
      (mode_eq : k'.mode = k.mode) (cr3_eq : k'.cr3 = k.cr3)
      (processes_eq : k'.stats.numProcesses = k.stats.numProcesses)
      (ready : ∀ j, child = some j → (k'.ctxs (some j)).state = .ready)
      (shared : ∀ j, child = some j → (k'.ctxs (some j)).pgd = k.ctx.pgd) : Turn event k k'
  | sleep (asked : Asks event k .sleep) : Turn event k (k.saveRegs.doSleep k.regs.rsi)
  | leave {k' : Kernel} (leaves : Leaves event k k') : Turn event k k'

variable {A : Keeping} {event : Event} {child : CtxPtr} {k k₁ k' : Kernel}

theorem Works.of_ctxs (hctxs : k'.ctxs = k.ctxs) (hcurrent : k'.current = k.current) (hmode : k'.mode = k.mode)
    (hcr3 : k'.cr3 = k.cr3) (hrsp0 : k'.rsp0 = k.rsp0) (hcs : k'.regs.entryCs = k.regs.entryCs)
    (hprocesses : k'.stats.numProcesses = k.stats.numProcesses) (hdispatches : k'.dispatches = k.dispatches) :
    Works A k k' := by
  have hctx : k'.ctx = k.ctx := by rw [Kernel.ctx, Kernel.ctx, hctxs, hcurrent]
  refine ⟨⟨hcurrent, hrsp0, hcs, hdispatches, fun j _ _ ↦ ?_, ?_, ?_, fun _ ↦ ?_, fun _ ↦ ?_⟩, hmode, hcr3, hprocesses⟩
  · rw [hctxs]
  · rw [hctx]
    exact .refl _
  · rw [hctx]
  · rw [hctx]
    exact .refl _
  · rw [hctx]

theorem Works.refl (k : Kernel) : Works A k k := .of_ctxs rfl rfl rfl rfl rfl rfl rfl rfl

/-- The record of the current context is rewritten. -/
theorem Works.update {f : ExecContext → ExecContext} (hseat : SameSeat k.ctx (f k.ctx))
    (halarm : A.alarm → SameAlarm k.ctx (f k.ctx)) (hsegments : A.segments → (f k.ctx).mms = k.ctx.mms)
    (hname : (f k.ctx).name = k.ctx.name := by rfl) : Works A k (k.updateCtx k.current f) := by
  have hctx : (k.updateCtx k.current f).ctx = f k.ctx := k.updateCtx_self k.current f
  refine ⟨⟨rfl, rfl, rfl, rfl, fun j hj _ ↦ k.updateCtx_of_ne f hj, ?_, ?_, fun hA ↦ ?_, fun hA ↦ ?_⟩, rfl, rfl, rfl⟩
  · rw [hctx]
    exact hseat
  · rw [hctx]
    exact hname
  · rw [hctx]
    exact halarm hA
  · rw [hctx]
    exact hsegments hA

theorem Holds.trans (first : Holds A none k k₁) (second : Holds A child k₁ k') : Holds A child k k' where
  current_eq := second.current_eq.trans first.current_eq
  rsp0_eq := second.rsp0_eq.trans first.rsp0_eq
  cs_eq := second.cs_eq.trans first.cs_eq
  dispatches_eq := second.dispatches_eq.trans first.dispatches_eq
  others j hj hchild :=
    (second.others j (first.current_eq.symm ▸ hj) hchild).trans (first.others j hj (Option.some_ne_none j))
  seat := first.seat.trans second.seat
  name_eq := second.name_eq.trans first.name_eq
  alarm hA := (first.alarm hA).trans (second.alarm hA)
  segments hA := (second.segments hA).trans (first.segments hA)

theorem Works.trans (first : Works A k k₁) (second : Works A k₁ k') : Works A k k' where
  toHolds := first.toHolds.trans second.toHolds
  mode_eq := second.mode_eq.trans first.mode_eq
  cr3_eq := second.cr3_eq.trans first.cr3_eq
  processes_eq := second.processes_eq.trans first.processes_eq

/-- What a serving kernel leaves alone. -/
structure SameTable (k k' : Kernel) : Prop where
  ctxs_eq : k'.ctxs = k.ctxs
  current_eq : k'.current = k.current
  mode_eq : k'.mode = k.mode
  cr3_eq : k'.cr3 = k.cr3
  rsp0_eq : k'.rsp0 = k.rsp0
  cs_eq : k'.regs.entryCs = k.regs.entryCs
  processes_eq : k'.stats.numProcesses = k.stats.numProcesses
  dispatches_eq : k'.dispatches = k.dispatches

theorem SameTable.refl (k : Kernel) : SameTable k k := ⟨rfl, rfl, rfl, rfl, rfl, rfl, rfl, rfl⟩

theorem SameTable.trans (first : SameTable k k₁) (second : SameTable k₁ k') : SameTable k k' where
  ctxs_eq := second.ctxs_eq.trans first.ctxs_eq
  current_eq := second.current_eq.trans first.current_eq
  mode_eq := second.mode_eq.trans first.mode_eq
  cr3_eq := second.cr3_eq.trans first.cr3_eq
  rsp0_eq := second.rsp0_eq.trans first.rsp0_eq
  cs_eq := second.cs_eq.trans first.cs_eq
  processes_eq := second.processes_eq.trans first.processes_eq
  dispatches_eq := second.dispatches_eq.trans first.dispatches_eq

theorem SameTable.works (h : SameTable k k') : Works A k k' :=
  .of_ctxs h.ctxs_eq h.current_eq h.mode_eq h.cr3_eq h.rsp0_eq h.cs_eq h.processes_eq
    h.dispatches_eq

theorem Kernel.Quiet.sameTable (h : Quiet k k') : SameTable k k' :=
  ⟨h.ctxs_eq, h.current_eq, h.mode_eq, h.cr3_eq, h.rsp0_eq, h.cs_eq, h.processes_eq, h.dispatches_eq⟩

/-- A kernel that serves faults and stores leaves the table alone. -/
theorem Kernel.Serves.sameTable (h : Serves k k') : SameTable k k' := by
  induction h with
  | refl => exact .refl k
  | quiet _ hquiet ih => exact ih.trans hquiet.sameTable
  | fault _ _ _ _ ih => exact ih.trans ⟨rfl, rfl, rfl, rfl, rfl, rfl, rfl, rfl⟩
  | store _ _ ih => exact ih.trans ⟨rfl, rfl, rfl, rfl, rfl, rfl, rfl, rfl⟩

theorem Works.left (h : Works (keeping event k) k k') (hnone : NoChild event k) :
    Left event none k k' where
  toHolds := h.toHolds
  mode_eq := h.mode_eq
  cr3_eq := Or.inl h.cr3_eq
  processes_eq := h.processes_eq
  cut j hj := absurd hj.symm (Option.some_ne_none j)
  no_clone := hnone.no_clone
  full _ := Or.inl hnone

theorem Left.sameTable (h : Left event child k k₁) (hsame : SameTable k₁ k') : Left event child k k' := by
  have hctx : k'.ctx = k₁.ctx := by rw [Kernel.ctx, Kernel.ctx, hsame.ctxs_eq, hsame.current_eq]
  refine ⟨⟨hsame.current_eq.trans h.current_eq, hsame.rsp0_eq.trans h.rsp0_eq, hsame.cs_eq.trans h.cs_eq,
    hsame.dispatches_eq.trans h.dispatches_eq,
    fun j hj hchild ↦ ?_, hctx ▸ h.seat, hctx ▸ h.name_eq, fun hA ↦ hctx ▸ h.alarm hA,
    fun hA ↦ hctx ▸ h.segments hA⟩, hsame.mode_eq.trans h.mode_eq, hsame.cr3_eq.symm ▸ h.cr3_eq,
      hsame.processes_eq.trans h.processes_eq, fun j hj ↦ ?_, h.no_clone, h.full⟩
  · rw [hsame.ctxs_eq]
    exact h.others j hj hchild
  · obtain ⟨hasked, hcut, ⟨hvacant, hfull, hpid, hcs, hmms, hbytes⟩, hstate⟩ := h.cut j hj
    rw [hsame.ctxs_eq]
    refine ⟨hasked, hcut, ⟨hvacant, hfull, ?_, ?_, ?_, ?_⟩, hstate⟩ <;> rw [hsame.ctxs_eq]
    · exact hpid
    · exact hcs
    · exact hmms
    · exact hbytes

/-- A general protection fault loads the boot page table first. -/
theorem Left.protection (h : Left event child k k₁) : Left event child k { k₁ with cr3 := swapperPgd } where
  current_eq := h.current_eq
  rsp0_eq := h.rsp0_eq
  cs_eq := h.cs_eq
  dispatches_eq := h.dispatches_eq
  others := h.others
  seat := h.seat
  name_eq := h.name_eq
  alarm := h.alarm
  segments := h.segments
  mode_eq := h.mode_eq
  cr3_eq := Or.inr rfl
  processes_eq := h.processes_eq
  cut j hj := by
    obtain ⟨hasked, hcut, ⟨hvacant, hfull, hpid, hcs, hmms, hbytes⟩, hstate⟩ := h.cut j hj
    exact ⟨hasked, hcut, ⟨hvacant, hfull, hpid, hcs, hmms, hbytes⟩, hstate⟩
  no_clone := h.no_clone
  full := h.full

/-- The ways to depart, seen from the table. -/
theorem Left.leaves (h : Left event child k k₁) (hcr3 : k₁.cr3 = k.cr3) (hdeparts : Departs k₁ k') :
    Leaves event k k' := by
  cases hdeparts with
  | exit before => exact .exit (h.sameTable before.sameTable)
  | protection before => exact .exit (h.sameTable before.sameTable).protection
  | @stop k₂ _ before stopped hquiet =>
    have hmode : k₂.mode = k.mode := before.sameTable.mode_eq.trans h.mode_eq
    have hleft := h.sameTable (before.sameTable.trans hquiet.sameTable)
    rw [hmode] at hleft
    exact .stop stopped hleft (hquiet.cr3_eq.trans (before.sameTable.cr3_eq.trans hcr3))

/-- `get_new_ctx` takes the first free slot, or finds none. -/
theorem Kernel.getNewCtx_cases (k : Kernel) :
    (∃ i : Fin maxProcesses, ∃ f : ExecContext → ExecContext, (k.ctxs (some i)).state = .unused ∧
        (∀ j < i, (k.ctxs (some j)).state ≠ .unused) ∧ (∀ ctx, (f ctx).pid = i) ∧
        k.getNewCtx = (some i, k.updateCtx (some i) f)) ∨
      (∀ j, (k.ctxs (some j)).state ≠ .unused) ∧ k.getNewCtx = (none, k) := by
  unfold Kernel.getNewCtx
  cases hfind : (List.finRange maxProcesses).find? fun i ↦ decide ((k.ctxs (some i)).state = .unused) with
  | none =>
    refine Or.inr ⟨fun j ↦ ?_, rfl⟩
    have hj := List.find?_eq_none.1 hfind j (List.mem_finRange j)
    simpa using hj
  | some i =>
    refine Or.inl ⟨i, _, by simpa using List.find?_some hfind, fun j hj ↦ ?_, fun _ ↦ rfl, rfl⟩
    obtain ⟨-, before, after, hsplit, hbefore⟩ := List.find?_eq_some_iff_append.1 hfind
    have hsorted : (before ++ i :: after).Pairwise (· < ·) := hsplit ▸ List.pairwise_lt_finRange maxProcesses
    have hmem : j ∈ before ++ i :: after := hsplit ▸ List.mem_finRange j
    rcases List.mem_append.1 hmem with hleft | hright
    · simpa using hbefore j hleft
    · rw [List.pairwise_append] at hsorted
      rcases List.mem_cons.1 hright with rfl | hafter
      · exact absurd hj (lt_irrefl _)
      · exact absurd hj (lt_asymm ((List.pairwise_cons.1 hsorted.2.1).1 j hafter))

/-- Only the record of `child` changed, and memory. -/
structure Born (child : CtxPtr) (record : ExecContext) (k k' : Kernel) : Prop where
  ctxs_eq : k'.ctxs = Function.update k.ctxs child record
  current_eq : k'.current = k.current
  mode_eq : k'.mode = k.mode
  cr3_eq : k'.cr3 = k.cr3
  rsp0_eq : k'.rsp0 = k.rsp0
  regs_eq : k'.regs = k.regs
  dispatches_eq : k'.dispatches = k.dispatches

/-- The record is the old one as far as the fork of `do_fork` goes on to read it. -/
structure SameRecord (ctx ctx' : ExecContext) : Prop where
  pid_eq : ctx'.pid = ctx.pid
  state_eq : ctx'.state = ctx.state
  regs_eq : ctx'.regs = ctx.regs
  mms_eq : ctx'.mms = ctx.mms
  name_eq : ctx'.name = ctx.name

namespace Born

variable {record record' : ExecContext}

theorem self (h : Born child record k k') : k'.ctxs child = record := by
  rw [h.ctxs_eq, Function.update_self]

theorem of_ne (h : Born child record k k') {q : CtxPtr} (hq : q ≠ child) : k'.ctxs q = k.ctxs q := by
  rw [h.ctxs_eq, Function.update_of_ne hq]

theorem ctx_eq (h : Born child record k k') (hne : k.current ≠ child) : k'.ctx = k.ctx := by
  rw [Kernel.ctx, Kernel.ctx, h.current_eq, h.of_ne hne]

theorem trans (first : Born child record k k₁) (second : Born child record' k₁ k') : Born child record' k k' where
  ctxs_eq := by rw [second.ctxs_eq, first.ctxs_eq, Function.update_idem]
  current_eq := second.current_eq.trans first.current_eq
  mode_eq := second.mode_eq.trans first.mode_eq
  cr3_eq := second.cr3_eq.trans first.cr3_eq
  rsp0_eq := second.rsp0_eq.trans first.rsp0_eq
  regs_eq := second.regs_eq.trans first.regs_eq
  dispatches_eq := second.dispatches_eq.trans first.dispatches_eq

theorem memory (h : Born child record k k') (m : Memory) : Born child record k { k' with mem := m } :=
  ⟨h.ctxs_eq, h.current_eq, h.mode_eq, h.cr3_eq, h.rsp0_eq, h.regs_eq, h.dispatches_eq⟩

theorem holds (h : Born child record k k') (hne : k.current ≠ child) : Holds A child k k' where
  current_eq := h.current_eq
  rsp0_eq := h.rsp0_eq
  cs_eq := congrArg UserRegs.entryCs h.regs_eq
  dispatches_eq := h.dispatches_eq
  others _ _ hchild := h.of_ne hchild
  seat := h.ctx_eq hne ▸ .refl _
  name_eq := congrArg ExecContext.name (h.ctx_eq hne)
  alarm _ := h.ctx_eq hne ▸ .refl _
  segments _ := congrArg ExecContext.mms (h.ctx_eq hne)

end Born

/-- But for a record that was made, the names are the same. -/
theorem Holds.nameOf_eq (h : Holds A child k k') {j : Fin maxProcesses} (hj : some j ≠ child) :
    (k'.ctxs (some j)).name = (k.ctxs (some j)).name := by
  by_cases hcurrent : some j = k.current
  · have hname := h.name_eq
    rwa [Kernel.ctx, Kernel.ctx, h.current_eq, ← hcurrent] at hname
  · rw [h.others j hcurrent hj]

/-- But for a record that was made, the states are the same. -/
theorem Holds.state_eq (h : Holds A child k k') {j : Fin maxProcesses} (hj : some j ≠ child) :
    (k'.ctxs (some j)).state = (k.ctxs (some j)).state := by
  by_cases hcurrent : some j = k.current
  · have hseat := h.seat.state_eq
    rwa [Kernel.ctx, Kernel.ctx, h.current_eq, ← hcurrent] at hseat
  · rw [h.others j hcurrent hj]

/-- Private data does not change the state of any slot. -/
theorem Works.state_eq (h : Works A k k₁) (j : Fin maxProcesses) :
    (k₁.ctxs (some j)).state = (k.ctxs (some j)).state := h.toHolds.state_eq (Option.some_ne_none j)

theorem Spawned.after (first : Works A k k₁) (hA : A.segments) (second : Spawned child k₁ k') : Spawned child k k' where
  vacant j hj := (first.state_eq j).symm.trans (second.vacant j hj)
  full hchild j := first.state_eq j ▸ second.full hchild j
  pid_eq := second.pid_eq
  cs_eq j hj := (second.cs_eq j hj).trans first.cs_eq
  mms_eq j hj := (second.mms_eq j hj).trans (first.segments hA)
  name_bytes j hj hcaller hold := by
    refine second.name_bytes j hj ?_ ?_
    · exact fun i ↦ first.name_eq ▸ hcaller i
    · exact fun i ↦ first.nameOf_eq (Option.some_ne_none j) ▸ hold i

/-- The result of a system call goes to `rax`. -/
theorem Holds.setRax (h : Holds A child k k') (value : ℕ) :
    Holds A child k { k' with regs := { k'.regs with rax := value } } :=
  ⟨h.current_eq, h.rsp0_eq, h.cs_eq, h.dispatches_eq, h.others, h.seat, h.name_eq, h.alarm, h.segments⟩

theorem Spawned.setRax (h : Spawned child k k') (value : ℕ) :
    Spawned child k { k' with regs := { k'.regs with rax := value } } :=
  ⟨h.vacant, h.full, h.pid_eq, h.cs_eq, h.mms_eq, h.name_bytes⟩

/-- What `do_fork` and `do_clone` need of the free slot. -/
theorem Spawned.of_born {record record₁ : ExecContext} (hborn : Born child record k k')
    (hslot : ∀ j, child = some j → record₁.pid = j ∧ (k.ctxs (some j)).state = .unused)
    (hfull : child = none → ∀ j, (k.ctxs (some j)).state ≠ .unused) (hpid : record.pid = record₁.pid)
    (hcs : record.regs.entryCs = k.regs.entryCs) (hmms : record.mms = k.ctx.mms)
    (hname : ∀ j, child = some j → k.ctx.NameBytes → (k.ctxs (some j)).NameBytes → record.NameBytes) :
    Spawned child k k' where
  vacant j hj := (hslot j hj).2
  full := hfull
  pid_eq j hj := by rw [← hj, hborn.self, hpid, (hslot j hj).1]
  cs_eq j hj := by rw [← hj, hborn.self, hcs]
  mms_eq j hj := by rw [← hj, hborn.self, hmms]
  name_bytes j hj hcaller hold := by
    rw [← hj, hborn.self]
    exact hname j hj hcaller hold

namespace Kernel

theorem getNewCtx_name (k : Kernel) (p : CtxPtr) : (k.getNewCtx.2.ctxs p).name = (k.ctxs p).name := by
  unfold Kernel.getNewCtx
  split
  · simp only [updateCtx_ctxs]
    split <;> rfl
  · rfl

/-- `get_new_ctx` makes a record with the number of its slot. -/
theorem getNewCtx_born (k : Kernel) :
    ∃ record, Born k.getNewCtx.1 record k k.getNewCtx.2 ∧
      k.getNewCtx.2.stats.numProcesses = k.stats.numProcesses ∧
      (∀ j, k.getNewCtx.1 = some j → record.pid = j ∧ (k.ctxs (some j)).state = .unused) ∧
      (k.getNewCtx.1 = none → ∀ j, (k.ctxs (some j)).state ≠ .unused) := by
  rcases k.getNewCtx_cases with ⟨i, f, hvacant, -, hpid, hnew⟩ | ⟨hfull, hnew⟩
  · refine ⟨f (k.ctxs (some i)), ?_, ?_, fun j hj ↦ ?_, fun hnone ↦ ?_⟩
    · rw [hnew]
      exact ⟨rfl, rfl, rfl, rfl, rfl, rfl, rfl⟩
    · rw [hnew]
      rfl
    · rw [hnew] at hj
      obtain rfl := Option.some.inj hj
      exact ⟨hpid _, hvacant⟩
    · rw [hnew] at hnone
      exact absurd hnone (Option.some_ne_none i)
  · refine ⟨k.ctxs none, ?_, ?_, fun j hj ↦ ?_, fun _ ↦ hfull⟩
    · rw [hnew]
      exact ⟨(Function.update_eq_self none k.ctxs).symm, rfl, rfl, rfl, rfl, rfl, rfl⟩
    · rw [hnew]
    · rw [hnew] at hj
      exact absurd hj.symm (Option.some_ne_none j)

/-- Copying pages changes memory alone, until a copy faults. -/
theorem copyPages_spec (childPgd : ℕ) (seg : MmSegment) (vaddrs : List ℕ) (k : Kernel) :
    Spec (copyPages childPgd seg vaddrs) k (fun _ k' ↦ ∃ m, k' = { k with mem := m })
      fun k' ↦ ∃ m, Departs { k with mem := m } k' := by
  induction vaddrs generalizing k with
  | nil => exact Spec.pure ⟨k.mem, rfl⟩
  | cons vaddr vaddrs ih =>
    have hpage : Spec (copyPage childPgd seg vaddr) k (fun _ k' ↦ ∃ m, k' = { k with mem := m })
        fun k' ↦ ∃ m, Departs { k with mem := m } k' := by
      unfold copyPage
      apply Spec.read_bind
      cases getUserPte k.mem.phys k.ctx.pgd vaddr with
      | none => exact Spec.pure ⟨k.mem, rfl⟩
      | some entry =>
        apply Spec.call_bind
        apply Spec.read_bind
        refine (copyFrame_spec _ _ _).mono ?_ ?_
        · rintro _ k' ⟨-, -, rfl⟩
          exact ⟨_, rfl⟩
        · rintro k' ⟨-, hdeparts⟩
          exact ⟨_, hdeparts⟩
    unfold copyPages
    refine hpage.bind ?_
    rintro _ _ ⟨m, rfl⟩
    exact ih _

/-- `copy_mm` touches the page table of the child's record only. -/
theorem copyMm_spec (child : CtxPtr) (k : Kernel) :
    Spec (copyMm child) k
      (fun _ k' ↦ ∃ record, SameRecord (k.ctxs child) record ∧ Born child record k k' ∧
        k'.stats.numProcesses = k.stats.numProcesses)
      fun k' ↦ ∃ record k₁, SameRecord (k.ctxs child) record ∧ Born child record k k₁ ∧
        k₁.stats.numProcesses = k.stats.numProcesses ∧ Departs k₁ k' := by
  unfold copyMm
  apply Spec.call_bind
  apply Spec.update_bind
  apply Spec.update_bind
  apply Spec.read_bind
  generalize (pfnAlloc .osPt k).1 = pgd
  have hborn : ∀ m, Born child { k.ctxs child with pgd := pgd } k
      { shareSegments pgd { ((pfnAlloc .osPt k).2.updateCtx child fun ctx ↦ { ctx with pgd := pgd }) with
        mem := (pfnAlloc .osPt k).2.mem.zeroFrame pgd } with mem := m } := fun _ ↦
    ⟨rfl, rfl, rfl, rfl, rfl, rfl, rfl⟩
  have hsame : SameRecord (k.ctxs child) { k.ctxs child with pgd := pgd } := ⟨rfl, rfl, rfl, rfl, rfl⟩
  refine ((copyPages_spec _ _ _ _).mono (fun _ _ ↦ id) ?_).bind ?_
  · rintro k' ⟨m, hdeparts⟩
    exact ⟨_, _, hsame, hborn m, rfl, hdeparts⟩
  rintro _ _ ⟨m, rfl⟩
  refine ((copyPages_spec _ _ _ _).mono (fun _ _ ↦ id) ?_).bind ?_
  · rintro k' ⟨m, hdeparts⟩
    exact ⟨_, _, hsame, hborn m, rfl, hdeparts⟩
  rintro _ _ ⟨m, rfl⟩
  exact Spec.update ⟨_, hsame, hborn _, rfl⟩

theorem setupChildContext_spec (child : CtxPtr) (k : Kernel) {E : Kernel → Prop} :
    Spec (setupChildContext child) k
      (fun _ k' ↦ ∃ record, record.pid = (k.ctxs child).pid ∧ record.regs = (k.ctxs child).regs ∧
        record.mms = (k.ctxs child).mms ∧ record.name = (k.ctxs child).name ∧ record.state = .ready ∧
          Born child record k k' ∧
        k'.stats.numProcesses = (k.stats.numProcesses + 1) % 2 ^ 64) E := by
  unfold setupChildContext
  apply Spec.call_bind
  exact Spec.update ⟨{ k.ctxs child with
      osStackPfn := (pfnAlloc .osPt k).1
      osRsp := stackTop (pfnAlloc .osPt k).1
      state := .ready }, rfl, rfl, rfl, rfl, rfl, ⟨rfl, rfl, rfl, rfl, rfl, rfl, rfl⟩, rfl⟩

theorem current_ne_child {i : Fin maxProcesses} (hcurrent : k.current = some i)
    (hbusy : k.ctx.state ≠ .unused) (hvacant : ∀ j, child = some j → (k.ctxs (some j)).state = .unused) :
    k.current ≠ child := by
  intro heq
  rw [Kernel.ctx, hcurrent] at hbusy
  exact hbusy (hvacant i (heq.symm.trans hcurrent))

/-- `do_fork`: the record made in the free slot, whether the copy succeeds or faults. -/
theorem doFork_spec {i : Fin maxProcesses} (hcurrent : k.current = some i) (hbusy : k.ctx.state ≠ .unused)
    (hsaved : k.ctx.regs = k.regs) :
    Spec doFork k
      (fun pid k' ↦ ∃ child record, k.current ≠ child ∧ Born child record k k' ∧ Spawned child k k' ∧
        record.state = .ready ∧ record.regs = k.regs ∧ record.pid = pid ∧
        k'.stats.numProcesses = (k.stats.numProcesses + 1) % 2 ^ 64)
      fun k' ↦ ∃ child record k₁, k.current ≠ child ∧ Born child record k k₁ ∧ Spawned child k k₁ ∧
        record.state = k.ctx.state ∧ k₁.stats.numProcesses = k.stats.numProcesses ∧ Departs k₁ k' := by
  obtain ⟨record, hborn, hprocesses, hslot, hfull⟩ := k.getNewCtx_born
  unfold doFork
  apply Spec.call_bind
  apply Spec.read_bind
  apply Spec.update_bind
  generalize k.getNewCtx.1 = child at *
  generalize k.getNewCtx.2 = k₁ at *
  have hne := current_ne_child hcurrent hbusy fun j hj ↦ (hslot j hj).2
  have hctx := hborn.ctx_eq hne
  have hcopy : Born child { k.ctx with pid := record.pid, ppid := k.ctx.pid } k (copyRecord child k₁) := by
    refine hborn.trans ⟨?_, rfl, rfl, rfl, rfl, rfl, rfl⟩
    rw [← hctx, ← hborn.self]
    rfl
  have hpid : (k₁.ctxs child).pid = record.pid := by rw [hborn.self]
  have hcount : (copyRecord child k₁).stats.numProcesses = k.stats.numProcesses := hprocesses
  generalize copyRecord child k₁ = k₂ at *
  refine ((copyMm_spec child k₂).mono (fun _ _ ↦ id) ?_).bind ?_
  · rintro k' ⟨record₃, k₃, hsame, hborn₃, hcount₃, hdeparts⟩
    rw [hcopy.self] at hsame
    have hborn' := hcopy.trans hborn₃
    refine ⟨child, record₃, k₃, hne, hborn', ?_, hsame.state_eq, hcount₃.trans hcount, hdeparts⟩
    exact .of_born hborn' hslot hfull hsame.pid_eq (by rw [hsame.regs_eq, hsaved]) hsame.mms_eq fun _ _ hcaller _ i ↦
      hsame.name_eq ▸ hcaller i
  rintro _ k₃ ⟨record₃, hsame, hborn₃, hcount₃⟩
  rw [hcopy.self] at hsame
  have hborn' := hcopy.trans hborn₃
  refine (setupChildContext_spec child k₃).bind ?_
  rintro _ k₄ ⟨record₄, hpid₄, hregs₄, hmms₄, hname₄, hready, hborn₄, hcount₄⟩
  rw [hborn'.self] at hpid₄ hregs₄ hmms₄ hname₄
  have hregs : record₄.regs = k.regs := hregs₄.trans (hsame.regs_eq.trans hsaved)
  have hpid' : record₄.pid = record.pid := hpid₄.trans hsame.pid_eq
  refine Spec.pure ⟨child, record₄, hne, hborn'.trans hborn₄, ?_, hready, hregs, hpid'.trans hpid.symm, ?_⟩
  · exact .of_born (hborn'.trans hborn₄) hslot hfull hpid' (by rw [hregs])
      (hmms₄.trans hsame.mms_eq) fun _ _ hcaller _ i ↦
      (hname₄.trans hsame.name_eq) ▸ hcaller i
  · rw [hcount₄, hcount₃, hcount]

theorem setNameBytes_seat (ctx : ExecContext) (j : ℕ) (values : List ℕ) :
    SameSeat ctx (ctx.setNameBytes j values) ∧
      (ctx.setNameBytes j values).regs.entryCs = ctx.regs.entryCs ∧ (ctx.setNameBytes j values).mms = ctx.mms := by
  induction values generalizing ctx j with
  | nil => exact ⟨.refl ctx, rfl, rfl⟩
  | cons value values ih =>
    have hbyte : SameSeat ctx (ctx.setNameByte j value) ∧
        (ctx.setNameByte j value).regs.entryCs = ctx.regs.entryCs ∧ (ctx.setNameByte j value).mms = ctx.mms := by
      unfold ExecContext.setNameByte
      split
      · exact ⟨⟨rfl, rfl, rfl, rfl, rfl, rfl⟩, rfl, rfl⟩
      · exact ⟨⟨rfl, rfl, rfl, rfl, rfl, rfl⟩, rfl, rfl⟩
    obtain ⟨hseat, hcs, hmms⟩ := ih (ctx.setNameByte j value) (j + 1)
    exact ⟨hbyte.1.trans hseat, hcs.trans hbyte.2.1, hmms.trans hbyte.2.2⟩

/-- `do_clone` always returns. -/
theorem doClone_spec {i : Fin maxProcesses} (hcurrent : k.current = some i) (hbusy : k.ctx.state ≠ .unused)
    (hsaved : k.ctx.regs = k.regs) (thFunc userStack : ℕ) {E : Kernel → Prop} :
    Spec (doClone thFunc userStack) k
      (fun _ k' ↦ ∃ child record, k.current ≠ child ∧ Born child record k k' ∧ Spawned child k k' ∧
        record.state = .ready ∧ record.pgd = k.ctx.pgd ∧ k'.stats.numProcesses = k.stats.numProcesses) E := by
  obtain ⟨record, hborn, hprocesses, hslot, hfull⟩ := k.getNewCtx_born
  have hname := getNewCtx_name k k.getNewCtx.1
  unfold doClone
  apply Spec.call_bind
  apply Spec.call_bind
  apply Spec.update_bind
  generalize k.getNewCtx.1 = child at *
  generalize k.getNewCtx.2 = k₁ at *
  have hne := current_ne_child hcurrent hbusy fun j hj ↦ (hslot j hj).2
  have hctx := hborn.ctx_eq hne
  have hstack := hborn.memory (osPfnAlloc .osPt k₁.mem).2
  change Spec _ ((({ k₁ with mem := (osPfnAlloc .osPt k₁.mem).2 } : Kernel)).updateCtx child _) _ _
  generalize (pfnAlloc .osPt k₁).1 = stack
  obtain ⟨hseat, hcs, hmms⟩ := setNameBytes_seat (cloneRecord k₁.ctx stack thFunc userStack (k₁.ctxs child)) 0
    (cloneName k₁.ctx)
  refine Spec.pure ⟨child, _, hne, hstack.trans ⟨rfl, rfl, rfl, rfl, rfl, rfl, rfl⟩, ?_, ?_, ?_, hprocesses⟩
  · refine .of_born (hstack.trans ⟨rfl, rfl, rfl, rfl, rfl, rfl, rfl⟩) hslot hfull ?_ ?_ ?_ fun j hj _ hold ↦ ?_
    · refine hseat.pid_eq.trans ?_
      rw [hborn.self]
      rfl
    · refine hcs.trans ?_
      rw [← hsaved, ← hctx]
      rfl
    · refine hmms.trans ?_
      rw [← hctx]
      rfl
    · have hrecord : (cloneRecord k₁.ctx stack thFunc userStack (k₁.ctxs child)).NameBytes := fun i ↦ by
        change (k₁.ctxs child).name i < 256
        rw [hname, hj]
        exact hold i
      exact ExecContext.setNameBytes_bytes hrecord _ _
  · exact hseat.state_eq
  · refine hseat.pgd_eq.trans ?_
    rw [← hctx]
    rfl

theorem works_saveRegs (k : Kernel) : Works A k k.saveRegs := by
  have hwork : Works A k (k.updateCtx k.current fun ctx ↦ ctx.saveRegs k.regs) :=
    Works.update ⟨rfl, rfl, rfl, rfl, rfl, rfl⟩ (fun _ ↦ ⟨rfl, rfl, rfl⟩) fun _ ↦ rfl
  exact hwork.trans (Works.of_ctxs rfl rfl rfl rfl rfl rfl rfl rfl)

/-- A program that serves keeps the current context on the processor, or departs. -/
theorem Serving.works {α : Type} {p : Prog Kernel α} (hp : Serving p) (h : Works (keeping event k) k k₁)
    (hnone : NoChild event k) : Spec p k₁ (fun _ k' ↦ Works (keeping event k) k k') (Leaves event k) :=
  (hp.spec k₁).mono (fun _ _ hserves ↦ h.trans hserves.sameTable.works) fun _ ↦ (h.left hnone).leaves h.cr3_eq

/-- What a call that answers leaves of the process table. `signal` with the registered handler of `SIGALRM` changes
nothing there. -/
theorem Answers.works {call : Option Syscall} {param1 param2 : ℕ} (h : Answers param1 param2 k call k')
    (hsegments : A.segments → call ≠ some .expand ∧ call ≠ some .shrink)
    (halarm : A.alarm → call ≠ some .alarm ∧
      (call = some .signal → signalOf param1 = some .sigalrm → param2 = k.ctx.sighandlers .sigalrm)) :
    Works A k k' := by
  cases h with
  | tend tends => exact tends.serves.sameTable.works
  | expand =>
    exact Works.update ⟨rfl, rfl, rfl, rfl, rfl, rfl⟩ (fun _ ↦ ⟨rfl, rfl, rfl⟩) fun hA ↦ absurd rfl (hsegments hA).1
  | @shrink seg shrunk =>
    have hmoved : Works A k (setNextFree seg shrunk k) :=
      Works.update ⟨rfl, rfl, rfl, rfl, rfl, rfl⟩ (fun _ ↦ ⟨rfl, rfl, rfl⟩) fun hA ↦ absurd rfl (hsegments hA).2
    exact hmoved.trans (Works.of_ctxs rfl rfl rfl rfl rfl rfl rfl rfl)
  | @signal signal registered =>
    refine Works.update ⟨rfl, rfl, rfl, rfl, rfl, rfl⟩ (fun hA ↦ ⟨rfl, rfl, ?_⟩) fun _ ↦ rfl
    by_cases heq : Signal.sigalrm = signal
    · subst heq
      change Function.update k.ctx.sighandlers .sigalrm param2 .sigalrm = _
      rw [Function.update_self]
      exact (halarm hA).2 rfl registered
    · exact Function.update_of_ne heq _ _
  | alarm => exact Works.update ⟨rfl, rfl, rfl, rfl, rfl, rfl⟩ (fun hA ↦ absurd rfl (halarm hA).1) fun _ ↦ rfl

theorem turn_doSyscall {i : Fin maxProcesses} (peek : ℕ → ℕ) (hcurrent : k.current = some i)
    (hbusy : k.ctx.state ≠ .unused) : Turn (.syscall peek) k ((doSyscall peek).final k) := by
  apply Spec.final
  unfold doSyscall
  apply Spec.read_bind
  apply Spec.update_bind
  have hsave : Works (keeping (.syscall peek) k) k k.saveRegs := works_saveRegs k
  have hctx : k.saveRegs.ctx = k.ctx.saveRegs k.regs :=
    k.updateCtx_self k.current fun ctx ↦ ctx.saveRegs k.regs
  have hcurrent₁ : k.saveRegs.current = some i := hcurrent
  have hbusy₁ : k.saveRegs.ctx.state ≠ .unused := hctx ▸ hbusy
  have hsaved : k.saveRegs.ctx.regs = k.saveRegs.regs := hctx ▸ rfl
  have hasks : ∀ {call}, k.syscallRequested = some call → Asks (.syscall peek) k call :=
    fun hcall ↦ ⟨⟨peek, rfl⟩, hcall⟩
  have hquiet : ∀ {call}, Asks (.syscall peek) k call → call ≠ .expand → call ≠ .shrink →
      KeepsSegments (.syscall peek) k := fun hasks hexpand hshrink ↦
    ⟨fun h ↦ hexpand (hasks.inj h), fun h ↦ hshrink (hasks.inj h)⟩
  rcases simple_or k.syscallRequested with hsimple | hcall | hcall | hcall | hcall
  · have hnone : NoChild (.syscall peek) k := ⟨fun h ↦ hsimple.2.2.2 h.2, fun h ↦ hsimple.2.2.1 h.2⟩
    refine Spec.bind ((dispatch_answers peek _ _ hsimple).mono (fun _ _ ↦ id) fun _ hquits ↦
      .leave ((hsave.left hnone).leaves hsave.cr3_eq hquits.departs)) fun _ _ hanswers ↦ Spec.update (.work hnone ?_)
    have hworks := hsave.trans (hanswers.works
      (fun hkeeps ↦ ⟨fun h ↦ hkeeps.1 (hasks h), fun h ↦ hkeeps.2 (hasks h)⟩) fun hkeeps ↦
        ⟨fun h ↦ hkeeps.2.1 (hasks h), fun h hsignal ↦ hctx ▸ hkeeps.2.2 (hasks h) hsignal⟩)
    exact hworks.trans (Works.of_ctxs rfl rfl rfl rfl rfl rfl rfl rfl)
  · rw [hcall]
    have hnone : NoChild (.syscall peek) k :=
      ⟨fun h ↦ Syscall.noConfusion ((hasks hcall).inj h), fun h ↦ Syscall.noConfusion ((hasks hcall).inj h)⟩
    exact Spec.bind (Q := fun _ _ ↦ False) (Spec.leave (.leave (.exit (hsave.left hnone)))) fun _ _ ↦ False.elim
  · rw [hcall]
    exact Spec.bind (Q := fun _ _ ↦ False) (Spec.leave (.sleep (hasks hcall))) fun _ _ ↦ False.elim
  · rw [hcall]
    have hsegments := hquiet (hasks hcall) (by decide) (by decide)
    refine Spec.bind (doClone_spec hcurrent₁ hbusy₁ hsaved _ _) ?_
    rintro _ k' ⟨child, record, hne, hborn, hspawned, hready, hshared, hprocesses⟩
    have hspawned' : Spawned child k k' := .after hsave hsegments hspawned
    refine Spec.update (.clone (hasks hcall) ((hsave.toHolds.trans (hborn.holds hne)).setRax _)
      (hspawned'.setRax _) hborn.mode_eq hborn.cr3_eq hprocesses (fun j hj ↦ ?_) fun j hj ↦ ?_)
    · rw [← hj]
      exact hborn.self ▸ hready
    · rw [← hj]
      exact (congrArg ExecContext.pgd hborn.self).trans (hshared.trans hsave.seat.pgd_eq)
  · rw [hcall]
    have hsegments := hquiet (hasks hcall) (by decide) (by decide)
    refine Spec.bind ((doFork_spec hcurrent₁ hbusy₁ hsaved).gone.mono (fun _ _ ↦ id) ?_) ?_
    · rintro k' ⟨⟨child, record, k₁, hne, hborn, hspawned, hstate, hprocesses, hdeparts⟩, hcut⟩
      have hspawned' : Spawned child k k₁ := .after hsave hsegments hspawned
      have hleft : Left (.syscall peek) child k k₁ := by
        refine ⟨hsave.toHolds.trans (hborn.holds hne), hborn.mode_eq, Or.inl hborn.cr3_eq, hprocesses,
          fun j hj ↦ ⟨hasks hcall, hcut, hspawned', ?_⟩, fun hclone ↦ Syscall.noConfusion ((hasks hcall).inj hclone),
          fun hnone ↦ Or.inr ⟨hcut, hspawned'.full hnone⟩⟩
        rw [← hj, hborn.self, hstate, hctx]
        rfl
      exact .leave (hleft.leaves hborn.cr3_eq hdeparts)
    · rintro pid k' ⟨⟨child, record, hne, hborn, hspawned, hready, hregs, hpid, hprocesses⟩, hreturn⟩
      have hspawned' : Spawned child k k' := .after hsave hsegments hspawned
      refine Spec.update (.fork (hasks hcall) (fun hcut ↦ hcut pid k' hreturn)
        ((hsave.toHolds.trans (hborn.holds hne)).setRax _)
        (hspawned'.setRax _) hborn.mode_eq hborn.cr3_eq hprocesses (fun j hj ↦ ?_) (fun j hj ↦ ?_) ?_)
      · rw [← hj]
        exact hborn.self ▸ hready
      · rw [← hj]
        exact hborn.self ▸ hregs
      · change UserRegs.setRax k'.regs pid = UserRegs.setRax k.regs (k'.ctxs child).pid
        rw [hborn.self, hpid, hborn.regs_eq]
        rfl

/-- Every event of a user process but the tick is one of the cases of `Turn`. -/
theorem turn_userProgram {i : Fin maxProcesses} (hcurrent : k.current = some i) (hbusy : k.ctx.state ≠ .unused)
    (hevent : event ≠ .tick) : Turn event k ((userProgram event).final k) := by
  have hserving : ∀ {p : Prog Kernel Unit}, NoChild event k → Serving p → Turn event k (p.final k) := fun hnone hp ↦
    Spec.final ((hp.works (.refl k) hnone).mono (fun _ _ ↦ .work hnone) fun _ ↦ .leave)
  cases event with
  | launch args scratch => exact .work (noChild_of_ne fun _ ↦ Event.noConfusion) (.refl k)
  | compute regs =>
    exact .work (noChild_of_ne fun _ ↦ Event.noConfusion) (Works.of_ctxs rfl rfl rfl rfl rfl rfl rfl rfl)
  | load addr => exact hserving (noChild_of_ne fun _ ↦ Event.noConfusion) (serving_userLoad addr)
  | store addr value => exact hserving (noChild_of_ne fun _ ↦ Event.noConfusion) (serving_userStore addr value)
  | syscall peek => exact turn_doSyscall peek hcurrent hbusy
  | divide => exact hserving (noChild_of_ne fun _ ↦ Event.noConfusion) (serving_signalRunning .sigfpe)
  | protection =>
    exact .leave (.exit ((Works.refl k).left (noChild_of_ne fun _ ↦ Event.noConfusion)).protection)
  | pageFaultGate => exact hserving (noChild_of_ne fun _ ↦ Event.noConfusion) serving_pageFaultGate
  | tick => exact absurd rfl hevent

end Kernel

end GemOS
