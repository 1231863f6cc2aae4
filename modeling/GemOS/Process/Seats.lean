import GemOS.Process.Sound
import GemOS.Process.TableEffects

/-!
# The invariant of the scheduler

`Table` is what holds of the process table, the current context and the registers that follow it in
every reachable state, whatever memory holds: the swapper keeps its record and is ready whenever it is
not current, every record carries the number of its slot, and `CR3` and the `rsp0` field of the TSS are
those of the current context. A dispatch, by `schedule` or by the switch of the timer tick, is described
once (`Dispatched`).
-/

namespace GemOS

open Foundation Memory Kernel

variable {event : Event} {child p : CtxPtr} {k k₁ k' : Kernel} {i : Fin maxProcesses}

/-- `next` was made current and got the processor; the table before is that of `k`. -/
structure Dispatched (next : CtxPtr) (k k' : Kernel) : Prop where
  current_eq : k'.current = next
  ctxs_eq : ∀ q, k'.ctxs q = if q = next then (k.ctxs q).setState .running else k.ctxs q
  regs_eq : k'.regs = (k.ctxs next).regs
  rsp0_eq : k'.rsp0 = ((k.ctxs next).osStackPfn + 1) <<< pageShift
  cr3_eq : k'.cr3 = (k.ctxs next).pgd
  mode_eq : k'.mode = .dead ∨ k'.mode = if (k.ctxs next).regs.entryCs = userCs then .user else .swapper
  processes_eq : k'.stats.numProcesses = k.stats.numProcesses
  dispatches_eq : k'.dispatches = ⟨next, (k.ctxs next).state, k.anyReady⟩ :: k.dispatches

/-- Loading `CR3` and returning to a frame. -/
theorem iret_loadCr3 (k : Kernel) {pgd : ℕ} (h : k' = k ∧ pgd = k.cr3 ∨ k' = k.loadCr3 pgd) (frame : UserRegs) :
    (k'.iret frame).ctxs = k.ctxs ∧ (k'.iret frame).current = k.current ∧ (k'.iret frame).rsp0 = k.rsp0 ∧
      (k'.iret frame).cr3 = pgd ∧ (k'.iret frame).stats = k.stats ∧ (k'.iret frame).dispatches = k.dispatches ∧
      ((k'.iret frame).mode = .dead ∨ (k'.iret frame).mode = if frame.entryCs = userCs then .user else .swapper) := by
  have hmode : ∀ k₁ : Kernel, (k₁.iret frame).mode = .dead ∨
      (k₁.iret frame).mode = if frame.entryCs = userCs then .user else .swapper := by
    intro k₁
    unfold Kernel.iret
    by_cases hdead : k₁.mode = .dead
    · exact Or.inl (if_pos hdead)
    · exact Or.inr (if_neg hdead)
  rcases h with ⟨rfl, rfl⟩ | rfl
  · exact ⟨rfl, rfl, rfl, rfl, rfl, rfl, hmode _⟩
  · unfold Kernel.loadCr3
    split
    · exact ⟨rfl, rfl, rfl, rfl, rfl, rfl, hmode _⟩
    · exact ⟨rfl, rfl, rfl, rfl, rfl, rfl, hmode _⟩

theorem dispatched_schedule (p : CtxPtr) (k : Kernel) : Dispatched p k (k.schedule p) := by
  have hself := k.makeCurrent_self p
  have hpgd : ((k.makeCurrent p).ctxs p).pgd = (k.ctxs p).pgd := by rw [hself]; rfl
  have hload : (if ((k.makeCurrent p).ctxs p).pgd = (k.makeCurrent p).cr3 then k.makeCurrent p
      else (k.makeCurrent p).loadCr3 ((k.makeCurrent p).ctxs p).pgd) = k.makeCurrent p ∧
        (k.ctxs p).pgd = (k.makeCurrent p).cr3 ∨
      (if ((k.makeCurrent p).ctxs p).pgd = (k.makeCurrent p).cr3 then k.makeCurrent p
        else (k.makeCurrent p).loadCr3 ((k.makeCurrent p).ctxs p).pgd) =
        (k.makeCurrent p).loadCr3 (k.ctxs p).pgd := by
    rw [hpgd]
    split
    · exact Or.inl ⟨rfl, ‹_›⟩
    · exact Or.inr rfl
  obtain ⟨hctxs, hcurrent, hrsp0, hcr3, hstats, hdispatches, hmode⟩ :=
    iret_loadCr3 (k.makeCurrent p) hload (k.ctxs p).regs
  exact ⟨hcurrent, fun q ↦ (congrFun hctxs q).trans (k.makeCurrent_ctxs p q), rfl, hrsp0, hcr3, hmode,
    congrArg OsStats.numProcesses hstats, hdispatches⟩

/-- The switch of the timer tick, when `CR3` is that of the current context. -/
theorem dispatched_switchTo {next : CtxPtr} (hcr3 : k.cr3 = k.ctx.pgd) (hne : next ≠ k.current) :
    Dispatched next (k.updateCtx k.current fun ctx ↦ ctx.saveRegs k.regs) (k.switchTo next) := by
  have hnext : (k.updateCtx k.current fun ctx ↦ ctx.saveRegs k.regs).ctxs next = k.ctxs next :=
    k.updateCtx_of_ne _ hne
  generalize hsaved : ({ k with stats.contextSwitches := k.stats.contextSwitches + 1 } : Kernel).updateCtx k.current
    (fun ctx ↦ ctx.saveRegs k.regs) = saved
  have hctxs : saved.ctxs = (k.updateCtx k.current fun ctx ↦ ctx.saveRegs k.regs).ctxs := hsaved ▸ rfl
  have hcr3' : saved.cr3 = k.ctx.pgd := hsaved ▸ hcr3
  have hprocesses : saved.stats.numProcesses = k.stats.numProcesses := hsaved ▸ rfl
  have hlogged : saved.dispatches = k.dispatches := hsaved ▸ rfl
  have hswitch : k.switchTo next = Kernel.iret ((if k.ctx.pgd = (k.ctxs next).pgd then saved
      else saved.loadCr3 (k.ctxs next).pgd).makeCurrent next) (k.ctxs next).regs := by
    rw [← hsaved]
    rfl
  have hload : (if k.ctx.pgd = (k.ctxs next).pgd then saved else saved.loadCr3 (k.ctxs next).pgd).makeCurrent next =
        saved.makeCurrent next ∧ (k.ctxs next).pgd = (saved.makeCurrent next).cr3 ∨
      (if k.ctx.pgd = (k.ctxs next).pgd then saved else saved.loadCr3 (k.ctxs next).pgd).makeCurrent next =
        (saved.makeCurrent next).loadCr3 (k.ctxs next).pgd := by
    split
    · rename_i heq
      exact Or.inl ⟨rfl, heq.symm.trans hcr3'.symm⟩
    · exact Or.inr (loadCr3_makeCurrent saved next _)
  obtain ⟨hctxs', hcurrent, hrsp0, hcr3'', hstats, hdispatches, hmode⟩ :=
    iret_loadCr3 (saved.makeCurrent next) hload (k.ctxs next).regs
  rw [← hswitch] at hctxs' hcurrent hrsp0 hcr3'' hstats hdispatches hmode
  refine ⟨hcurrent, fun q ↦ ?_, ?_, ?_, ?_, ?_, ?_, ?_⟩
  · rw [hctxs', saved.makeCurrent_ctxs, hctxs]
  · rw [hnext, hswitch]
    rfl
  · rw [hrsp0, ← hctxs]
    rfl
  · rw [hnext]
    exact hcr3''
  · rw [hnext]
    exact hmode
  · exact (congrArg OsStats.numProcesses hstats).trans hprocesses
  · rw [hdispatches]
    change ⟨next, (saved.ctxs next).state, saved.anyReady⟩ :: saved.dispatches = _
    unfold Kernel.anyReady
    rw [hctxs, hlogged]
    rfl

/-- The table and the counter when the current context is marked ready at the end of a tick. -/
def Kernel.readied (k : Kernel) : Kernel :=
  { k with stats.ticks := k.stats.ticks + 1 }.setState k.current .ready

theorem readied_ctxs (k : Kernel) (q : CtxPtr) :
    k.readied.ctxs q = if q = k.current then (k.ctxs q).setState .ready else k.ctxs q :=
  setState_ctxs _ k.current .ready q

theorem readied_pid (k : Kernel) : (k.readied.ctxs k.current).pid = k.ctx.pid := by
  rw [readied_ctxs, if_pos rfl]
  rfl

/-- The table from which the tick switches to another context. -/
def Kernel.preempted (k : Kernel) : Kernel :=
  k.readied.updateCtx k.current fun ctx ↦ ctx.saveRegs k.regs

theorem preempted_ctxs (k : Kernel) (q : CtxPtr) :
    k.preempted.ctxs q =
      if q = k.current then ((k.ctxs q).setState .ready).saveRegs k.regs else k.ctxs q := by
  unfold Kernel.preempted
  rw [updateCtx_ctxs, readied_ctxs]
  split <;> rfl

/-- The end of the tick: the current context goes on, or the picked one is dispatched. -/
theorem reschedule_cases (hcr3 : k.cr3 = k.ctx.pgd) :
    pickNextContext k.readied.ctxs k.current = k.current ∧ k.reschedule = k.readied ∨
      pickNextContext k.readied.ctxs k.current ≠ k.current ∧
        Dispatched (pickNextContext k.readied.ctxs k.current) k.preempted k.reschedule := by
  have heq : k.reschedule = if pickNextContext k.readied.ctxs k.current = k.current then k.readied
      else k.readied.switchTo (pickNextContext k.readied.ctxs k.current) := rfl
  rw [heq]
  split
  · exact Or.inl ⟨‹_›, rfl⟩
  · rename_i hne
    have hpgd : k.readied.ctx.pgd = k.ctx.pgd := by
      change (k.readied.ctxs k.current).pgd = _
      rw [readied_ctxs, if_pos rfl]
      rfl
    exact Or.inr ⟨hne, dispatched_switchTo (hcr3.trans hpgd.symm) hne⟩

/-- `do_exit`: another context is dispatched, or the last process is cleaned up. -/
theorem doExit_cases (k : Kernel) :
    (∃ i, Live k.retire.ctxs i) ∧
        Dispatched (pickNextContext k.retire.ctxs k.current) k.retire k.doExit ∨
      (∀ i, ¬ Live k.retire.ctxs i) ∧ k.doExit = k.retire.doCleanup := by
  unfold Kernel.doExit
  split
  · exact Or.inl ⟨(procExist_iff _).1 ‹_›, dispatched_schedule _ _⟩
  · rename_i hnone
    exact Or.inr ⟨fun i hi ↦ hnone ((procExist_iff _).2 ⟨i, hi⟩), rfl⟩

theorem retire_ctxs (k : Kernel) (q : CtxPtr) :
    k.retire.ctxs q = if q = k.current then (k.ctxs q).setState .unused else k.ctxs q :=
  setState_ctxs _ k.current .unused q

theorem retire_live (k : Kernel) (j : Fin maxProcesses) :
    Live k.retire.ctxs j ↔ some j ≠ k.current ∧ Live k.ctxs j := by
  unfold Live
  rw [retire_ctxs]
  split
  · rename_i heq
    constructor
    · exact fun hj ↦ absurd rfl hj.2
    · exact fun hj ↦ absurd heq hj.1
  · rename_i hne
    exact ⟨fun hj ↦ ⟨hne, hj⟩, fun hj ↦ hj.2⟩

/-- Delivering the alarm works, or the process leaves. -/
theorem accountAlarm_spec (k : Kernel) :
    Spec accountAlarm k (fun _ k' ↦ Works (keeping .tick k) k k') (Leaves .tick k) := by
  have hnot : ¬ KeepsAlarm .tick k := fun h ↦ h.1 rfl
  have hset : ∀ ticks k₁, Works (keeping .tick k) k₁ (k₁.setTicksToAlarm ticks) := fun ticks k₁ ↦
    Works.update ⟨rfl, rfl, rfl, rfl, rfl, rfl⟩ (fun hkeeps ↦ absurd hkeeps hnot) fun _ ↦ rfl
  unfold accountAlarm
  apply Spec.read_bind
  apply Spec.ite
  · intro _
    apply Spec.update_bind
    have hwork := hset (k.ctx.ticksToAlarm - 1) k
    apply Spec.ite
    · intro _
      apply Spec.bind ((serving_signalRunning .sigalrm).works hwork (noChild_of_ne fun _ ↦ Event.noConfusion))
      intro _ k' hwork'
      exact Spec.update (hwork'.trans (hset _ k'))
    · intro _
      exact Spec.pure hwork
  · intro _
    exact Spec.pure (Works.refl k)

/-- A tick whose alarm returns ends with the choice of the next context. -/
theorem handleTimerTick_returns (h : accountAlarm k.accountSleep = .ret () k₁) :
    handleTimerTick.final k = k₁.reschedule := by
  have hfinal : handleTimerTick.final k =
      ((accountAlarm >>= fun _ ↦ Prog.update Kernel.reschedule) : Prog Kernel Unit).final k.accountSleep := rfl
  have hbind : ((accountAlarm >>= fun _ ↦ Prog.update Kernel.reschedule) : Prog Kernel Unit) k.accountSleep =
      .ret () k₁.reschedule := by
    change Prog.bind accountAlarm _ k.accountSleep = _
    unfold Prog.bind
    rw [h]
    rfl
  rw [hfinal]
  unfold Prog.final
  rw [hbind]

/-- The delivery of the alarm ends the process, or the run. -/
def AlarmCut (k : Kernel) : Prop := ∀ k₁, accountAlarm k.accountSleep ≠ .ret () k₁

instance (k : Kernel) : Decidable (AlarmCut k) :=
  decidable_of_iff (¬ (accountAlarm k.accountSleep).returns = true) (by
    rw [Outcome.returns_iff]
    constructor
    · exact fun h k₁ heq ↦ h ⟨(), k₁, heq⟩
    · rintro h ⟨_, k₁, heq⟩
      exact h k₁ heq)

/-- A tick: after the sleepers were counted, the process leaves, or it works and the next context is
chosen. -/
theorem handleTimerTick_cases (k : Kernel) :
    AlarmCut k ∧ Leaves .tick k.accountSleep (handleTimerTick.final k) ∨
      ∃ k₁, accountAlarm k.accountSleep = .ret () k₁ ∧
        Works (keeping .tick k.accountSleep) k.accountSleep k₁ ∧ handleTimerTick.final k = k₁.reschedule := by
  have hspec := (accountAlarm_spec k.accountSleep).gone
  unfold Spec at hspec
  cases halarm : accountAlarm k.accountSleep with
  | ret value k₁ =>
    rw [halarm] at hspec
    exact Or.inr ⟨k₁, rfl, hspec.1, handleTimerTick_returns halarm⟩
  | gone k' =>
    rw [halarm] at hspec
    have hfinal : handleTimerTick.final k = k' := by
      change ((accountAlarm >>= fun _ ↦ Prog.update Kernel.reschedule) : Prog Kernel Unit).final k.accountSleep = _
      change (Prog.bind accountAlarm _).final k.accountSleep = _
      unfold Prog.final Prog.bind
      rw [halarm]
    rw [hfinal]
    exact Or.inl ⟨fun k₁ hreturn ↦ Outcome.noConfusion rfl rfl (heq_of_eq (halarm.symm.trans hreturn)), hspec.1⟩

/-- The table while the current context has given the processor up. -/
structure Idle (ctxs : CtxPtr → ExecContext) : Prop where
  swapper_ok : SwapperOk (ctxs swapper)
  swapper_ready : (ctxs swapper).state = .ready
  pid_eq : ∀ i, Live ctxs i → (ctxs (some i)).pid = i
  saved_cs : ∀ i, Live ctxs i → (ctxs (some i)).regs.entryCs = userCs

/-- The current context and the registers that follow it. -/
structure Placed (k : Kernel) : Prop where
  current_some : ∃ i, k.current = some i
  cr3_eq : k.cr3 = k.ctx.pgd
  rsp0_eq : k.rsp0 = (k.ctx.osStackPfn + 1) <<< pageShift
  busy : k.ctx.state = .ready ∨ k.ctx.state = .running

/-- The invariant of the scheduler. -/
structure Table (k : Kernel) : Prop where
  swapper_ok : SwapperOk (k.ctxs swapper)
  swapper_ready : k.current ≠ swapper → (k.ctxs swapper).state = .ready
  pid_eq : ∀ i, Live k.ctxs i → (k.ctxs (some i)).pid = i
  saved_cs : ∀ i, Live k.ctxs i → k.current ≠ some i → (k.ctxs (some i)).regs.entryCs = userCs
  empty : k.mode = .shell → k.current = none ∧ ∀ i, ¬ Live k.ctxs i
  placed : k.mode ≠ .shell → Placed k
  in_user : k.mode = .user → k.current ≠ swapper ∧ k.regs.entryCs = userCs
  in_swapper : k.mode = .swapper → k.current = swapper ∧ k.regs.entryCs = kernelCs

theorem Table.current_user (h : Table k) (hmode : k.mode = .user) :
    ∃ i, k.current = some i ∧ Live k.ctxs i ∧ k.ctx = k.ctxs (some i) := by
  have hplaced := h.placed (by rw [hmode]; decide)
  obtain ⟨i, hi⟩ := hplaced.current_some
  have hctx : k.ctx = k.ctxs (some i) := by rw [Kernel.ctx, hi]
  refine ⟨i, hi, ⟨fun hzero ↦ (h.in_user hmode).1 ?_, ?_⟩, hctx⟩
  · rw [hi, swapper_eq]
    exact congrArg some (Fin.ext hzero)
  · rw [← hctx]
    rcases hplaced.busy with hstate | hstate <;> simp [hstate]

theorem Live.some_ne_swapper (h : i.val ≠ 0) : some i ≠ swapper := by
  rw [swapper_eq]
  intro heq
  exact h (congrArg Fin.val (Option.some.inj heq))

/-- A context that is picked from an idle table gets the processor. -/
theorem Idle.table (h : Idle k.ctxs) (hdispatched : Dispatched p k k')
    (hp : p = swapper ∨ ∃ i : Fin maxProcesses, i.val ≠ 0 ∧ p = some i ∧ (k.ctxs (some i)).state = .ready) :
    Table k' := by
  have hlive : ∀ j, Live k'.ctxs j → Live k.ctxs j := by
    intro j hj
    refine ⟨hj.1, ?_⟩
    by_cases heq : some j = p
    · rcases hp with rfl | ⟨i, -, rfl, hready⟩
      · exact absurd heq (Live.some_ne_swapper hj.1)
      · rw [heq, hready]
        decide
    · have hstate := hj.2
      rwa [hdispatched.ctxs_eq, if_neg heq] at hstate
  have hself : k'.ctx = (k.ctxs p).setState .running := by
    rw [Kernel.ctx, hdispatched.current_eq, hdispatched.ctxs_eq, if_pos rfl]
  have hmode : k'.mode ≠ .shell ∧ (k'.mode = .user → (k.ctxs p).regs.entryCs = userCs) ∧
      (k'.mode = .swapper → (k.ctxs p).regs.entryCs ≠ userCs) := by
    rcases hdispatched.mode_eq with hdead | hmode
    · rw [hdead]
      exact ⟨by decide, fun hmode ↦ Mode.noConfusion hmode, fun hmode ↦ Mode.noConfusion hmode⟩
    · rw [hmode]
      split
      · exact ⟨by decide, fun _ ↦ ‹_›, fun hmode ↦ Mode.noConfusion hmode⟩
      · exact ⟨by decide, fun hmode ↦ Mode.noConfusion hmode, fun _ ↦ ‹_›⟩
  have hcs : (p = swapper → (k.ctxs p).regs.entryCs = kernelCs) ∧
      (p ≠ swapper → (k.ctxs p).regs.entryCs = userCs) := by
    refine ⟨fun heq ↦ heq ▸ h.swapper_ok.cs_eq, fun hne ↦ ?_⟩
    obtain ⟨i, hi, rfl, hready⟩ := hp.resolve_left hne
    exact h.saved_cs i ⟨hi, by rw [hready]; decide⟩
  refine ⟨?_, fun hne ↦ ?_, fun j hj ↦ ?_, fun j hj hne ↦ ?_, fun hshell ↦ absurd hshell hmode.1,
    fun _ ↦ ⟨?_, ?_, ?_, Or.inr ?_⟩, fun huser ↦ ⟨?_, ?_⟩, fun hswapper ↦ ?_⟩
  · rw [hdispatched.ctxs_eq]
    split
    · exact ⟨h.swapper_ok.pid_eq, h.swapper_ok.pgd_eq, by simp [ExecContext.setState], h.swapper_ok.cs_eq,
        h.swapper_ok.no_alarm⟩
    · exact h.swapper_ok
  · rw [hdispatched.current_eq] at hne
    rw [hdispatched.ctxs_eq, if_neg hne.symm]
    exact h.swapper_ready
  · rw [hdispatched.ctxs_eq]
    split
    · exact h.pid_eq j (hlive j hj)
    · exact h.pid_eq j (hlive j hj)
  · rw [hdispatched.current_eq] at hne
    rw [hdispatched.ctxs_eq, if_neg hne.symm]
    exact h.saved_cs j (hlive j hj)
  · rw [hdispatched.current_eq]
    rcases hp with rfl | ⟨i, -, rfl, -⟩
    · exact ⟨_, swapper_eq⟩
    · exact ⟨i, rfl⟩
  · rw [hself]
    exact hdispatched.cr3_eq
  · rw [hself]
    exact hdispatched.rsp0_eq
  · rw [hself]
    rfl
  · rw [hdispatched.current_eq]
    intro heq
    have huserCs := hmode.2.1 huser
    rw [hcs.1 heq] at huserCs
    exact absurd huserCs (by decide)
  · rw [hdispatched.regs_eq]
    exact hmode.2.1 huser
  · have hnot := hmode.2.2 hswapper
    rw [hdispatched.current_eq, hdispatched.regs_eq]
    by_cases heq : p = swapper
    · exact ⟨heq, hcs.1 heq⟩
    · exact absurd (hcs.2 heq) hnot

/-- An idle table from the one of a user process: its record keeps its number, and its saved registers
are those of user code. -/
theorem Table.idle (child : CtxPtr) (h : Table k) (hmode : k.mode = .user) {ctxs : CtxPtr → ExecContext}
    (hcurrent : k.current = some i)
    (hothers : ∀ j, j ≠ i → some j ≠ child → ctxs (some j) = k.ctxs (some j))
    (hchild : ∀ j, child = some j → (k.ctxs (some j)).state = .unused ∧ (ctxs (some j)).pid = j ∧
      (ctxs (some j)).regs.entryCs = userCs)
    (hself : Live ctxs i → (ctxs (some i)).pid = (k.ctxs (some i)).pid ∧ (ctxs (some i)).regs.entryCs = userCs) :
    Idle ctxs := by
  have hcases : ∀ j, j ≠ i → some j = child ∨ ctxs (some j) = k.ctxs (some j) := by
    intro j hj
    by_cases hjchild : some j = child
    · exact Or.inl hjchild
    · exact Or.inr (hothers j hj hjchild)
  obtain ⟨i', hi', hlive, -⟩ := h.current_user hmode
  obtain rfl := Option.some.inj (hcurrent.symm.trans hi')
  have hswapper : ctxs swapper = k.ctxs swapper := by
    rw [swapper_eq]
    refine (hcases _ fun heq ↦ hlive.1 (heq ▸ rfl)).resolve_left fun heq ↦ ?_
    exact h.swapper_ok.in_use (hchild _ heq.symm).1
  have hne : k.current ≠ swapper := (h.in_user hmode).1
  refine ⟨hswapper ▸ h.swapper_ok, hswapper ▸ h.swapper_ready hne, fun j hj ↦ ?_, fun j hj ↦ ?_⟩
  · by_cases hji : j = i
    · subst hji
      exact (hself hj).1.trans (h.pid_eq j hlive)
    · rcases hcases j hji with hjchild | hsame
      · exact (hchild j hjchild.symm).2.1
      · rw [hsame]
        exact h.pid_eq j ⟨hj.1, hsame ▸ hj.2⟩
  · by_cases hji : j = i
    · subst hji
      exact (hself hj).2
    · rcases hcases j hji with hjchild | hsame
      · exact (hchild j hjchild.symm).2.2
      · rw [hsame]
        refine h.saved_cs j ⟨hj.1, hsame ▸ hj.2⟩ fun heq ↦ hji ?_
        exact (Option.some.inj (hcurrent.symm.trans heq)).symm

/-- The current user process keeps the processor, or the run stops. -/
theorem Table.holds {A : Keeping} (h : Table k) (hmode : k.mode = .user) (hholds : Holds A child k k')
    (hchild : ∀ j, child = some j → (k.ctxs (some j)).state = .unused ∧ (k'.ctxs (some j)).pid = j ∧
      (k'.ctxs (some j)).regs.entryCs = k.regs.entryCs)
    (hmode' : k'.mode = .user ∨ Stopped k'.mode) (hcr3 : k'.cr3 = k.cr3) : Table k' := by
  have hplaced := h.placed (by rw [hmode]; decide)
  obtain ⟨i, hi, hlive, hctx⟩ := h.current_user hmode
  have hctx' : k'.ctx = k'.ctxs (some i) := by rw [Kernel.ctx, hholds.current_eq, hi]
  have hseat := hholds.seat
  have huser := (h.in_user hmode).2
  have hnot : k'.mode ≠ .shell ∧ k'.mode ≠ .swapper := by
    rcases hmode' with heq | hstopped
    · rw [heq]
      decide
    · constructor <;> intro heq <;> rw [heq] at hstopped <;> exact hstopped
  have hcases : ∀ j, j ≠ i → some j = child ∨ k'.ctxs (some j) = k.ctxs (some j) := by
    intro j hj
    by_cases hjchild : some j = child
    · exact Or.inl hjchild
    · exact Or.inr (hholds.others j (fun heq ↦ hj (Option.some.inj (heq.trans hi))) hjchild)
  have hswapper : k'.ctxs swapper = k.ctxs swapper := by
    rw [swapper_eq]
    refine (hcases _ fun heq ↦ hlive.1 (heq ▸ rfl)).resolve_left fun heq ↦ ?_
    exact h.swapper_ok.in_use (hchild _ heq.symm).1
  refine ⟨hswapper ▸ h.swapper_ok, fun hne ↦ ?_, fun j hj ↦ ?_, fun j hj hne ↦ ?_, fun heq ↦ absurd heq hnot.1,
    fun _ ↦ ⟨⟨i, hholds.current_eq.trans hi⟩, ?_, ?_, ?_⟩, fun _ ↦ ⟨?_, ?_⟩, fun heq ↦ absurd heq hnot.2⟩
  · rw [hswapper]
    exact h.swapper_ready (h.in_user hmode).1
  · by_cases hji : j = i
    · subst hji
      rw [← hctx', hseat.pid_eq, hctx]
      exact h.pid_eq j hlive
    · rcases hcases j hji with hjchild | hsame
      · exact (hchild j hjchild.symm).2.1
      · rw [hsame]
        exact h.pid_eq j ⟨hj.1, hsame ▸ hj.2⟩
  · have hji : j ≠ i := fun heq ↦ hne (hholds.current_eq.trans (heq ▸ hi))
    rcases hcases j hji with hjchild | hsame
    · exact (hchild j hjchild.symm).2.2.trans huser
    · rw [hsame]
      exact h.saved_cs j ⟨hj.1, hsame ▸ hj.2⟩ (hholds.current_eq ▸ hne)
  · rw [hcr3, hseat.pgd_eq]
    exact hplaced.cr3_eq
  · rw [hholds.rsp0_eq, hseat.stack_eq]
    exact hplaced.rsp0_eq
  · rw [hseat.state_eq]
    exact hplaced.busy
  · rw [hholds.current_eq]
    exact (h.in_user hmode).1
  · exact hholds.cs_eq.trans huser

theorem Left.holds (h : Left event child k (k'.withMode k.mode)) : Holds (keeping event k) child k k' :=
  ⟨h.current_eq, h.rsp0_eq, h.cs_eq, h.dispatches_eq, h.others, h.seat, h.name_eq, h.alarm, h.segments⟩

theorem doCleanup_ctxs (k : Kernel) (q : CtxPtr) :
    k.doCleanup.ctxs q = if q = k.current then (k.ctxs q).setState .unused else k.ctxs q :=
  setState_ctxs _ k.current .unused q

/-- `do_cleanup` goes back to the shell. -/
theorem Idle.table_doCleanup (h : Idle k.ctxs) (hnone : ∀ i, ¬ Live k.ctxs i) (hcurrent : k.current ≠ swapper) :
    Table k.doCleanup := by
  have hswapper : k.doCleanup.ctxs swapper = k.ctxs swapper := by rw [doCleanup_ctxs, if_neg hcurrent.symm]
  have hempty : ∀ i, ¬ Live k.doCleanup.ctxs i := by
    rintro i ⟨hi, hstate⟩
    rw [doCleanup_ctxs] at hstate
    split at hstate
    · exact hstate rfl
    · exact hnone i ⟨hi, hstate⟩
  exact ⟨hswapper ▸ h.swapper_ok, fun _ ↦ hswapper ▸ h.swapper_ready, fun i hi ↦ absurd hi (hempty i),
    fun i hi ↦ absurd hi (hempty i), fun _ ↦ ⟨rfl, hempty⟩, fun hshell ↦ absurd rfl hshell,
    fun hmode ↦ Mode.noConfusion hmode, fun hmode ↦ Mode.noConfusion hmode⟩

/-- The current context carries the number of its slot. -/
theorem Table.current_pid (h : Table k) (hmode : k.mode ≠ .shell) :
    ∃ i : Fin maxProcesses, k.current = some i ∧ k.ctx.pid = i := by
  have hplaced := h.placed hmode
  obtain ⟨i, hi⟩ := hplaced.current_some
  have hbusy := hplaced.busy
  refine ⟨i, hi, ?_⟩
  rw [Kernel.ctx, hi] at hbusy ⊢
  by_cases hzero : i.val = 0
  · have hswapper : some i = swapper := by
      rw [swapper_eq]
      exact congrArg some (Fin.ext hzero)
    rw [hswapper, h.swapper_ok.pid_eq, hzero]
  · apply h.pid_eq i
    refine ⟨hzero, ?_⟩
    rcases hbusy with hstate | hstate <;> rw [hstate] <;> decide

theorem Table.pid_lt (h : Table k) (hmode : k.mode ≠ .shell) : k.ctx.pid < maxProcesses := by
  obtain ⟨i, -, hpid⟩ := h.current_pid hmode
  exact hpid ▸ i.isLt

theorem Left.ctx_pid (h : Left event child k k₁) : (k₁.retire.ctxs k₁.current).pid = k.ctx.pid := by
  rw [retire_ctxs, if_pos rfl]
  exact h.seat.pid_eq

/-- The table when the current process has given up its record. -/
theorem Table.idle_retired (h : Table k) (hmode : k.mode = .user) (hleft : Left event child k k₁) :
    Idle k₁.retire.ctxs := by
  obtain ⟨i, hi, hlive, hctx⟩ := h.current_user hmode
  have hcurrent : k₁.current = some i := hleft.current_eq.trans hi
  have hothers : ∀ j, j ≠ i → k₁.retire.ctxs (some j) = k₁.ctxs (some j) := by
    intro j hj
    rw [retire_ctxs, if_neg]
    rw [hcurrent]
    exact fun heq ↦ hj (Option.some.inj heq)
  apply h.idle child hmode hi
  · intro j hj hchild
    rw [hothers j hj]
    exact hleft.others j (fun heq ↦ hj (Option.some.inj (heq.trans hi))) hchild
  · intro j hj
    obtain ⟨-, -, hspawned, -⟩ := hleft.cut j hj
    have hji : j ≠ i := by
      rintro rfl
      exact hlive.2 (hspawned.vacant j hj)
    rw [hothers j hji]
    exact ⟨hspawned.vacant j hj, hspawned.pid_eq j hj, (hspawned.cs_eq j hj).trans (h.in_user hmode).2⟩
  · intro hself
    refine absurd ?_ hself.2
    rw [retire_ctxs, if_pos hcurrent.symm]
    rfl

theorem Table.leaves (h : Table k) (hmode : k.mode = .user) (hleaves : Leaves event k k') : Table k' := by
  cases hleaves with
  | @exit k₁ child hleft =>
    have hidle := h.idle_retired hmode hleft
    rcases doExit_cases k₁ with ⟨-, hdispatched⟩ | ⟨hnone, hcleanup⟩
    · apply hidle.table hdispatched (pickNextContext_cases _ ?_)
      rw [hleft.ctx_pid]
      exact h.pid_lt (by rw [hmode]; decide)
    · rw [hcleanup]
      apply hidle.table_doCleanup hnone
      change k₁.current ≠ swapper
      rw [hleft.current_eq]
      exact (h.in_user hmode).1
  | stop stopped hleft hcr3 =>
    apply h.holds hmode hleft.holds ?_ (Or.inr stopped) hcr3
    intro j hj
    obtain ⟨-, -, hspawned, -⟩ := hleft.cut j hj
    exact ⟨hspawned.vacant j hj, hspawned.pid_eq j hj, hspawned.cs_eq j hj⟩

/-- The table from which a sleeping process gives the processor up. -/
def Kernel.slept (k : Kernel) : Kernel :=
  k.saveRegs.updateCtx k.current fun ctx ↦ ctx.sleepFor k.regs.rsi

theorem slept_ctxs (k : Kernel) (q : CtxPtr) :
    k.slept.ctxs q = if q = k.current then ((k.ctxs q).saveRegs k.regs).sleepFor k.regs.rsi else k.ctxs q := by
  have hsaved : k.saveRegs.ctxs q = if q = k.current then (k.ctxs q).saveRegs k.regs else k.ctxs q :=
    k.updateCtx_ctxs k.current (fun ctx ↦ ctx.saveRegs k.regs) q
  unfold Kernel.slept
  rw [updateCtx_ctxs, hsaved]
  split <;> rfl

theorem slept_pid (k : Kernel) : (k.slept.ctxs k.current).pid = k.ctx.pid := by
  rw [slept_ctxs, if_pos rfl]
  rfl

theorem dispatched_doSleep (k : Kernel) :
    Dispatched (pickNextContext k.slept.ctxs k.current) k.slept (k.saveRegs.doSleep k.regs.rsi) :=
  dispatched_schedule _ _

theorem Table.idle_slept (h : Table k) (hmode : k.mode = .user) : Idle k.slept.ctxs := by
  obtain ⟨i, hi, hlive, hctx⟩ := h.current_user hmode
  apply h.idle none hmode hi
  · intro j hj _
    rw [slept_ctxs, if_neg]
    rw [hi]
    exact fun heq ↦ hj (Option.some.inj heq)
  · intro j hj
    exact absurd hj.symm (Option.some_ne_none j)
  · intro _
    rw [slept_ctxs, if_pos hi.symm]
    exact ⟨rfl, (h.in_user hmode).2⟩

theorem Table.turn (h : Table k) (hmode : k.mode = .user) (hturn : Turn event k k') : Table k' := by
  obtain ⟨i, hi, hlive, hctx⟩ := h.current_user hmode
  cases hturn with
  | work _ hworks =>
    apply h.holds hmode hworks.toHolds ?_ (Or.inl (hworks.mode_eq.trans hmode)) hworks.cr3_eq
    intro j hj
    exact absurd hj.symm (Option.some_ne_none j)
  | fork _ _ hholds hspawned hmode' hcr3 =>
    apply h.holds hmode hholds ?_ (Or.inl (hmode'.trans hmode)) hcr3
    exact fun j hj ↦ ⟨hspawned.vacant j hj, hspawned.pid_eq j hj, hspawned.cs_eq j hj⟩
  | clone _ hholds hspawned hmode' hcr3 =>
    apply h.holds hmode hholds ?_ (Or.inl (hmode'.trans hmode)) hcr3
    exact fun j hj ↦ ⟨hspawned.vacant j hj, hspawned.pid_eq j hj, hspawned.cs_eq j hj⟩
  | sleep =>
    apply (h.idle_slept hmode).table (dispatched_doSleep k) (pickNextContext_cases _ ?_)
    rw [slept_pid]
    exact h.pid_lt (by rw [hmode]; decide)
  | leave hleaves => exact h.leaves hmode hleaves

theorem countSleep_of_ne {ctx : ExecContext} (h : ctx.state ≠ .waiting) : ctx.countSleep = ctx :=
  if_neg fun hwaits ↦ h hwaits.1

/-- Counting the sleepers keeps the invariant, and the record of the current context. -/
theorem Table.accountSleep (h : Table k) (hmode : k.mode ≠ .shell) :
    Table k.accountSleep ∧ k.accountSleep.ctx = k.ctx := by
  have hplaced := h.placed hmode
  have hctxs : ∀ i, k.accountSleep.ctxs (some i) = (k.ctxs (some i)).countSleep := fun _ ↦ rfl
  have hctx : k.accountSleep.ctx = k.ctx := by
    obtain ⟨i, hi⟩ := hplaced.current_some
    have hsame : k.accountSleep.ctx = k.ctx.countSleep := by
      rw [Kernel.ctx, Kernel.ctx, show k.accountSleep.current = k.current from rfl, hi, hctxs]
    rw [hsame]
    apply countSleep_of_ne
    rcases hplaced.busy with hstate | hstate <;> simp [hstate]
  refine ⟨⟨?_, fun hne ↦ ?_, fun i hi ↦ ?_, fun i hi hne ↦ ?_, fun hshell ↦ absurd hshell hmode, fun _ ↦ ?_,
    h.in_user, h.in_swapper⟩, hctx⟩
  · have hcount := countSleep_eq (k.ctxs swapper)
    refine ⟨hcount.2.1.trans h.swapper_ok.pid_eq, hcount.1.trans h.swapper_ok.pgd_eq, ?_,
      (congrArg UserRegs.entryCs hcount.2.2.2.2.1).trans h.swapper_ok.cs_eq,
      hcount.2.2.2.2.2.1.trans h.swapper_ok.no_alarm⟩
    rcases hcount.2.2.2.2.2.2 with hsame | ⟨-, hready⟩
    · exact fun hstate ↦ h.swapper_ok.in_use (hsame.symm.trans hstate)
    · exact fun hstate ↦ ProcessState.noConfusion (hready.symm.trans hstate)
  · have hready := h.swapper_ready hne
    have hstate : (k.ctxs swapper).state ≠ .waiting := fun hwaiting ↦
      ProcessState.noConfusion (hready.symm.trans hwaiting)
    have hsame : k.accountSleep.ctxs swapper = k.ctxs swapper := countSleep_of_ne hstate
    rw [hsame]
    exact hready
  · exact (countSleep_eq _).2.1.trans (h.pid_eq i ((accountSleep_live k i).1 hi))
  · exact (congrArg UserRegs.entryCs (countSleep_eq _).2.2.2.2.1).trans
      (h.saved_cs i ((accountSleep_live k i).1 hi) hne)
  · refine ⟨hplaced.current_some, ?_, ?_, ?_⟩
    · rw [hctx]
      exact hplaced.cr3_eq
    · rw [hctx]
      exact hplaced.rsp0_eq
    · rw [hctx]
      exact hplaced.busy

/-- The current context, marked ready, keeps the processor. -/
theorem Table.readied (h : Table k) (hmode : k.mode = .user ∨ k.mode = .swapper) : Table k.readied := by
  have hshell : k.mode ≠ .shell := by rcases hmode with heq | heq <;> rw [heq] <;> decide
  have hplaced := h.placed hshell
  have hctx : k.readied.ctx = k.ctx.setState .ready := by
    change k.readied.ctxs k.current = _
    rw [readied_ctxs, if_pos rfl]
    rfl
  have hlive : ∀ i, Live k.readied.ctxs i → Live k.ctxs i := by
    rintro i ⟨hi, hstate⟩
    refine ⟨hi, ?_⟩
    rw [readied_ctxs] at hstate
    split at hstate
    · rename_i heq
      rw [heq]
      change k.ctx.state ≠ .unused
      rcases hplaced.busy with hbusy | hbusy <;> simp [hbusy]
    · exact hstate
  refine ⟨?_, fun hne ↦ ?_, fun i hi ↦ ?_, fun i hi hne ↦ ?_, fun heq ↦ absurd heq hshell, fun _ ↦ ?_,
    h.in_user, h.in_swapper⟩
  · rw [readied_ctxs]
    split
    · exact ⟨h.swapper_ok.pid_eq, h.swapper_ok.pgd_eq, by simp [ExecContext.setState], h.swapper_ok.cs_eq,
        h.swapper_ok.no_alarm⟩
    · exact h.swapper_ok
  · have hother : swapper ≠ k.current := Ne.symm hne
    rw [readied_ctxs, if_neg hother]
    exact h.swapper_ready hne
  · rw [readied_ctxs]
    split
    · exact h.pid_eq i (hlive i hi)
    · exact h.pid_eq i (hlive i hi)
  · have hother : some i ≠ k.current := Ne.symm hne
    rw [readied_ctxs, if_neg hother]
    exact h.saved_cs i (hlive i hi) hne
  · refine ⟨hplaced.current_some, ?_, ?_, ?_⟩
    · rw [hctx]
      exact hplaced.cr3_eq
    · rw [hctx]
      exact hplaced.rsp0_eq
    · rw [hctx]
      exact Or.inl rfl

/-- The interrupted context is saved; anyone may be dispatched. -/
theorem Table.idle_preempted (h : Table k) (hmode : k.mode = .user ∨ k.mode = .swapper) :
    Idle k.preempted.ctxs := by
  rcases hmode with huser | hswapper
  · obtain ⟨i, hi, hlive, -⟩ := h.current_user huser
    apply h.idle none huser hi
    · intro j hj _
      rw [preempted_ctxs, if_neg]
      rw [hi]
      exact fun heq ↦ hj (Option.some.inj heq)
    · intro j hj
      exact absurd hj.symm (Option.some_ne_none j)
    · intro _
      rw [preempted_ctxs, if_pos hi.symm]
      exact ⟨rfl, (h.in_user huser).2⟩
  · obtain ⟨hcurrent, hcs⟩ := h.in_swapper hswapper
    have hother : ∀ j, Live k.preempted.ctxs j → some j ≠ k.current := fun j hj ↦
      hcurrent ▸ Live.some_ne_swapper hj.1
    refine ⟨?_, ?_, fun j hj ↦ ?_, fun j hj ↦ ?_⟩
    · rw [preempted_ctxs, if_pos hcurrent.symm]
      exact ⟨h.swapper_ok.pid_eq, h.swapper_ok.pgd_eq, by simp [ExecContext.saveRegs, ExecContext.setState], hcs,
        h.swapper_ok.no_alarm⟩
    · rw [preempted_ctxs, if_pos hcurrent.symm]
      rfl
    · have hne := hother j hj
      have hsame : k.preempted.ctxs (some j) = k.ctxs (some j) := by rw [preempted_ctxs, if_neg hne]
      rw [hsame]
      exact h.pid_eq j ⟨hj.1, hsame ▸ hj.2⟩
    · have hne := hother j hj
      have hsame : k.preempted.ctxs (some j) = k.ctxs (some j) := by rw [preempted_ctxs, if_neg hne]
      rw [hsame]
      exact h.saved_cs j ⟨hj.1, hsame ▸ hj.2⟩ hne.symm

/-- The pick at the end of a tick: the registers saved after the pick are not read by it. -/
theorem Table.pick_preempted (h : Table k) (hmode : k.mode ≠ .shell)
    (hne : pickNextContext k.readied.ctxs k.current ≠ k.current) :
    pickNextContext k.readied.ctxs k.current = swapper ∨
      ∃ i : Fin maxProcesses, i.val ≠ 0 ∧ pickNextContext k.readied.ctxs k.current = some i ∧
        (k.preempted.ctxs (some i)).state = .ready := by
  have hpid : (k.readied.ctxs k.current).pid < maxProcesses := by
    rw [readied_pid]
    exact h.pid_lt hmode
  rcases pickNextContext_cases k.readied.ctxs hpid with hswapper | ⟨i, hi, hpick, hready⟩
  · exact Or.inl hswapper
  · refine Or.inr ⟨i, hi, hpick, ?_⟩
    rw [hpick] at hne
    rw [readied_ctxs, if_neg hne] at hready
    rw [preempted_ctxs, if_neg hne]
    exact hready

theorem Table.reschedule (h : Table k) (hmode : k.mode = .user ∨ k.mode = .swapper) : Table k.reschedule := by
  have hshell : k.mode ≠ .shell := by rcases hmode with heq | heq <;> rw [heq] <;> decide
  rcases reschedule_cases (h.placed hshell).cr3_eq with ⟨-, hstay⟩ | ⟨hne, hdispatched⟩
  · rw [hstay]
    exact h.readied hmode
  · exact (h.idle_preempted hmode).table hdispatched (h.pick_preempted hshell hne)

/-- What the `init` command does from the shell: one record, in the first free slot, runs. -/
structure Launched (i : Fin maxProcesses) (record : ExecContext) (k k' : Kernel) : Prop where
  ctxs_eq : k'.ctxs = Function.update k.ctxs (some i) record
  current_eq : k'.current = some i
  pid_eq : record.pid = i
  state_eq : record.state = .running
  stack_eq : record.osRsp = stackTop record.osStackPfn
  mms_eq : ∃ old, record.mms = execSegments (initSegments old)
  cr3_eq : k'.cr3 = record.pgd
  rsp0_eq : k'.rsp0 = (record.osStackPfn + 1) <<< pageShift
  cs_eq : k'.regs.entryCs = userCs
  mode_eq : k'.mode = .dead ∨ k'.mode = .user
  processes_eq : k'.stats.numProcesses = (k.stats.numProcesses + 1) % 2 ^ 64
  dispatches_eq : k'.dispatches = k.dispatches

theorem launched_execInit {record : ExecContext} (hborn : Born (some i) record k k₁) (hpid : record.pid = i)
    (hstack : record.osRsp = stackTop record.osStackPfn) (hmms : ∃ old, record.mms = initSegments old)
    (hprocesses : k₁.stats.numProcesses = k.stats.numProcesses) (args : InitArgs) (scratch : UserRegs) :
    ∃ record', Launched i record' k (k₁.execInit (some i) args scratch) := by
  unfold Kernel.execInit
  simp only
  generalize buildInit (k₁.ctxs (some i)).mms k₁.config k₁.mem = built
  generalize hk₂ : Kernel.updateCtx _ (some i) (fun ctx ↦ { ctx with pgd := built.1, mms := execSegments ctx.mms }) = k₂
  have hctxs : k₂.ctxs = Function.update k.ctxs (some i)
      { record with pgd := built.1, mms := execSegments record.mms } := by
    rw [← hk₂, ← hborn.self]
    change Function.update k₁.ctxs (some i) _ = _
    rw [hborn.ctxs_eq, Function.update_idem]
  have hself : k₂.ctxs (some i) = { record with pgd := built.1, mms := execSegments record.mms } := by
    rw [hctxs, Function.update_self]
  have hcount : k₂.stats.numProcesses = (k.stats.numProcesses + 1) % 2 ^ 64 := by
    rw [← hk₂, ← hprocesses]
    rfl
  obtain ⟨hctxs', hcurrent, hrsp0, hcr3, hstats, hdispatches, hmode⟩ :=
    iret_loadCr3 (k₂.setCurrentCtx (some i)) (Or.inr rfl)
    (initRegs args scratch)
  refine ⟨ExecContext.setState { record with pgd := built.1, mms := execSegments record.mms } .running,
    ⟨?_, hcurrent, hpid, rfl, hstack, ?_, hcr3, ?_, rfl, hmode, ?_, hdispatches.trans ?_⟩⟩
  · rw [hctxs']
    funext q
    rw [k₂.setCurrentCtx_ctxs, hctxs]
    by_cases hq : q = some i
    · rw [if_pos hq, hq, Function.update_self, Function.update_self]
    · rw [if_neg hq, Function.update_of_ne hq, Function.update_of_ne hq]
  · obtain ⟨old, hold⟩ := hmms
    exact ⟨old, congrArg execSegments hold⟩
  · rw [hrsp0]
    change ((k₂.ctxs (some i)).osStackPfn + 1) <<< pageShift = _
    rw [hself]
    rfl
  · exact (congrArg OsStats.numProcesses hstats).trans hcount
  · rw [← hborn.dispatches_eq, ← hk₂]
    rfl

theorem Table.launched (h : Table k) (hmode : k.mode = .shell) (args : InitArgs) (scratch : UserRegs) :
    ∃ i record, i.val ≠ 0 ∧ Launched i record k (k.launch args scratch) := by
  have hempty := (h.empty hmode).2
  rcases k.getNewCtx_cases with ⟨i, f, hvacant, -, hpid, hnew⟩ | ⟨hfull, -⟩
  · have hi : i.val ≠ 0 := by
      intro hzero
      have hswapper : some i = swapper := by
        rw [swapper_eq]
        exact congrArg some (Fin.ext hzero)
      exact h.swapper_ok.in_use (hswapper ▸ hvacant)
    have hseat := setNameBytes_seat
      { f (k.ctxs (some i)) with
        state := .new
        type := .user
        usedMem := 0
        pgd := 0
        osStackPfn := (osPfnAlloc .osPt k.mem).1
        osRsp := stackTop (osPfnAlloc .osPt k.mem).1
        mms := initSegments (f (k.ctxs (some i))).mms } 0 initName
    have hcreated : ∃ k₁ record, k.createContext = (some i, k₁) ∧ Born (some i) record k k₁ ∧
        record.pid = i ∧ record.osRsp = stackTop record.osStackPfn ∧ (∃ old, record.mms = initSegments old) ∧
        k₁.stats.numProcesses = k.stats.numProcesses := by
      unfold Kernel.createContext
      rw [hnew]
      refine ⟨_, _, rfl, ⟨?_, rfl, rfl, rfl, rfl, rfl, rfl⟩, hseat.1.pid_eq.trans (hpid _), ?_,
        ⟨_, hseat.2.2⟩, rfl⟩
      · change Function.update (Function.update k.ctxs (some i) _) (some i) _ = _
        rw [Function.update_idem, updateCtx_self]
        rfl
      · rw [hseat.1.rsp_eq, hseat.1.stack_eq]
    obtain ⟨k₁, record, hcreate, hborn, hpid', hstack, hmms, hprocesses⟩ := hcreated
    obtain ⟨record', hlaunched⟩ := launched_execInit hborn hpid' hstack hmms hprocesses args scratch
    refine ⟨i, record', hi, ?_⟩
    unfold Kernel.launch
    rw [hcreate]
    exact hlaunched
  · exact absurd (fun hunused ↦ hfull _ hunused) fun hnot ↦
      hempty ⟨1, by decide⟩ ⟨by decide, hnot⟩

theorem Launched.table {record : ExecContext} (h : Table k) (hmode : k.mode = .shell) (hi : i.val ≠ 0)
    (hlaunched : Launched i record k k') : Table k' := by
  have hempty := (h.empty hmode).2
  have hself : k'.ctxs (some i) = record := by rw [hlaunched.ctxs_eq, Function.update_self]
  have hctx : k'.ctx = record := by rw [Kernel.ctx, hlaunched.current_eq, hself]
  have hother : ∀ q, q ≠ some i → k'.ctxs q = k.ctxs q := fun q hq ↦ by
    rw [hlaunched.ctxs_eq, Function.update_of_ne hq]
  have hlive : ∀ j, Live k'.ctxs j → j = i := by
    intro j hj
    by_contra hne
    have hsome : some j ≠ some i := fun heq ↦ hne (Option.some.inj heq)
    exact hempty j ⟨hj.1, hother _ hsome ▸ hj.2⟩
  have hswapper : k'.ctxs swapper = k.ctxs swapper := hother _ (Live.some_ne_swapper hi).symm
  have hnone : k.current ≠ swapper := by
    rw [(h.empty hmode).1, swapper_eq]
    exact fun heq ↦ Option.some_ne_none _ heq.symm
  have hmode' : k'.mode ≠ .shell ∧ k'.mode ≠ .swapper := by
    rcases hlaunched.mode_eq with heq | heq <;> rw [heq] <;> decide
  refine ⟨hswapper ▸ h.swapper_ok, fun _ ↦ hswapper ▸ h.swapper_ready hnone, fun j hj ↦ ?_, fun j hj hne ↦ ?_,
    fun heq ↦ absurd heq hmode'.1, fun _ ↦ ⟨⟨i, hlaunched.current_eq⟩, ?_, ?_, ?_⟩, fun _ ↦ ⟨?_, hlaunched.cs_eq⟩,
    fun heq ↦ absurd heq hmode'.2⟩
  · obtain rfl := hlive j hj
    rw [hself]
    exact hlaunched.pid_eq
  · exact absurd (hlive j hj ▸ hlaunched.current_eq) hne
  · rw [hctx]
    exact hlaunched.cr3_eq
  · rw [hctx]
    exact hlaunched.rsp0_eq
  · rw [hctx]
    exact Or.inr hlaunched.state_eq
  · rw [hlaunched.current_eq]
    exact Live.some_ne_swapper hi

/-- The event is a tick that the kernel handles. -/
def Ticks (event : Event) (k : Kernel) : Prop := event = .tick ∧ (k.mode = .user ∨ k.mode = .swapper)

instance (event : Event) (k : Kernel) : Decidable (Ticks event k) := by
  unfold Ticks
  infer_instance

/-- What one event does in each mode. -/
inductive Moves (event : Event) (k : Kernel) : Kernel → Prop
  | rest (no_user : k.mode ≠ .user) (no_tick : ¬ Ticks event k) : Moves event k k
  | launch {k' : Kernel} {i : Fin maxProcesses} {record : ExecContext} (mode : k.mode = .shell) (slot : i.val ≠ 0)
      (launched : Launched i record k k') : Moves event k k'
  | turn {k' : Kernel} (mode : k.mode = .user) (event_ne : event ≠ .tick) (turn : Turn event k k') :
      Moves event k k'
  | leave {k' : Kernel} (mode : k.mode = .user) (tick : event = .tick) (cut : AlarmCut k)
    (leaves : Leaves .tick k.accountSleep k') :
      Moves event k k'
  | tick {k₁ : Kernel} (mode : k.mode = .user ∨ k.mode = .swapper) (tick : event = .tick)
      (returned : accountAlarm k.accountSleep = .ret () k₁)
      (works : Works (keeping .tick k.accountSleep) k.accountSleep k₁)
      (swapper : k.mode = .swapper → k₁ = k.accountSleep) : Moves event k k₁.reschedule

/-- Without an alarm nothing is delivered. -/
theorem accountAlarm_unset {store : KernelStore} (h : k.ctx.ticksToAlarm = 0) :
    accountAlarmWith store k = .ret () k := by
  have hread : accountAlarmWith store k = (if 0 < k.ctx.ticksToAlarm then (do
      Prog.update (setTicksToAlarm (k.ctx.ticksToAlarm - 1))
      if k.ctx.ticksToAlarm = 1 then
        signalRunningWith store .sigalrm
        Prog.update fun k ↦ k.setTicksToAlarm k.ctx.alarmConfigTime
      else pure ()) else pure ()) k := rfl
  rw [hread, if_neg (by rw [h]; exact lt_irrefl 0)]
  rfl

theorem Table.moves (h : Table k) (event : Event) : Moves event k (step event k) := by
  by_cases hshell : k.mode = .shell
  · rcases step_shell hshell event with hrest | ⟨args, scratch, -, hlaunch⟩
    · rw [hrest]
      refine .rest (by rw [hshell]; decide) fun htick ↦ ?_
      rcases htick.2 with heq | heq <;> exact Mode.noConfusion (hshell.symm.trans heq)
    · obtain ⟨i, record, hi, hlaunched⟩ := h.launched hshell args scratch
      rw [hlaunch]
      exact .launch hshell hi hlaunched
  by_cases huser : k.mode = .user
  · obtain ⟨i, hi, hlive, hctx⟩ := h.current_user huser
    rw [step_user huser]
    by_cases htick : event = .tick
    · subst htick
      rcases handleTimerTick_cases k with ⟨hcut, hleaves⟩ | ⟨k₁, hreturn, hworks, heq⟩
      · exact .leave huser rfl hcut hleaves
      · rw [show (userProgram .tick).final k = k₁.reschedule from heq]
        exact .tick (Or.inl huser) rfl hreturn hworks fun hswapper ↦ Mode.noConfusion (huser.symm.trans hswapper)
    · exact .turn huser htick (turn_userProgram hi (hctx ▸ hlive.2) htick)
  by_cases hswapper : k.mode = .swapper
  · rcases step_swapper hswapper event with ⟨hne, hrest⟩ | ⟨htick, hstep⟩
    · rw [hrest]
      exact .rest huser fun htick ↦ hne htick.1
    · have hctx : k.accountSleep.ctx.ticksToAlarm = 0 := by
        rw [(h.accountSleep hshell).2, Kernel.ctx, (h.in_swapper hswapper).1]
        exact h.swapper_ok.no_alarm
      rw [hstep, handleTimerTick_returns (accountAlarm_unset hctx)]
      exact .tick (Or.inr hswapper) htick (accountAlarm_unset hctx) (Works.refl _) fun _ ↦ rfl
  · rw [step_stopped hshell huser hswapper]
    exact .rest huser fun htick ↦ htick.2.elim huser hswapper

/-- The table at the end of a tick, before the next context is picked. -/
theorem Table.ticked (h : Table k) (hmode : k.mode = .user ∨ k.mode = .swapper)
    (hworks : Works (keeping .tick k.accountSleep) k.accountSleep k₁)
    (hswapper : k.mode = .swapper → k₁ = k.accountSleep) :
    Table k₁ ∧ (k₁.mode = .user ∨ k₁.mode = .swapper) := by
  have hcounted := (h.accountSleep (by rcases hmode with heq | heq <;> rw [heq] <;> decide)).1
  rcases hmode with heq | heq
  · have hmode₁ : k₁.mode = .user := hworks.mode_eq.trans heq
    refine ⟨hcounted.holds heq hworks.toHolds (fun j hj ↦ ?_) (Or.inl hmode₁) hworks.cr3_eq, Or.inl hmode₁⟩
    exact absurd hj.symm (Option.some_ne_none j)
  · rw [hswapper heq]
    exact ⟨hcounted, Or.inr heq⟩

/-- Every event keeps the invariant. -/
theorem Table.after (h : Table k) (event : Event) : Table (step event k) := by
  have hmoves := h.moves event
  generalize Kernel.step event k = k' at *
  cases hmoves with
  | rest => exact h
  | launch mode slot launched => exact Launched.table h mode slot launched
  | turn mode _ turn => exact h.turn mode turn
  | leave mode _ _ leaves => exact (h.accountSleep (by rw [mode]; decide)).1.leaves mode leaves
  | tick mode _ _ works swapper =>
    obtain ⟨htable, hmode⟩ := h.ticked mode works swapper
    exact htable.reschedule hmode

/-- The invariant holds in every reachable state. -/
theorem Table.after_run (h : Table k) (events : List Event) : Table (run Kernel.step k events) := by
  induction events generalizing k with
  | nil => exact h
  | cons event events ih => exact ih (h.after event)

theorem table_boot (phys : PhysMem) (apicBase : ApicBase) (wp : Bool) (null : ExecContext) :
    Table (boot phys apicBase wp null) := by
  have hempty : ∀ i, ¬ Live (boot phys apicBase wp null).ctxs i := by
    rintro i ⟨hi, hstate⟩
    have hzero : (boot phys apicBase wp null).ctxs (some i) = .zero := if_neg hi
    rw [hzero] at hstate
    exact hstate rfl
  exact ⟨⟨rfl, rfl, fun hstate ↦ ProcessState.noConfusion hstate, rfl, rfl⟩, fun _ ↦ rfl,
    fun i hi ↦ absurd hi (hempty i), fun i hi ↦ absurd hi (hempty i), fun _ ↦ ⟨rfl, hempty⟩,
    fun hshell ↦ absurd rfl hshell, fun hmode ↦ Mode.noConfusion hmode, fun hmode ↦ Mode.noConfusion hmode⟩

theorem Reachable.table (h : Reachable k) : Table k := by
  obtain ⟨phys, apicBase, wp, null, events, rfl⟩ := h
  exact (table_boot phys apicBase wp null).after_run events

end GemOS
