import GemOS.Process.Syscall

/-!
# The timer tick

`handle_timer_tick` counts down the sleepers and the alarm of the current context, marks that context
`READY`, picks the next one and switches to it. When the pick is the current context the handler
returns at once.
-/

namespace GemOS

open Foundation Memory

/-- One slot of the first loop of `do_sleep_and_alarm_account`. -/
def ExecContext.countSleep (ctx : ExecContext) : ExecContext :=
  if ctx.state = .waiting ∧ 0 < ctx.ticksToSleep then
    if ctx.ticksToSleep = 1 then { ctx with ticksToSleep := 0, state := .ready }
    else { ctx with ticksToSleep := ctx.ticksToSleep - 1 }
  else ctx

namespace Kernel

/-- The first loop of `do_sleep_and_alarm_account`, over all slots of the process table. -/
def accountSleep (k : Kernel) : Kernel :=
  { k with
    ctxs := fun p ↦
      match p with
      | none => k.ctxs none
      | some i => (k.ctxs (some i)).countSleep }

/-- Set `ticks_to_alarm` of the current context. -/
def setTicksToAlarm (ticks : ℕ) (k : Kernel) : Kernel :=
  k.updateCtx k.current fun ctx ↦ { ctx with ticksToAlarm := ticks }

/-- The alarm of `do_sleep_and_alarm_account`. -/
def accountAlarmWith (store : KernelStore) : Prog Kernel Unit := do
  let k ← Prog.read
  if 0 < k.ctx.ticksToAlarm then
    Prog.update (setTicksToAlarm (k.ctx.ticksToAlarm - 1))
    if k.ctx.ticksToAlarm = 1 then
      signalRunningWith store .sigalrm
      Prog.update fun k ↦ k.setTicksToAlarm k.ctx.alarmConfigTime
    else pure ()
  else pure ()

/-- The switch of `handle_timer_tick` from the current context to `next`. -/
def switchTo (next : CtxPtr) (k : Kernel) : Kernel :=
  let k₁ := { k with stats.contextSwitches := k.stats.contextSwitches + 1 }.updateCtx k.current
    fun ctx ↦ ctx.saveRegs k.regs
  let k₂ := if k.ctx.pgd = (k.ctxs next).pgd then k₁ else k₁.loadCr3 (k.ctxs next).pgd
  (k₂.makeCurrent next).iret (k.ctxs next).regs

/-- The end of `handle_timer_tick`: mark the current context, pick, and switch unless it was picked. -/
def reschedule (k : Kernel) : Kernel :=
  let k₁ := { k with stats.ticks := k.stats.ticks + 1 }.setState k.current .ready
  let next := pickNextContext k₁.ctxs k₁.current
  if next = k₁.current then k₁ else k₁.switchTo next

/-- `handle_timer_tick`. -/
def handleTimerTickWith (store : KernelStore) : Prog Kernel Unit := do
  Prog.update accountSleep
  accountAlarmWith store
  Prog.update reschedule

abbrev accountAlarm : Prog Kernel Unit := accountAlarmWith stopStore
abbrev handleTimerTick : Prog Kernel Unit := handleTimerTickWith stopStore

end Kernel

/-- The first loop of `do_sleep_and_alarm_account` only wakes sleepers. -/
theorem countSleep_eq (ctx : ExecContext) :
    ctx.countSleep.pgd = ctx.pgd ∧ ctx.countSleep.pid = ctx.pid ∧ ctx.countSleep.osStackPfn = ctx.osStackPfn ∧
      ctx.countSleep.mms = ctx.mms ∧ ctx.countSleep.regs = ctx.regs ∧
      ctx.countSleep.ticksToAlarm = ctx.ticksToAlarm ∧
      (ctx.countSleep.state = ctx.state ∨ ctx.state = .waiting ∧ ctx.countSleep.state = .ready) := by
  unfold ExecContext.countSleep
  split_ifs with hwaits hlast
  · exact ⟨rfl, rfl, rfl, rfl, rfl, rfl, Or.inr ⟨hwaits.1, rfl⟩⟩
  · exact ⟨rfl, rfl, rfl, rfl, rfl, rfl, Or.inl rfl⟩
  · exact ⟨rfl, rfl, rfl, rfl, rfl, rfl, Or.inl rfl⟩

theorem accountSleep_live (k : Kernel) (j : Fin maxProcesses) : Live k.accountSleep.ctxs j ↔ Live k.ctxs j := by
  unfold Live
  refine and_congr_right fun _ ↦ ?_
  rcases (countSleep_eq (k.ctxs (some j))).2.2.2.2.2.2 with hsame | ⟨hwaiting, hready⟩
  · rw [show k.accountSleep.ctxs (some j) = (k.ctxs (some j)).countSleep from rfl, hsame]
  · rw [show k.accountSleep.ctxs (some j) = (k.ctxs (some j)).countSleep from rfl, hready, hwaiting]
    simp

end GemOS
