import GemOS.Process.Running
import GemOS.Process.StrayStores

/-!
# Alarms

`do_alarm` sets the countdown and the time to re-arm it with; the tick handler counts the ticks of the
current context down, delivers the signal at zero and sets the countdown to that time again. A process with
a handler whose stack is mapped writable gets the signal at every `n`-th of its own ticks, whatever the
others do in between: no event of another process touches its countdown, short of a stray store stored there.
-/

namespace GemOS

open Foundation Memory Kernel

variable {event : Event} {k k₁ k' : Kernel} {p : Fin maxProcesses} {n handler count : ℕ}

/-- The eight bytes below the user stack pointer are mapped writable. -/
def StackWritable (k : Kernel) : Prop :=
  ∀ i < 8, UserAccessible k.mem.phys k.cr3 (addrAt (signalSlot k.regs) i) true

/-- The registers with which a handler is entered. -/
def UserRegs.enter (regs : UserRegs) (handler : ℕ) : UserRegs :=
  { regs with entryRsp := signalSlot regs, entryRip := handler }

/-- The interrupted code goes on in the handler, with the old instruction pointer at its stack pointer. -/
structure Delivered (handler : ℕ) (k k' : Kernel) : Prop where
  regs_eq : k'.regs = k.regs.enter handler
  stored : ∀ i < 8, ∀ mapping, hwWalk k.mem.phys k.cr3 (addrAt (signalSlot k.regs) i) = some mapping →
    k'.mem.phys.byteAt mapping.pfn (addrAt (signalSlot k.regs) i % pageSize) = byteOf k.regs.entryRip i

namespace Kernel

theorem kernelTouch_accessible {addr : ℕ} (h : UserAccessible k.mem.phys k.cr3 addr true) (rounds : ℕ) :
    kernelTouch addr true (rounds + 1) k = .ret () k := by
  obtain ⟨hcanonical, mapping, hwalk, hmay⟩ := h
  have hkernel : mapping.KernelMay k.wp true := by
    unfold Mapping.UserMay at hmay
    unfold Mapping.KernelMay
    exact fun hwrite _ ↦ hmay.2 hwrite
  have hspec : Spec (kernelTouch addr true (rounds + 1)) k (fun _ k' ↦ k' = k) fun _ ↦ False := by
    unfold kernelTouch
    apply Spec.read_bind
    rw [if_neg (not_not.2 hcanonical), hwalk]
    simp only
    rw [if_pos hkernel]
    exact Spec.pure rfl
  obtain ⟨_, k', hret, rfl⟩ := hspec.returns
  exact hret

theorem touchAll_accessible {addr : ℕ} (count : ℕ)
    (h : ∀ i < count, UserAccessible k.mem.phys k.cr3 (addrAt addr i) true) : touchAll addr count k = .ret () k := by
  induction count with
  | zero => rfl
  | succ count ih =>
    have hfirst := ih fun i hi ↦ h i (Nat.lt_succ_of_lt hi)
    have hlast := kernelTouch_accessible (h count (Nat.lt_succ_self count)) 2
    change Prog.bind (touchAll addr count) (fun _ ↦ kernelTouch (addrAt addr count) true touchRounds) k = _
    unfold Prog.bind
    rw [hfirst]
    exact hlast

theorem putByte_regs (mapping : Mapping) (addr value : ℕ) (k : Kernel) :
    (putByte mapping addr value k).regs = k.regs := by
  unfold putByte putByteWith
  split <;> rfl

theorem kernelPut_regs (phys : PhysMem) (addr value : ℕ) (k : Kernel) :
    (kernelPut phys addr value k).regs = k.regs := by
  unfold kernelPut kernelPutWith
  cases hwWalk phys k.cr3 addr with
  | none => rfl
  | some mapping => exact putByte_regs mapping addr value _

theorem putBytes_regs (phys : PhysMem) (addr word count : ℕ) (k : Kernel) :
    (putBytes phys addr word count k).regs = k.regs := by
  induction count with
  | zero => rfl
  | succ count ih => exact (kernelPut_regs phys _ _ _).trans ih

theorem addrAt_offset_inj {addr i j : ℕ} (hi : i < 8) (hj : j < 8)
    (h : addrAt addr i % pageSize = addrAt addr j % pageSize) : i = j := by
  unfold addrAt pageSize at h
  omega

/-- A word is stored into accessible bytes: they are there, or the run was lost. -/
theorem putBytes_byteAt {addr : ℕ} (word count : ℕ) (hcount : count ≤ 8)
    (h : ∀ i < 8, UserAccessible k.mem.phys k.cr3 (addrAt addr i) true) :
    (putBytes k.mem.phys addr word count k).mode = .corrupt ∨
      ∀ i < count, ∀ mapping, hwWalk k.mem.phys k.cr3 (addrAt addr i) = some mapping →
        (putBytes k.mem.phys addr word count k).mem.phys.byteAt mapping.pfn (addrAt addr i % pageSize) =
          byteOf word i := by
  induction count with
  | zero => exact Or.inr fun i hi ↦ absurd hi (Nat.not_lt_zero i)
  | succ count ih =>
    rcases ih (by omega) with hlost | hbytes
    · exact Or.inl (kernelPut_lost _ _ _ hlost)
    obtain ⟨-, last, hlast, -⟩ := h count (by omega)
    have hcr3 : (putBytes k.mem.phys addr word count k).cr3 = k.cr3 :=
      (putBytes_puts (fun _ _ ↦ Set.mem_univ _) word k).still.cr3_eq
    have hput : putBytes k.mem.phys addr word (count + 1) k = putByte last (addrAt addr count) (byteOf word count)
        ((putBytes k.mem.phys addr word count k).record k.mem.phys (addrAt addr count) true) := by
      rw [putBytes, putBytesWith, kernelPutWith, hcr3, hlast]
    rw [hput, putByte, putByteWith]
    split
    · refine Or.inr fun i hi mapping hwalk ↦ ?_
      change (PhysMem.setByte _ _ _ _).byteAt _ _ = _
      rw [PhysMem.byteAt_setByte]
      by_cases heq : i = count
      · subst heq
        obtain rfl := Option.some.inj (hwalk.symm.trans hlast)
        rw [if_pos ⟨rfl, rfl⟩]
        exact Nat.mod_mod _ _
      · rw [if_neg fun hsame ↦ heq (addrAt_offset_inj (by omega) (by omega) hsame.2)]
        exact hbytes i (by omega) mapping hwalk
    · exact Or.inl rfl

theorem touchWord_accessible {addr : ℕ} (h : ∀ i < 8, UserAccessible k.mem.phys k.cr3 (addrAt addr i) true) :
    touchWord addr k = .ret () k := by
  unfold touchWord
  exact touchAll_accessible 8 h

theorem putWord_byteAt {addr : ℕ} (word : ℕ) (h : ∀ i < 8, UserAccessible k.mem.phys k.cr3 (addrAt addr i) true) :
    (putWord addr word k).mode = .corrupt ∨
      ∀ i < 8, ∀ mapping, hwWalk k.mem.phys k.cr3 (addrAt addr i) = some mapping →
        (putWord addr word k).mem.phys.byteAt mapping.pfn (addrAt addr i % pageSize) = byteOf word i := by
  unfold putWord putWordWith
  exact putBytes_byteAt word 8 (Nat.le_refl 8) h

theorem putWord_ctx (addr word : ℕ) (k : Kernel) : (putWord addr word k).ctx = k.ctx := by
  have hputs : Puts Set.univ k (putWord addr word k) := putWord_puts (fun _ _ ↦ Set.mem_univ _) word k
  rw [Kernel.ctx, Kernel.ctx]
  exact congrArg₂ (fun ctxs p ↦ ctxs p) hputs.still.ctxs_eq hputs.still.current_eq

theorem putWord_regs (addr word : ℕ) (k : Kernel) : (putWord addr word k).regs = k.regs := by
  unfold putWord putWordWith
  exact putBytes_regs k.mem.phys addr word 8 k

/-- The delivery of a signal to a process whose stack is mapped writable. -/
theorem deliverUser_spec (hstack : StackWritable k) (signo : Signal) :
    Spec (deliverUser signo) k (fun _ k' ↦ Delivered (k.ctx.sighandlers signo) k k') fun k' ↦ k'.mode = .corrupt := by
  have htouch : Spec (touchWord (signalSlot k.regs)) k (fun _ k' ↦ k' = k) fun k' ↦ k'.mode = .corrupt :=
    Spec.ret (touchWord_accessible hstack) rfl
  have hpush : Spec (pushFrame (signalSlot k.regs) k.regs.entryRip) k
      (fun _ k' ↦ k' = putWord (signalSlot k.regs) k.regs.entryRip k ∧ k'.mode ≠ .corrupt) fun k' ↦
        k'.mode = .corrupt := by
    unfold pushFrame pushFrameWith settle
    apply htouch.bind
    intro _ k' hk'
    rw [hk']
    apply Spec.update_bind
    apply Spec.read_bind
    exact Spec.ite (fun hlost ↦ Spec.leave hlost) fun hkept ↦ Spec.pure ⟨rfl, hkept⟩
  unfold deliverUser deliverUserWith
  apply Spec.read_bind
  apply hpush.bind
  rintro _ k' ⟨rfl, hkept⟩
  apply Spec.update
  refine ⟨?_, (putWord_byteAt k.regs.entryRip hstack).resolve_left hkept⟩
  rw [putWord_ctx, putWord_regs]
  rfl

theorem signalRunning_spec (hmode : k.mode = .user) (hstack : StackWritable k) {signo : Signal}
    (hhandler : k.ctx.sighandlers signo ≠ 0) :
    Spec (signalRunning signo) k (fun _ k' ↦ Delivered (k.ctx.sighandlers signo) k k') fun k' ↦ k'.mode = .corrupt := by
  unfold signalRunning signalRunningWith invokeSyncSignal
  apply Spec.read_bind
  apply Spec.read_bind
  rw [if_neg fun hunset ↦ hhandler hunset.1, if_pos hhandler, if_pos hmode]
  exact deliverUser_spec hstack signo

theorem setTicksToAlarm_ctx (ticks : ℕ) (k : Kernel) :
    (setTicksToAlarm ticks k).ctx = { k.ctx with ticksToAlarm := ticks } :=
  k.updateCtx_self k.current fun ctx ↦ { ctx with ticksToAlarm := ticks }

/-- At the last tick of the countdown the alarm is delivered, or the run is lost. -/
theorem accountAlarm_due (hmode : k.mode = .user) (hstack : StackWritable k)
    (hhandler : k.ctx.sighandlers .sigalrm ≠ 0) (hticks : k.ctx.ticksToAlarm = 1) :
    Spec accountAlarm k (fun _ k' ↦ Delivered (k.ctx.sighandlers .sigalrm) k k') fun k' ↦ k'.mode = .corrupt := by
  have hctx : (setTicksToAlarm (k.ctx.ticksToAlarm - 1) k).ctx.sighandlers = k.ctx.sighandlers := by
    rw [setTicksToAlarm_ctx]
  have hsignal : Spec (signalRunning .sigalrm) (setTicksToAlarm (k.ctx.ticksToAlarm - 1) k)
      (fun _ k' ↦ Delivered (k.ctx.sighandlers .sigalrm) k k') fun k' ↦ k'.mode = .corrupt := by
    have hspec := @signalRunning_spec (setTicksToAlarm (k.ctx.ticksToAlarm - 1) k) hmode hstack .sigalrm
      (by rw [hctx]; exact hhandler)
    rw [hctx] at hspec
    exact hspec.mono (fun _ _ hdelivered ↦ ⟨hdelivered.regs_eq, hdelivered.stored⟩) fun _ ↦ id
  unfold accountAlarm accountAlarmWith
  apply Spec.read_bind
  rw [if_pos (by rw [hticks]; exact Nat.one_pos), if_pos hticks]
  apply Spec.update_bind
  apply hsignal.bind
  intro _ k' hdelivered
  exact Spec.update ⟨hdelivered.regs_eq, hdelivered.stored⟩

/-- The alarm of a tick that does not lose the run returns. -/
theorem accountAlarm_returns {Q : Kernel → Prop} (hmode : k.mode = .user)
    (hspec : Spec accountAlarm k.accountSleep (fun _ ↦ Q) fun k' ↦ k'.mode = .corrupt)
    (hkept : (Kernel.step .tick k).mode ≠ .corrupt) : ∃ k₁, accountAlarm k.accountSleep = .ret () k₁ ∧ Q k₁ := by
  cases hresult : accountAlarm k.accountSleep with
  | ret _ k₁ => exact ⟨k₁, rfl, hspec.of_ret hresult⟩
  | gone k₁ =>
    have hlost : k₁.mode = .corrupt := by
      unfold Spec at hspec
      rwa [hresult] at hspec
    have hleaves : handleTimerTick k = .gone k₁ := by
      change Prog.bind accountAlarm _ k.accountSleep = _
      unfold Prog.bind
      rw [hresult]
    rw [step_user hmode] at hkept
    change (handleTimerTick.final k).mode ≠ _ at hkept
    rw [Prog.final, hleaves] at hkept
    exact absurd hlost hkept

/-- Before the last tick of the countdown nothing is delivered. -/
theorem accountAlarm_waits (hticks : k.ctx.ticksToAlarm ≠ 1) :
    ∃ k₁, accountAlarm k = .ret () k₁ ∧ k₁.regs = k.regs ∧ k₁.mem = k.mem := by
  have hspec : Spec accountAlarm k (fun _ k' ↦ k'.regs = k.regs ∧ k'.mem = k.mem) fun _ ↦ False := by
    unfold accountAlarm accountAlarmWith
    apply Spec.read_bind
    apply Spec.ite
    · intro _
      apply Spec.update_bind
      rw [if_neg hticks]
      exact Spec.pure ⟨rfl, rfl⟩
    · intro _
      exact Spec.pure ⟨rfl, rfl⟩
  obtain ⟨_, k₁, hreturn, hsame⟩ := hspec.returns
  exact ⟨k₁, hreturn, hsame⟩

/-- What a tick does to the countdown of the current context. -/
theorem accountAlarm_ticks (hreturn : accountAlarm k = .ret () k₁) :
    k₁.ctx.alarmConfigTime = k.ctx.alarmConfigTime ∧ k₁.ctx.sighandlers = k.ctx.sighandlers ∧
      k₁.ctx.ticksToAlarm =
        if k.ctx.ticksToAlarm = 1 then k.ctx.alarmConfigTime else k.ctx.ticksToAlarm - 1 := by
  have hspec : Spec accountAlarm k (fun _ k' ↦ k'.ctx.alarmConfigTime = k.ctx.alarmConfigTime ∧
      k'.ctx.sighandlers = k.ctx.sighandlers ∧ k'.ctx.ticksToAlarm =
        if k.ctx.ticksToAlarm = 1 then k.ctx.alarmConfigTime else k.ctx.ticksToAlarm - 1) fun _ ↦ True := by
    unfold accountAlarm accountAlarmWith
    apply Spec.read_bind
    apply Spec.ite
    · intro _
      apply Spec.update_bind
      apply Spec.ite
      · intro hone
        have hserves := (serving_signalRunning .sigalrm).spec (setTicksToAlarm (k.ctx.ticksToAlarm - 1) k)
        apply (hserves.mono (fun _ _ ↦ id) fun _ _ ↦ trivial).bind
        intro _ k' hserved
        have hctx : k'.ctx = { k.ctx with ticksToAlarm := k.ctx.ticksToAlarm - 1 } := by
          rw [← setTicksToAlarm_ctx, Kernel.ctx, Kernel.ctx, hserved.sameTable.ctxs_eq, hserved.sameTable.current_eq]
        apply Spec.update
        rw [setTicksToAlarm_ctx, hctx, if_pos hone]
        exact ⟨rfl, rfl, rfl⟩
      · intro hmore
        apply Spec.pure
        rw [setTicksToAlarm_ctx, if_neg hmore]
        exact ⟨rfl, rfl, rfl⟩
    · intro hnone
      apply Spec.pure
      rw [if_neg fun hone ↦ hnone (by rw [hone]; exact Nat.one_pos)]
      exact ⟨rfl, rfl, by omega⟩
  exact hspec.of_ret hreturn

/-- The record of a process that calls `alarm`. -/
def alarmSet (ctx : ExecContext) (regs : UserRegs) : ExecContext :=
  { ctx.saveRegs regs with alarmConfigTime := regs.rsi % 2 ^ 32, ticksToAlarm := regs.rsi % 2 ^ 32 }

/-- `alarm` sets the countdown and returns. -/
theorem step_alarm (hmode : k.mode = .user) (hcall : k.syscallRequested = some .alarm)
    (hticks : k.regs.rsi % 2 ^ 32 ≠ 0) (peek : ℕ → ℕ) :
    (step (.syscall peek) k).ctxs = Function.update k.ctxs k.current (alarmSet k.ctx k.regs) ∧
      (step (.syscall peek) k).current = k.current := by
  rw [step_user hmode]
  apply Spec.final (P := fun k' : Kernel ↦
    k'.ctxs = Function.update k.ctxs k.current (alarmSet k.ctx k.regs) ∧ k'.current = k.current)
  change Spec (doSyscall peek) k _ _
  unfold doSyscall
  apply Spec.read_bind
  apply Spec.update_bind
  rw [hcall]
  change Spec (doAlarm k.regs.rsi >>= _) _ _ _
  unfold doAlarm
  rw [if_neg hticks]
  refine Spec.update ⟨?_, rfl⟩
  have hself := k.updateCtx_self k.current fun ctx ↦ ctx.saveRegs k.regs
  change Function.update (Function.update k.ctxs k.current (k.ctx.saveRegs k.regs)) k.current _ = _
  rw [Function.update_idem]
  congr 1
  exact congrArg (fun ctx : ExecContext ↦
    { ctx with alarmConfigTime := k.regs.rsi % 2 ^ 32, ticksToAlarm := k.regs.rsi % 2 ^ 32 }) hself

end Kernel

/-- The event is a tick while the process is the current one. -/
def OwnTick (p : Fin maxProcesses) (event : Event) (k : Kernel) : Prop :=
  event = .tick ∧ k.mode = .user ∧ k.current = some p

instance (p : Fin maxProcesses) (event : Event) (k : Kernel) : Decidable (OwnTick p event k) := by
  unfold OwnTick
  infer_instance

/-- The process lives on, and neither calls `alarm` nor changes its handler. -/
structure Undisturbed (machine : Event → Kernel → Kernel) (p : Fin maxProcesses) (k : Kernel)
    (event : Event) : Prop where
  live : Live (machine event k).ctxs p
  no_alarm : k.mode = .user → k.current = some p → ¬ Asks event k .alarm
  same_handler : k.mode = .user → k.current = some p → Asks event k .signal →
    signalOf k.regs.rsi = some .sigalrm → k.regs.rdx = k.ctx.sighandlers .sigalrm

/-- The countdown of a process after `count` of its ticks, when the alarm was set to `n`. -/
structure Armed (p : Fin maxProcesses) (n handler count : ℕ) (k : Kernel) : Prop where
  live : Live k.ctxs p
  config_eq : (k.ctxs (some p)).alarmConfigTime = n
  handler_eq : (k.ctxs (some p)).sighandlers .sigalrm = handler
  ticks_eq : (k.ctxs (some p)).ticksToAlarm + count % n = n

theorem Armed.sameAlarm (h : Armed p n handler count k) (hlive : Live k'.ctxs p)
    (hsame : SameAlarm (k.ctxs (some p)) (k'.ctxs (some p))) : Armed p n handler count k' where
  live := hlive
  config_eq := hsame.config_eq.trans h.config_eq
  handler_eq := hsame.handler_eq.trans h.handler_eq
  ticks_eq := by rw [hsame.ticks_eq, h.ticks_eq]

theorem sameAlarm_countSleep (ctx : ExecContext) : SameAlarm ctx ctx.countSleep := by
  unfold ExecContext.countSleep
  split_ifs <;> exact ⟨rfl, rfl, rfl⟩

theorem sameAlarm_counted (event : Event) (k : Kernel) (p : Fin maxProcesses) :
    SameAlarm (k.ctxs (some p)) (counted event k p) := by
  unfold counted
  split
  · exact sameAlarm_countSleep _
  · exact .refl _

theorem Dispatched.sameAlarm {next q : CtxPtr} (h : Dispatched next k k') : SameAlarm (k.ctxs q) (k'.ctxs q) := by
  rw [h.ctxs_eq]
  split
  · exact ⟨rfl, rfl, rfl⟩
  · exact .refl _

theorem add_one_mod {n : ℕ} (hn : 0 < n) (count : ℕ) :
    (count + 1) % n = if count % n + 1 = n then 0 else count % n + 1 := by
  have hlt := Nat.mod_lt count hn
  rw [← Nat.mod_add_mod]
  split_ifs with hlast
  · rw [hlast, Nat.mod_self]
  · exact Nat.mod_eq_of_lt (by omega)

/-- A process that leaves is gone, or the run has stopped. -/
theorem Leaves.gone (h : Table k) (hmode : k.mode = .user) (hcurrent : k.current = some p)
    (hleaves : Leaves event k k') : Stopped k'.mode ∨ ¬ Live k'.ctxs p := by
  cases hleaves with
  | @exit k₁ child hleft =>
    refine Or.inr fun hlive ↦ hlive.2 ?_
    have hretired : (k₁.retire.ctxs (some p)).state = .unused := by
      rw [retire_ctxs, if_pos (hleft.current_eq.trans hcurrent).symm]
      rfl
    rcases doExit_cases k₁ with ⟨-, hdispatched⟩ | ⟨-, hcleanup⟩
    · obtain ⟨next, hnext, hready⟩ := (h.picked_retired hmode hleft).some_ready
      rw [hdispatched.ctxs_eq, hnext, if_neg, hretired]
      intro heq
      obtain rfl := Option.some.inj heq
      exact ProcessState.noConfusion (hretired.symm.trans (hready hlive.1))
    · rw [hcleanup, doCleanup_ctxs]
      split
      · rfl
      · exact hretired
  | stop stopped => exact Or.inl stopped

/-- One event keeps the countdown of the process, and counts its own ticks. -/
theorem Table.armed_step (h : Table k) (hn : 0 < n) (harmed : Armed p n handler count k)
    (hquiet : Undisturbed Kernel.step p k event) :
    Stopped (Kernel.step event k).mode ∨
      Armed p n handler (count + if OwnTick p event k then 1 else 0) (Kernel.step event k) := by
  have hlive := hquiet.live
  by_cases hcurrent : k.current = some p
  case neg =>
    rw [if_neg fun hown : OwnTick p event k ↦ hcurrent hown.2.2]
    refine Or.inr (harmed.sameAlarm hlive ?_)
    rcases h.other harmed.live hcurrent event with hstays | henters
    · rw [hstays.record_eq]
      exact sameAlarm_counted event k p
    · rw [henters.record_eq]
      exact (sameAlarm_counted event k p).trans ⟨rfl, rfl, rfl⟩
  have hctx : k.ctx = k.ctxs (some p) := by rw [Kernel.ctx, hcurrent]
  have hmoves := h.moves event
  generalize Kernel.step event k = k' at *
  cases hmoves with
  | rest no_user =>
    rw [if_neg fun hown : OwnTick p event k ↦ no_user hown.2.1]
    exact Or.inr harmed
  | launch mode => exact absurd harmed.live ((h.empty mode).2 p)
  | turn mode event_ne turn =>
    rw [if_neg fun hown : OwnTick p event k ↦ event_ne hown.1]
    have hkeeps : KeepsAlarm event k :=
      ⟨event_ne, hquiet.no_alarm mode hcurrent, hquiet.same_handler mode hcurrent⟩
    have hholds : ∀ {child}, Holds (keeping event k) child k k' → Armed p n handler count k' := by
      intro child hholds
      have halarm := hholds.alarm hkeeps
      rw [hctx, Kernel.ctx, hholds.current_eq, hcurrent] at halarm
      exact harmed.sameAlarm hlive halarm
    cases turn with
    | work _ works => exact Or.inr (hholds works.toHolds)
    | fork _ _ holds => exact Or.inr (hholds holds)
    | clone _ holds => exact Or.inr (hholds holds)
    | sleep =>
      refine Or.inr (harmed.sameAlarm hlive ?_)
      have hslept : SameAlarm (k.ctxs (some p)) (k.slept.ctxs (some p)) := by
        rw [slept_ctxs, if_pos hcurrent.symm]
        exact ⟨rfl, rfl, rfl⟩
      exact hslept.trans (dispatched_doSleep k).sameAlarm
    | leave leaves => exact (leaves.gone h mode hcurrent).imp id fun hgone ↦ absurd hlive hgone
  | leave mode tick _ leaves =>
    obtain ⟨htable, -⟩ := h.accountSleep (by rw [mode]; decide)
    exact (leaves.gone htable mode hcurrent).imp id fun hgone ↦ absurd hlive hgone
  | @tick k₁ mode tick returned works swapper =>
    have huser : k.mode = .user := by
      apply mode.resolve_right
      intro heq
      exact Live.some_ne_swapper harmed.live.1 (hcurrent.symm.trans (h.in_swapper heq).1)
    have hshell : k.mode ≠ .shell := by rw [huser]; decide
    obtain ⟨htable, hmode₁⟩ := h.ticked mode works swapper
    have hshell₁ : k₁.mode ≠ .shell := by rcases hmode₁ with heq | heq <;> rw [heq] <;> decide
    rw [if_pos ⟨tick, huser, hcurrent⟩]
    have hcurrent₁ : k₁.current = some p := works.current_eq.trans hcurrent
    have hctx₁ : k₁.ctx = k₁.ctxs (some p) := by rw [Kernel.ctx, hcurrent₁]
    obtain ⟨hconfig, hhandler, hticks⟩ := accountAlarm_ticks returned
    rw [(h.accountSleep hshell).2, hctx, hctx₁] at hconfig hhandler hticks
    have harmed₁ : Armed p n handler (count + 1) k₁ := by
      refine ⟨⟨harmed.live.1, ?_⟩, hconfig.trans harmed.config_eq, ?_, ?_⟩
      · rw [works.state_eq]
        exact ((accountSleep_live k p).2 harmed.live).2
      · rw [hhandler]
        exact harmed.handler_eq
      · have hsum := harmed.ticks_eq
        have hlt := Nat.mod_lt count hn
        rw [hticks, add_one_mod hn, harmed.config_eq]
        split_ifs <;> omega
    refine Or.inr (harmed₁.sameAlarm hlive ?_)
    rcases reschedule_cases (htable.placed hshell₁).cr3_eq with ⟨-, hstay⟩ | ⟨-, hdispatched⟩
    · rw [hstay, readied_ctxs, if_pos hcurrent₁.symm]
      exact ⟨rfl, rfl, rfl⟩
    · have hpreempted : SameAlarm (k₁.ctxs (some p)) (k₁.preempted.ctxs (some p)) := by
        rw [preempted_ctxs, if_pos hcurrent₁.symm]
        exact ⟨rfl, rfl, rfl⟩
      exact hpreempted.trans hdispatched.sameAlarm

theorem run_stopped (hstopped : Stopped k.mode) (events : List Event) : run Kernel.step k events = k := by
  have hmode : k.mode ≠ .shell ∧ k.mode ≠ .user ∧ k.mode ≠ .swapper := by
    refine ⟨?_, ?_, ?_⟩
    all_goals
      intro heq
      rw [heq] at hstopped
      exact hstopped
  induction events with
  | nil => rfl
  | cons event events ih => rw [run_cons, step_stopped hmode.1 hmode.2.1 hmode.2.2, ih]

/-- The countdown of a process over a run, by induction on the run. -/
theorem Table.armed_run (h : Table k) (hn : 0 < n) (harmed : Armed p n handler count k) {events : List Event}
    (hquiet : Along Kernel.step (Undisturbed Kernel.step p) k events) :
    Stopped (run Kernel.step k events).mode ∨
      Armed p n handler (count + countAlong Kernel.step (OwnTick p) k events) (run Kernel.step k events) := by
  induction hquiet generalizing count with
  | nil s => exact Or.inr harmed
  | @cons s event events head tail ih =>
    rcases h.armed_step hn harmed head with hstopped | harmed'
    · rw [run_cons, run_stopped hstopped]
      exact Or.inl hstopped
    · have hrun := ih (h.after event) harmed'
      rw [countAlong, ← Nat.add_assoc]
      exact hrun

/-- The alarm of a process with a handler that called `alarm` with `n ≥ 1`, at a tick of its own. -/
theorem Table.alarm_at_tick (h : Table k) (hmode : k.mode = .user) (hcurrent : k.current = some p)
    (hcall : k.syscallRequested = some .alarm) (hticks : k.regs.rsi % 2 ^ 32 ≠ 0)
    (hhandler : k.ctx.sighandlers .sigalrm ≠ 0) (peek : ℕ → ℕ) (events : List Event)
    (hquiet : Along Kernel.step (Undisturbed Kernel.step p) (Kernel.step (.syscall peek) k) events) :
    let armed := Kernel.step (.syscall peek) k
    let s := Foundation.run Kernel.step armed events
    s.mode = .user → s.current = some p →
      (k.regs.rsi % 2 ^ 32 ∣ countAlong Kernel.step (OwnTick p) armed events + 1 → StackWritable s →
          (Kernel.step .tick s).mode ≠ .corrupt →
          ∃ s₁, accountAlarm s.accountSleep = .ret () s₁ ∧ Delivered (k.ctx.sighandlers .sigalrm) s s₁) ∧
        (¬ k.regs.rsi % 2 ^ 32 ∣ countAlong Kernel.step (OwnTick p) armed events + 1 →
          ∃ s₁, accountAlarm s.accountSleep = .ret () s₁ ∧ s₁.regs = s.regs ∧ s₁.mem = s.mem) := by
  intro armed s hmode' hcurrent'
  obtain ⟨i, hi, hlive, hctx⟩ := h.current_user hmode
  obtain rfl := Option.some.inj (hcurrent.symm.trans hi)
  have hn : 0 < k.regs.rsi % 2 ^ 32 := Nat.pos_of_ne_zero hticks
  obtain ⟨hctxs, -⟩ := step_alarm hmode hcall hticks peek
  have hself : armed.ctxs (some p) = alarmSet k.ctx k.regs := by
    rw [hctxs, hcurrent, Function.update_self]
  have harmed : Armed p (k.regs.rsi % 2 ^ 32) (k.ctx.sighandlers .sigalrm) 0 armed := by
    refine ⟨⟨hlive.1, ?_⟩, ?_, ?_, ?_⟩
    · rw [hself, hctx]
      exact hlive.2
    · rw [hself]
      rfl
    · rw [hself]
      rfl
    · rw [hself, Nat.zero_mod]
      rfl
  have htable : Table armed := h.after (.syscall peek)
  have hrun := htable.armed_run hn harmed hquiet
  rw [Nat.zero_add] at hrun
  have hnow : Armed p (k.regs.rsi % 2 ^ 32) (k.ctx.sighandlers .sigalrm)
      (countAlong Kernel.step (OwnTick p) armed events) s := by
    apply hrun.resolve_left
    intro hstopped
    rw [hmode'] at hstopped
    exact hstopped
  have hs : Table s := htable.after_run events
  have hshell : s.mode ≠ .shell := by rw [hmode']; decide
  have hcounted : s.accountSleep.ctx = s.ctxs (some p) := by
    rw [(hs.accountSleep hshell).2, Kernel.ctx, hcurrent']
  have hsum := hnow.ticks_eq
  have hdivides : k.regs.rsi % 2 ^ 32 ∣ countAlong Kernel.step (OwnTick p) armed events + 1 ↔
      s.accountSleep.ctx.ticksToAlarm = 1 := by
    rw [Nat.dvd_iff_mod_eq_zero, add_one_mod hn, hcounted]
    generalize k.regs.rsi % 2 ^ 32 = n at *
    have hlt := Nat.mod_lt (countAlong Kernel.step (OwnTick p) armed events) hn
    split_ifs with hlast
    · exact iff_of_true rfl (by omega)
    · exact iff_of_false id (by omega)
  have hhandler' : s.accountSleep.ctx.sighandlers .sigalrm = k.ctx.sighandlers .sigalrm := by
    rw [hcounted, hnow.handler_eq]
  rw [hdivides]
  constructor
  · intro hdue hstack hkept
    have hspec := @accountAlarm_due s.accountSleep hmode' hstack (by rw [hhandler']; exact hhandler) hdue
    rw [hhandler'] at hspec
    obtain ⟨s₁, hreturn, hdelivered⟩ := accountAlarm_returns hmode' hspec hkept
    exact ⟨s₁, hreturn, hdelivered.regs_eq, hdelivered.stored⟩
  · exact accountAlarm_waits

/-- A tick whose alarm returns goes on to the scheduler. -/
theorem fullStep_tick_of_alarm (hmode : k.mode = .user) (hreturn : accountAlarm k.accountSleep = .ret () k₁) :
    fullStep .tick k = k₁.reschedule := by
  have hfinal := handleTimerTick_returns hreturn
  have hticked : handleTimerTick k = .ret () k₁.reschedule := by
    change Prog.bind accountAlarm _ k.accountSleep = _
    unfold Prog.bind
    rw [hreturn]
    rfl
  rw [fullStep_tick hmode hticked, step_user hmode]
  exact hfinal

/-- The registers of a process that calls a system call with its stack in use. -/
def stackRegs (number param1 param2 : ℕ) : UserRegs :=
  { UserRegs.zero with rdi := number, rsi := param1, rdx := param2, entryRsp := stackStart }

end GemOS
