import GemOS.Process.EventActs
import GemOS.Process.StrayStores

/-!
# Signal stacks in user memory

A store strays only from a stack pointer outside the user segments, as long as every frame is granted. Inside them the
page table in use maps user pages or nothing, and a page that it gets on demand is a user page too. So the two
machines make the same run when processes with a handler keep their stack pointers there.
-/

namespace GemOS

open Foundation Memory Kernel

variable {intact : Fin maxProcesses → Prop} {roots : ℕ → Prop} {k k' : Kernel} {i : Fin maxProcesses} {event : Event}
  {events : List Event} {signo : Signal} {stored : Set ℕ} {addr : ℕ}

/-- The bytes of the frame for the signal that the event may raise. -/
def signalBytes (event : Event) (k : Kernel) : Set ℕ :=
  match event with
  | .load _ | .store _ _ => signalFrame .sigsegv k
  | .divide => signalFrame .sigfpe k
  | .pageFaultGate => signalFrame .sigsegv { k with regs := gateFrame k.regs }
  | .tick => signalFrame .sigalrm k
  | .launch _ _ | .compute _ | .syscall _ | .protection => ∅

/-- They lie in the user segments. -/
def OnUserStack (k : Kernel) (event : Event) : Prop := signalBytes event k ⊆ {addr | UserAddr addr}

theorem signalFrame_sub_iff (k : Kernel) (signo : Signal) :
    signalFrame signo k ⊆ {addr | UserAddr addr} ↔
      (k.ctx.sighandlers signo ≠ 0 → ∀ i < 8, UserAddr (addrAt (signalSlot k.regs) i)) := by
  constructor
  · exact fun hsub hhandler i hi ↦ hsub ⟨hhandler, i, hi, rfl⟩
  · rintro huser _ ⟨hhandler, i, hi, rfl⟩
    exact huser hhandler i hi

instance (k : Kernel) (event : Event) : Decidable (OnUserStack k event) :=
  match event with
  | .load _ | .store _ _ => decidable_of_iff _ (signalFrame_sub_iff k .sigsegv).symm
  | .divide => decidable_of_iff _ (signalFrame_sub_iff k .sigfpe).symm
  | .pageFaultGate => decidable_of_iff _ (signalFrame_sub_iff { k with regs := gateFrame k.regs } .sigsegv).symm
  | .tick => decidable_of_iff _ (signalFrame_sub_iff k .sigalrm).symm
  | .launch _ _ | .compute _ | .syscall _ | .protection => isTrue (Set.empty_subset _)

/-- With granted frames a run is lost only by a store outside the user segments. -/
def LostOutside (stored : Set ℕ) (k : Kernel) : Prop :=
  k.mode = .corrupt → k.mem.AllocsGranted → ¬ stored ⊆ {addr | UserAddr addr}

theorem lostOutside_of_mode (hmode : k.mode ≠ .corrupt) : LostOutside stored k := fun hlost ↦ absurd hlost hmode

/-- In the user segments there are only plain user pages. -/
theorem InUser.not_userAddr (h : InUser intact roots k i) (hstrays : Strays k k' addr)
    (hgranted : k'.mem.AllocsGranted) :
    ¬ UserAddr addr := by
  obtain ⟨k₀, mapping, htends, htrace, hwalk, hstrays⟩ := hstrays
  have hgranted₀ : k₀.mem.AllocsGranted := hgranted.anti (le_of_trace_eq htrace)
  have h₀ := htends.serves.inUser h hgranted₀
  intro haddr
  rcases h₀.sound.tables.page_cases h₀.root haddr.slot with ⟨-, -, hnone⟩ | ⟨_, _, _, -, husable, -, -, -, hsome⟩
  · rw [hnone] at hwalk
    exact absurd hwalk (by simp)
  · rw [hsome] at hwalk
    cases hwalk
    exact hstrays ⟨rfl, Or.inl husable⟩

theorem InUser.not_lost (h : InUser intact roots k i) : k.mode ≠ .corrupt := by
  rw [h.mode_eq]
  decide

theorem InUser.lostOutside (h : InUser intact roots k i) (hquits : Quits stored k k') : LostOutside stored k' := by
  intro hlost hgranted hsub
  obtain ⟨addr, hmem, hstrays⟩ := hquits.strays h.not_lost hlost
  exact h.not_userAddr hstrays hgranted (hsub hmem)

/-- A program that loses the run only by a store outside the user segments. -/
abbrev Blames (stored : Set ℕ) (p : Prog Kernel Unit) (k : Kernel) : Prop :=
  Spec p k (fun _ k' ↦ k'.mode ≠ .corrupt) (LostOutside stored)

theorem blames_attends (h : InUser intact roots k i) {p : Prog Kernel Unit}
    (hp : Spec p k (fun _ ↦ Attends stored k) (Quits stored k)) : Blames stored p k :=
  hp.mono (fun _ _ hattends ↦ hattends.serves.sameTable.mode_eq.trans_ne h.not_lost) fun _ ↦ h.lostOutside

/-- User code itself stores in plain pages. -/
theorem blames_userStore (h : InUser intact roots k i) (addr value : ℕ) :
    Blames (signalFrame .sigsegv k) (userStore addr value) k := by
  unfold userStore userStoreWith userTouchWith
  apply Spec.read_bind
  refine Spec.ite (fun _ ↦ Spec.leave (lostOutside_of_mode (not_lost_doExit _))) fun _ ↦ ?_
  cases hwalk : hwWalk k.mem.phys k.cr3 addr with
  | none => exact blames_attends h (userPageFault_attends fun _ ↦ hwalk)
  | some mapping =>
    refine Spec.ite (fun hmay ↦ ?_) fun _ ↦ blames_attends h (userPageFault_attends fun hdemand ↦ ?_)
    · have hput : (putByteWith stopStore mapping addr value k).mode ≠ .corrupt := by
        rw [putByteWith, if_pos ⟨hmay.1, h.plainPages addr mapping hwalk hmay.1⟩]
        exact h.not_lost
      unfold settle
      apply Spec.update_bind
      apply Spec.read_bind
      exact Spec.ite (fun hlost ↦ absurd hlost hput) fun _ ↦ Spec.pure hput
    · rw [not_demandPaged_present] at hdemand
      exact Bool.noConfusion hdemand

theorem blames_pageFaultGate (h : InUser intact roots k i) :
    Blames (signalFrame .sigsegv { k with regs := gateFrame k.regs }) pageFaultGate k := by
  have hstill := still_notePageFault k.cr2 k
  have hnoted : InUser intact roots (k.notePageFault k.cr2) i := h.quiet hstill.toQuiet
  unfold pageFaultGate pageFaultGateWith
  apply Spec.read_bind
  refine Spec.bind (Q := fun _ _ ↦ True) (doPageFault_spec (fun _ ↦ trivial) ?_) fun _ _ _ ↦
    Spec.leave (lostOutside_of_mode (not_lost_doExit _))
  refine invokeSyncSignal_spec .sigsegv (lostOutside_of_mode (not_lost_doExit _)) (fun hhandler ↦ ?_) trivial
  have hslot : ∀ j < 8, addrAt (signalSlot (gateFrame k.regs)) j ∈
      signalFrame .sigsegv { k with regs := gateFrame k.regs } :=
    fun j hj ↦ ⟨hhandler, j, hj, rfl⟩
  exact (pushFrame_spec hslot _ _).mono (fun _ _ _ ↦ trivial) fun _ ↦ hnoted.lostOutside

section Tick

theorem not_lost_reschedule (hmode : k.mode ≠ .corrupt) : k.reschedule.mode ≠ .corrupt := by
  unfold reschedule
  simp only
  split
  · exact hmode
  · exact not_lost_iret _ _

theorem blames_handleTimerTick (h : InUser intact roots k i) : Blames (signalFrame .sigalrm k) handleTimerTick k := by
  have hsleep := h.accountSleep
  have hmode := hsleep.not_lost
  have hsignal : Blames (signalFrame .sigalrm k) (signalRunning .sigalrm)
      (k.accountSleep.setTicksToAlarm (k.accountSleep.ctx.ticksToAlarm - 1)) := by
    rw [← accountSleep_signalFrame, ← setTicksToAlarm_signalFrame (k.accountSleep.ctx.ticksToAlarm - 1)]
    exact blames_attends (hsleep.setTicksToAlarm _) (signalRunning_attends .sigalrm _)
  have halarm : Blames (signalFrame .sigalrm k) accountAlarm k.accountSleep := by
    unfold accountAlarm accountAlarmWith
    refine Spec.read_bind (Spec.ite (fun _ ↦ ?_) fun _ ↦ Spec.pure hmode)
    apply Spec.update_bind
    exact Spec.ite (fun _ ↦ hsignal.bind fun _ _ hkept ↦ Spec.update hkept) fun _ ↦ Spec.pure hmode
  unfold handleTimerTick handleTimerTickWith
  apply Spec.update_bind
  exact halarm.bind fun _ _ hkept ↦ Spec.update (not_lost_reschedule hkept)

end Tick

/-- Every event of a user process. -/
theorem blames_userProgram (h : InUser intact roots k i) (event : Event) :
    Blames (signalBytes event k) (userProgram event) k := by
  have hmode := h.not_lost
  cases event with
  | launch args scratch => exact Spec.pure hmode
  | compute regs => exact Spec.update hmode
  | load addr => exact blames_attends h (userLoad_attends addr k)
  | store addr value => exact blames_userStore h addr value
  | syscall peek =>
    exact ((proceeding_doSyscall peek).spec k).mono (fun _ _ hproceeds hlost ↦ hmode (hproceeds.kept hlost))
      fun _ hproceeds ↦ lostOutside_of_mode fun hlost ↦ hmode (hproceeds.kept hlost)
  | divide => exact blames_attends h (signalRunning_attends .sigfpe k)
  | protection => exact Spec.leave (lostOutside_of_mode (not_lost_doExit _))
  | pageFaultGate => exact blames_pageFaultGate h
  | tick => exact blames_handleTimerTick h

/-- A store strays only from a stack outside the user segments. -/
theorem not_strayStore (h : Inv intact k) (hstack : OnUserStack k event)
    (hgranted : (Kernel.step event k).mem.AllocsGranted) :
    ¬ StrayStore event k := by
  rintro ⟨hmode, hlost⟩
  obtain ⟨roots, hshell | ⟨i, huser⟩ | hswapper | ⟨hstopped, -⟩⟩ := h
  · rcases step_shell hshell.mode_eq event with hstay | ⟨args, scratch, -, hlaunch⟩
    · exact hmode (hstay ▸ hlost)
    · rw [hlaunch] at hlost
      exact not_lost_iret _ _ hlost
  · have hfinal := ((blames_userProgram huser event).mono (fun _ _ ↦ lostOutside_of_mode) fun _ ↦ id).final
    rw [← step_user huser.mode_eq] at hfinal
    exact hfinal hlost hgranted hstack
  · have hawake : k.accountSleep.mode ≠ .corrupt := hmode
    rcases step_swapper hswapper.mode_eq event with ⟨-, hstay⟩ | ⟨-, htick⟩
    · exact hmode (hstay ▸ hlost)
    · rw [htick, hswapper.tick_eq] at hlost
      exact not_lost_reschedule hawake hlost
  · have hstay : Kernel.step event k = k := by
      apply step_stopped
      all_goals
        intro hmode
        rw [hmode] at hstopped
        exact hstopped
    exact hmode (hstay ▸ hlost)

/-- When every frame is granted and all handlers are entered on stacks in the user segments, no store strays; by
induction on the events. -/
theorem noStrayStores_of_stacks (h : Reachable k) (hstacks : Along Kernel.step OnUserStack k events)
    (hgranted : (run Kernel.step k events).mem.AllocsGranted) : NoStrayStores k events := by
  induction events generalizing k with
  | nil => exact .nil k
  | cons event events ih =>
    obtain ⟨hhere, hrest⟩ := along_cons_iff.1 hstacks
    have hgranted₁ : (Kernel.step event k).mem.AllocsGranted := hgranted.anti (onward_run _ events).le
    have hsafe := not_strayStore (h.inv (hgranted₁.anti (onward_step event k).le)) hhere hgranted₁
    refine .cons hsafe ?_
    rw [fullStep_eq hsafe]
    exact ih (h.run [event]) hrest hgranted

/-- Init has a handler and an alarm, which is delivered at the first tick. -/
theorem noStrayStores_of_stacks_alarm :
    NoStrayStores blankBoot (launchInit :: callEvents 8 2 codeStart ++
      [.compute { UserRegs.zero with rdi := 6, rsi := 1, entryRsp := stackStart }, .syscall fun _ ↦ 0, .tick,
        .store dataStart 5]) := by
  refine noStrayStores_of_stacks (Reachable.boot _ _ _ _) ?_ ?_
  · decide +kernel
  · unfold AllocsGranted
    decide +kernel

end GemOS
