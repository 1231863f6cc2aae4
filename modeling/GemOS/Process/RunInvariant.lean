import GemOS.Process.Records
import GemOS.Process.Start

/-!
# The invariant over whole runs

Every event keeps `Inv`, as long as all allocations are granted and no fork that found a free slot is cut short; a
fork that is cut short only loses what was known of that slot. Nothing is known of any slot at boot but what the empty
table gives.
-/

namespace GemOS

open Foundation Memory Kernel

variable {intact intact' : Fin maxProcesses → Prop} {roots : ℕ → Prop} {k k' : Kernel}
  {i : Fin maxProcesses} {event : Event}

/-- A fork that is cut short made no record in a slot that is to stay intact. -/
def Unhurt (intact : Fin maxProcesses → Prop) (k : Kernel) (event : Event) : Prop :=
  k.mode = .user → Asks event k .fork → ForkCut k → ∀ j, intact j → (k.ctxs (some j)).state ≠ .unused

theorem Inv.mono (h : Inv intact k) (hsub : ∀ i, intact' i → intact i) : Inv intact' k := by
  obtain ⟨roots, hshell | ⟨i, huser⟩ | hswapper | ⟨hstopped, hsound⟩⟩ := h
  · exact ⟨roots, Or.inl { hshell with sound := hshell.sound.mono hsub }⟩
  · exact ⟨roots, Or.inr (Or.inl ⟨i, huser.mono hsub⟩)⟩
  · exact ⟨roots, Or.inr (Or.inr (Or.inl { hswapper with sound := hswapper.sound.mono hsub }))⟩
  · exact ⟨roots, Or.inr (Or.inr (Or.inr ⟨hstopped, hsound.mono hsub⟩))⟩

/-- Where an event may end. -/
abbrev Upholds (intact : Fin maxProcesses → Prop) {α : Type} (p : Prog Kernel α) (k : Kernel) : Prop :=
  Spec p k (fun _ k' ↦ k ≤ k' ∧ (k'.mem.AllocsGranted → Inv intact k')) fun k' ↦
    k ≤ k' ∧ (k'.mem.AllocsGranted → Inv intact k')

/-- The result of a system call goes to `rax`. -/
theorem InUser.setRax (h : InUser intact roots k i) (value : ℕ) :
    InUser intact roots { k with regs := { k.regs with rax := value } } i :=
  ⟨h.sound, h.mode_eq, h.current_eq, h.live, h.mapped, h.cr3_eq, h.cs_eq⟩

/-- A call that keeps the current process, and the result that it returns. -/
theorem Keeps.reply {p : Prog Kernel ℕ} (hp : Keeps intact roots i p k) :
    Upholds intact (p >>= fun result ↦ Prog.update fun k ↦ { k with regs := { k.regs with rax := result } }) k :=
  Spec.bind hp fun value _ ⟨hle, hkeeps⟩ ↦ Spec.update ⟨hle, fun hgranted ↦ ((hkeeps hgranted).setRax value).inv⟩

theorem upholds_dispatch (h : InUser intact roots k i) (hsaved : k.ctx.regs = k.regs) (peek : ℕ → ℕ) (param1 param2 : ℕ)
    (call : Option Syscall)
    (hunhurt : call = some .fork → (∀ pid k', doFork k ≠ .ret pid k') → ∀ j, intact j →
      (k.ctxs (some j)).state ≠ .unused) :
    Upholds intact (dispatch peek param1 param2 call >>= fun result ↦
      Prog.update fun k ↦ { k with regs := { k.regs with rax := result } }) k := by
  have hcs : (k.ctxs (some i)).regs.entryCs = userCs := by rw [← h.ctx_eq, hsaved, h.cs_eq]
  rcases simple_or call with hsimple | rfl | rfl | rfl | rfl
  · exact (keeps_dispatch h peek param1 param2 hsimple).reply
  · exact Spec.bind (Q := fun _ _ ↦ False) (Spec.leave ⟨le_doExit k, fun _ ↦ inv_doExit h⟩) fun _ _ ↦ False.elim
  · refine Spec.bind (Q := fun _ _ ↦ False) (Spec.leave ⟨?_, fun _ ↦ inv_doSleep h hcs param1⟩) fun _ _ ↦ False.elim
    have hleave : k ≤ k.updateCtx k.current fun ctx ↦ ctx.sleepFor param1 := le_of_trace_eq rfl
    exact hleave.trans (le_schedule _ _)
  · exact (keeps_doClone h hsaved param1 param2).reply
  · refine Spec.bind ((keeps_doFork h hsaved).gone.mono (fun _ _ ↦ And.left) ?_) ?_
    · rintro k' ⟨⟨hle, hinv⟩, hcut⟩
      refine ⟨hle, fun hgranted ↦ (hinv hgranted).mono fun j hj ↦ ⟨hj, hunhurt rfl hcut j hj⟩⟩
    · rintro value k' ⟨hle, hbreeds⟩
      refine Spec.update ⟨hle, fun hgranted ↦ ?_⟩
      obtain ⟨roots', huser⟩ := hbreeds hgranted
      exact (huser.setRax value).inv

theorem upholds_doSyscall (h : InUser intact roots k i) (peek : ℕ → ℕ) (hunhurt : Unhurt intact k (.syscall peek)) :
    Upholds intact (doSyscall peek) k := by
  unfold doSyscall
  apply Spec.read_bind
  apply Spec.update_bind
  have hctx : k.saveRegs.ctx = k.ctx.saveRegs k.regs := k.updateCtx_self k.current fun ctx ↦ ctx.saveRegs k.regs
  have hle : k ≤ k.saveRegs := le_of_trace_eq rfl
  have hcall := upholds_dispatch h.saveRegs (hctx ▸ rfl) peek k.regs.rsi k.regs.rdx k.syscallRequested
    fun hfork hcut j hj ↦ ?_
  · exact hcall.mono (fun _ _ hand ↦ ⟨hle.trans hand.1, hand.2⟩) fun _ hand ↦ ⟨hle.trans hand.1, hand.2⟩
  · have hold := hunhurt h.mode_eq ⟨⟨peek, rfl⟩, hfork⟩ hcut j hj
    have hctxs := k.updateCtx_ctxs k.current (fun ctx ↦ ctx.saveRegs k.regs) (some j)
    change (k.saveRegs.ctxs (some j)) = _ at hctxs
    rw [hctxs]
    split <;> exact hold

theorem upholds_serving {p : Prog Kernel Unit} (hp : Serving p) (h : InUser intact roots k i) : Upholds intact p k :=
  (hp.keeps h).mono (fun _ _ hand ↦ ⟨hand.1, fun hgranted ↦ (hand.2 hgranted).inv⟩) fun _ ↦ id

section Tick

theorem InUser.accountSleep (h : InUser intact roots k i) : InUser intact roots k.accountSleep i :=
  ⟨h.sound.accountSleep, h.mode_eq, h.current_eq, (accountSleep_live k i).2 h.live,
    (congrArg (KernelMapped k.mem) (countSleep_space (k.ctxs (some i))).pgd_eq).symm ▸ h.mapped,
    h.cr3_eq.trans (countSleep_space (k.ctxs (some i))).pgd_eq.symm, h.cs_eq⟩

theorem InSwapper.accountSleep (h : InSwapper intact roots k) : InSwapper intact roots k.accountSleep :=
  ⟨h.sound.accountSleep, h.mode_eq, h.current_eq, h.cr3_eq, h.cs_eq⟩

theorem InUser.setTicksToAlarm (h : InUser intact roots k i) (ticks : ℕ) :
    InUser intact roots (k.setTicksToAlarm ticks) i :=
  h.update_of_mms (f := fun ctx ↦ { ctx with ticksToAlarm := ticks }) (fun _ ↦ rfl)
    (fun _ ↦ ⟨rfl, rfl, rfl, rfl⟩) fun _ ↦ rfl

theorem keeps_accountAlarm (h : InUser intact roots k i) : Keeps intact roots i accountAlarm k := by
  unfold accountAlarm
  refine Spec.read_bind (Spec.ite (fun _ ↦ ?_) fun _ ↦ ⟨le_rfl, fun _ ↦ h⟩)
  apply Spec.update_bind
  have hset := h.setTicksToAlarm (k.ctx.ticksToAlarm - 1)
  have hle : k ≤ k.setTicksToAlarm (k.ctx.ticksToAlarm - 1) := le_of_trace_eq rfl
  refine Spec.ite (fun _ ↦ ?_) fun _ ↦ ⟨hle, fun _ ↦ hset⟩
  refine Spec.bind (((serving_signalRunning .sigalrm).keeps hset).mono (fun _ _ ↦ id) fun _ hand ↦
    ⟨hle.trans hand.1, hand.2⟩) ?_
  rintro _ k' ⟨hle', hkeeps⟩
  exact Spec.update ⟨hle.trans hle', fun hgranted ↦ (hkeeps hgranted).setTicksToAlarm _⟩

theorem upholds_handleTimerTick (h : InUser intact roots k i) : Upholds intact handleTimerTick k := by
  unfold handleTimerTick handleTimerTickWith
  apply Spec.update_bind
  refine Spec.bind (keeps_accountAlarm h.accountSleep) fun _ k' ⟨hle, hkeeps⟩ ↦ Spec.update ⟨?_, fun hgranted ↦ ?_⟩
  · exact le_trans hle (onward_reschedule k').le
  · exact (hkeeps (hgranted.anti (onward_reschedule k').le)).reschedule

/-- The swapper has no alarm, and only the processor changes hands. -/
theorem InSwapper.tick_eq (h : InSwapper intact roots k) : handleTimerTick.final k = k.accountSleep.reschedule := by
  have hsleep := h.accountSleep
  have halarm : k.accountSleep.ctx.ticksToAlarm = 0 := by
    rw [Kernel.ctx, hsleep.current_eq]
    exact hsleep.sound.swapper_ok.no_alarm
  apply Spec.final (P := (· = k.accountSleep.reschedule))
  unfold handleTimerTick handleTimerTickWith accountAlarmWith
  apply Spec.update_bind
  refine Spec.bind (Q := fun _ k' ↦ k' = k.accountSleep) (Spec.read_bind ?_) ?_
  · rw [halarm, if_neg (lt_irrefl 0)]
    exact Spec.pure rfl
  · rintro _ _ rfl
    exact Spec.update rfl

theorem InSwapper.inv_tick (h : InSwapper intact roots k) : Inv intact (handleTimerTick.final k) := by
  rw [h.tick_eq]
  exact h.accountSleep.reschedule

end Tick

theorem allocMany_ok {m : Memory} (h : m.RegionsOk) (region : Region) (count : ℕ) :
    (allocMany region count m).RegionsOk ∧ (allocMany region count m).osPmdPfn = m.osPmdPfn := by
  induction count with
  | zero => exact ⟨h, rfl⟩
  | succ count ih => exact ⟨regionsOk_osPfnAlloc region ih.1, (osPfnAlloc_pmd region _).trans ih.2⟩

/-- The memory at the first shell prompt, and the swapper's kernel stack. -/
theorem bootAlloc_memory (phys : PhysMem) (apicBase : ApicBase) :
    (bootAlloc (.init phys apicBase)).2.2.RegionsOk ∧ (bootAlloc (.init phys apicBase)).2.2.osPmdPfn = 0 ∧
      (bootAlloc (.init phys apicBase)).2.2.pglists .osPt = bootList 5 ∧
        (bootAlloc (.init phys apicBase)).2.1 = 0x2005 := by
  obtain ⟨hregions, hpmd⟩ := allocMany_ok (show (Memory.init phys
    apicBase).RegionsOk from PageList.regionOk_initPagelists) .osDs osDsFrames
  have hstart : (allocMany .osDs osDsFrames (.init phys apicBase)).pglists .osPt = bootList 0 :=
    pglists_allocMany (by decide) _ _
  change _ = 0 at hpmd
  unfold bootAlloc
  generalize allocMany .osDs osDsFrames (.init phys apicBase) = m at *
  obtain ⟨-, hlist₁, -⟩ := osPfnAlloc_of_list hstart (by decide +kernel)
  obtain ⟨-, hlist₂, -⟩ := @osPfnAlloc_of_list _ _ (bootList 1) hlist₁ (by decide +kernel)
  obtain ⟨-, hlist₃, -⟩ := @osPfnAlloc_of_list _ _ (bootList 2) hlist₂ (by decide +kernel)
  obtain ⟨-, hlist₄, -⟩ := @osPfnAlloc_of_list _ _ (bootList 3) hlist₃ (by decide +kernel)
  obtain ⟨hframe, hlist₅, -⟩ := @osPfnAlloc_of_list _ _ (bootList 4) hlist₄ (by decide +kernel)
  refine ⟨?_, ?_, hlist₅, hframe.trans (by decide +kernel)⟩
  · exact regionsOk_osPfnAlloc _ (regionsOk_osPfnAlloc _ (regionsOk_osPfnAlloc _ (regionsOk_osPfnAlloc _
      (regionsOk_osPfnAlloc _ hregions))))
  · simp only [osPfnAlloc_pmd]
    exact hpmd

theorem inv_boot (intact : Fin maxProcesses → Prop) (phys : PhysMem) (apicBase : ApicBase)
    (wp : Bool) (null : ExecContext) :
    Inv intact (Kernel.boot phys apicBase wp null) := by
  obtain ⟨hregions, hpmd, hlist, hstack⟩ := bootAlloc_memory phys apicBase
  have hempty : ∀ i, ¬ Live (Kernel.boot phys apicBase wp null).ctxs i := by
    rintro i ⟨hi, hstate⟩
    have hzero : (Kernel.boot phys apicBase wp null).ctxs (some i) = .zero := if_neg hi
    rw [hzero] at hstate
    exact hstate rfl
  have hswapper : (Kernel.boot phys apicBase wp null).ctxs swapper = swapperRecord 0x2005 := by
    rw [Kernel.boot, hstack]
    rfl
  have hmem : (Kernel.boot phys apicBase wp null).mem = (bootAlloc (.init phys apicBase)).2.2 := by rw [Kernel.boot]
  have hmode : (Kernel.boot phys apicBase wp null).mode = .shell := by rw [Kernel.boot]
  rw [← hmem] at hregions hpmd hlist
  generalize Kernel.boot phys apicBase wp null = k at *
  refine ⟨fun _ ↦ False, Or.inl ⟨.of_none hregions hempty ?_ ?_ ?_ ?_ ?_, hmode, hempty⟩⟩
  all_goals rw [hswapper]
  · exact ⟨rfl, rfl, fun hstate ↦ ProcessState.noConfusion hstate, rfl, rfl⟩
  · rfl
  · change Region.osPt.Usable 0x2005
    decide
  · change (k.mem.pglists .osPt).allocated 0x2005 = true
    rw [hlist]
    decide +kernel
  · rw [hpmd]
    change 0 < 2 ^ 32 ∧ 0 ≠ 0x2005
    decide

/-- Every event of a user process. -/
theorem inv_userProgram (h : InUser intact roots k i) (hunhurt : Unhurt intact k event) :
    Upholds intact (userProgram event) k := by
  cases event with
  | launch args scratch => exact ⟨le_rfl, fun _ ↦ h.inv⟩
  | compute regs =>
    have hcomputed : InUser intact roots (k.compute regs) i :=
      h.quiet ⟨rfl, rfl, rfl, rfl, rfl, rfl, rfl, rfl, rfl, rfl⟩
    exact ⟨le_of_trace_eq rfl, fun _ ↦ hcomputed.inv⟩
  | load addr => exact upholds_serving (serving_userLoad addr) h
  | store addr value => exact upholds_serving (serving_userStore addr value) h
  | syscall peek => exact upholds_doSyscall h peek hunhurt
  | divide => exact upholds_serving (serving_signalRunning .sigfpe) h
  | protection => exact ⟨le_doGp k, fun _ ↦ inv_doGp h⟩
  | pageFaultGate => exact upholds_serving serving_pageFaultGate h
  | tick => exact upholds_handleTimerTick h

/-- Every event keeps the invariant, when its allocations are granted. -/
theorem inv_step (h : Inv intact k) (hunhurt : Unhurt intact k event)
    (hgranted : (Kernel.step event k).mem.AllocsGranted) :
    Inv intact (Kernel.step event k) := by
  obtain ⟨roots, hshell | ⟨i, huser⟩ | hswapper | ⟨hstopped, hsound⟩⟩ := id h
  · rcases step_shell hshell.mode_eq event with hstay | ⟨args, scratch, -, hlaunch⟩
    · rwa [hstay]
    · rw [hlaunch] at hgranted ⊢
      exact hshell.inv_launch args scratch hgranted
  · rw [step_user huser.mode_eq] at hgranted ⊢
    exact (inv_userProgram huser hunhurt).final.2 hgranted
  · rcases step_swapper hswapper.mode_eq event with ⟨-, hstay⟩ | ⟨-, htick⟩
    · rwa [hstay]
    · rw [htick]
      exact hswapper.inv_tick
  · have hstay : Kernel.step event k = k := by
      apply step_stopped
      all_goals
        intro hmode
        rw [hmode] at hstopped
        exact hstopped
    rwa [hstay]

/-- A run whose allocations are all granted keeps the invariant of the slots that no fork hurts. -/
theorem inv_run (h : Inv intact k) {events : List Event} (hunhurt : Along Kernel.step (Unhurt intact) k events)
    (hgranted : (run Kernel.step k events).mem.AllocsGranted) : Inv intact (run Kernel.step k events) := by
  refine Along.invariant_under (G := fun k ↦ k.mem.AllocsGranted) (fun event k ↦ (onward_step event k).le)
    (fun hle hgranted ↦ hgranted.anti hle) hunhurt h (fun k event hinv hunhurt hgranted ↦ ?_) hgranted
  exact inv_step hinv hunhurt hgranted

/-- Of every state that is reached while all allocations are granted. -/
theorem Reachable.inv (h : Reachable k) (hgranted : k.mem.AllocsGranted) : Inv (fun _ ↦ False) k := by
  obtain ⟨phys, apicBase, wp, null, events, rfl⟩ := h
  refine inv_run (inv_boot _ phys apicBase wp null) (along_iff.2 fun before event later _ ↦ ?_) hgranted
  exact fun _ _ _ _ hintact ↦ hintact.elim

theorem Inv.inShell (h : Inv intact k) (hmode : k.mode = .shell) : ∃ roots, InShell intact roots k := by
  obtain ⟨roots, hshell | ⟨i, huser⟩ | hswapper | ⟨hstopped, -⟩⟩ := h
  · exact ⟨roots, hshell⟩
  · exact Mode.noConfusion (hmode.symm.trans huser.mode_eq)
  · exact Mode.noConfusion (hmode.symm.trans hswapper.mode_eq)
  · rw [hmode] at hstopped
    exact hstopped.elim

theorem Inv.inUser (h : Inv intact k) (hmode : k.mode = .user) : ∃ roots i, InUser intact roots k i := by
  obtain ⟨roots, hshell | ⟨i, huser⟩ | hswapper | ⟨hstopped, -⟩⟩ := h
  · exact Mode.noConfusion (hmode.symm.trans hshell.mode_eq)
  · exact ⟨roots, i, huser⟩
  · exact Mode.noConfusion (hmode.symm.trans hswapper.mode_eq)
  · rw [hmode] at hstopped
    exact hstopped.elim

end GemOS
