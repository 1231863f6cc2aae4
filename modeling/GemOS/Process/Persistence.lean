import GemOS.Process.CallInvariant

/-!
# Steps only go on

No step of the machine takes an allocator call back, moves a frame taken at boot or touches the write-protect bit, and
no system call loses the run. For what serves, departs or answers this is read off the relation; `fork`, `clone` and the
launch are followed through their programs.
-/

namespace GemOS

open Foundation Memory Kernel

variable {k k₁ k' : Kernel} {α β : Type}

/-- The allocator calls made so far stay made, and what was fixed at boot stays. -/
structure Onward (k k' : Kernel) : Prop where
  le : k ≤ k'
  fixed_eq : k'.fixed = k.fixed

namespace Onward

theorem refl (k : Kernel) : Onward k k := ⟨le_rfl, rfl⟩

theorem trans (first : Onward k k₁) (second : Onward k₁ k') : Onward k k' :=
  ⟨first.le.trans second.le, second.fixed_eq.trans first.fixed_eq⟩

theorem of_mem_eq (hmem : k'.mem = k.mem) (hfixed : k'.fixed = k.fixed) : Onward k k' :=
  ⟨le_of_trace_eq (by rw [hmem]), hfixed⟩

theorem memory {m : Memory} (hle : k.mem ≤ m) : Onward k { k with mem := m } := ⟨hle, rfl⟩

theorem boot_eq (h : Onward k k') : k'.bootFrames = k.bootFrames := congrArg Prod.fst h.fixed_eq

theorem wp_eq (h : Onward k k') : k'.wp = k.wp := congrArg Prod.snd h.fixed_eq

end Onward

theorem fixed_loadCr3 (k : Kernel) (pgd : ℕ) : (k.loadCr3 pgd).fixed = k.fixed := by
  unfold loadCr3
  split <;> rfl

theorem fixed_schedule (p : CtxPtr) (k : Kernel) : (k.schedule p).fixed = k.fixed := by
  unfold schedule
  simp only
  split
  · rfl
  · exact fixed_loadCr3 _ _

theorem onward_schedule (p : CtxPtr) (k : Kernel) : Onward k (k.schedule p) := ⟨le_schedule p k, fixed_schedule p k⟩

theorem fixed_doExit (k : Kernel) : k.doExit.fixed = k.fixed := by
  unfold doExit
  split
  · exact fixed_schedule _ _
  · rfl

theorem onward_doExit (k : Kernel) : Onward k k.doExit := ⟨le_doExit k, fixed_doExit k⟩

theorem onward_doGp (k : Kernel) : Onward k k.doGp := ⟨le_doGp k, fixed_doExit { k with cr3 := swapperPgd }⟩

theorem Kernel.Serves.onward (h : Serves k k') : Onward k k' := by
  refine ⟨h.le, ?_⟩
  induction h with
  | refl => rfl
  | quiet _ hquiet ih => exact hquiet.fixed_eq.trans ih
  | fault _ _ _ _ ih => exact ih
  | store _ _ ih => exact ih

theorem Kernel.Departs.onward (h : Departs k k') : Onward k k' := by
  refine ⟨h.le, ?_⟩
  cases h with
  | exit before => exact (fixed_doExit _).trans before.onward.fixed_eq
  | protection before => exact (fixed_doExit _).trans before.onward.fixed_eq
  | stop before _ hquiet => exact hquiet.fixed_eq.trans before.onward.fixed_eq

/-- And the run is not lost on the way. -/
structure Proceeds (k k' : Kernel) : Prop extends Onward k k' where
  kept : k'.mode = .corrupt → k.mode = .corrupt

namespace Proceeds

theorem refl (k : Kernel) : Proceeds k k := ⟨.refl k, id⟩

theorem trans (first : Proceeds k k₁) (second : Proceeds k₁ k') : Proceeds k k' :=
  ⟨first.toOnward.trans second.toOnward, first.kept ∘ second.kept⟩

theorem of_mem_eq (hmem : k'.mem = k.mem) (hfixed : k'.fixed = k.fixed) (hmode : k'.mode = k.mode) : Proceeds k k' :=
  ⟨.of_mem_eq hmem hfixed, hmode.symm.trans⟩

theorem memory {m : Memory} (hle : k.mem ≤ m) : Proceeds k { k with mem := m } := ⟨.memory hle, id⟩

end Proceeds

theorem not_lost_iret (k : Kernel) (frame : UserRegs) : (k.iret frame).mode ≠ .corrupt := by
  unfold iret
  simp only
  split
  · exact Mode.noConfusion
  · split <;> exact Mode.noConfusion

theorem proceeds_schedule (p : CtxPtr) (k : Kernel) : Proceeds k (k.schedule p) :=
  ⟨onward_schedule p k, fun hlost ↦ absurd hlost (not_lost_iret _ _)⟩

theorem not_lost_doExit (k : Kernel) : k.doExit.mode ≠ .corrupt := by
  unfold doExit
  split
  · exact not_lost_iret _ _
  · exact Mode.noConfusion

theorem proceeds_doExit (k : Kernel) : Proceeds k k.doExit :=
  ⟨onward_doExit k, fun hlost ↦ absurd hlost (not_lost_doExit k)⟩

theorem proceeds_doGp (k : Kernel) : Proceeds k k.doGp := ⟨onward_doGp k, fun hlost ↦ absurd hlost (not_lost_doExit _)⟩

/-- What quits is lost only by a store that strays. -/
theorem Kernel.Quits.strays {stored : Set ℕ} (h : Quits stored k k') (hmode : k.mode ≠ .corrupt)
    (hlost : k'.mode = .corrupt) :
    ∃ addr ∈ stored, Strays k k' addr := by
  cases h with
  | exit _ => exact absurd hlost (not_lost_doExit _)
  | protection _ => exact absurd hlost (not_lost_doExit _)
  | stop _ _ _ lost => exact lost hlost hmode

theorem Kernel.Tends.proceeds (h : Tends k k') : Proceeds k k' := ⟨h.serves.onward, h.mode_eq.symm.trans⟩

theorem Kernel.Quits.proceeds (h : Quits ∅ k k') : Proceeds k k' := by
  refine ⟨h.departs.onward, fun hlost ↦ by_contra fun hmode ↦ ?_⟩
  obtain ⟨_, hmem, -⟩ := h.strays hmode hlost
  exact hmem

instance : Ways Onward Onward := ⟨.refl, .trans, .trans⟩

instance : Ways Proceeds Proceeds := ⟨.refl, .trans, .trans⟩

/-- A program that goes on from every state. -/
abbrev Advances (p : Prog Kernel α) : Prop := Conforms Onward Onward p

/-- A program that goes on, and does not lose the run. -/
abbrev Proceeding (p : Prog Kernel α) : Prop := Conforms Proceeds Proceeds p

theorem Advances.of_serving {p : Prog Kernel α} (h : Serving p) : Advances p := h.mono Serves.onward Departs.onward

theorem Proceeding.advances {p : Prog Kernel α} (h : Proceeding p) : Advances p :=
  h.mono Proceeds.toOnward Proceeds.toOnward

theorem proceeds_updateCtx (k : Kernel) (p : CtxPtr) (f : ExecContext → ExecContext) : Proceeds k (k.updateCtx p f) :=
  .of_mem_eq rfl rfl rfl

/-- A fault of the kernel is served or ends the process, whatever the page table. -/
theorem proceeding_kernelPageFault (cr2 errorCode : ℕ) : Proceeding (kernelPageFault cr2 errorCode) := by
  have hnoted : ∀ k : Kernel, Proceeds k (k.notePageFault cr2) := fun k ↦ .of_mem_eq rfl rfl rfl
  refine ⟨fun k ↦ doPageFault_spec (fun _ ↦ (hnoted k).trans (.memory (le_installPageTable _ _ _ _))) ?_⟩
  exact invokeSyncSignal_spec .sigsegv ((hnoted k).trans (proceeds_doExit _))
    (fun _ ↦ (hnoted k).trans (proceeds_doGp _))
    (hnoted k)

theorem Kernel.Answers.proceeds {call : Option Syscall} {param1 param2 : ℕ} (h : Answers param1 param2 k call k') :
    Proceeds k k' := by
  cases h with
  | tend tends => exact tends.proceeds
  | shrink => exact ⟨⟨le_unmapPages _ _ _, rfl⟩, id⟩
  | expand | signal | alarm => exact proceeds_updateCtx k _ _

theorem proceeds_getNewCtx (k : Kernel) : Proceeds k k.getNewCtx.2 := by
  unfold getNewCtx
  split
  · exact .of_mem_eq rfl rfl rfl
  · exact .refl k

theorem proceeds_pfnAlloc (region : Region) (k : Kernel) : Proceeds k (pfnAlloc region k).2 :=
  .memory (le_osPfnAlloc region k.mem)

theorem le_sharePage (parentPgd childPgd : ℕ) (seg : MmSegment) (vaddr : ℕ) (m : Memory) :
    m ≤ sharePage parentPgd childPgd seg vaddr m := by
  unfold sharePage
  cases getUserPte m.phys parentPgd vaddr with
  | none => exact le_rfl
  | some slot => exact le_installPtable _ _ _ _ _

theorem le_sharePages (parentPgd childPgd : ℕ) (seg : MmSegment) (vaddrs : List ℕ) (m : Memory) :
    m ≤ sharePages parentPgd childPgd seg vaddrs m := by
  induction vaddrs generalizing m with
  | nil => exact le_rfl
  | cons vaddr vaddrs ih => exact (le_sharePage _ _ _ vaddr m).trans (ih _)

theorem proceeding_copyFrame (dst src : ℕ) : Proceeding (copyFrame dst src) := by
  have hfault : ∀ cr2 errorCode, Proceeding (kernelPageFault cr2 errorCode >>= fun _ ↦
      (Prog.leave fun k ↦ { k with mode := .hung } : Prog Kernel Unit)) := fun cr2 errorCode ↦
    (proceeding_kernelPageFault cr2 errorCode).bind fun _ ↦ .leave fun _ ↦
      ⟨.of_mem_eq rfl rfl, fun hlost ↦ Mode.noConfusion hlost⟩
  exact .ite (hfault _ _) (.ite (hfault _ _) (.update fun k ↦ .memory (le_of_trace_eq rfl)))

theorem proceeding_copyPage (childPgd : ℕ) (seg : MmSegment) (vaddr : ℕ) :
    Proceeding (copyPage childPgd seg vaddr) := by
  refine Conforms.reading fun k ↦ ?_
  cases getUserPte k.mem.phys k.ctx.pgd vaddr with
  | none => exact .pure ()
  | some slot =>
    exact (Conforms.call fun k ↦ .memory (le_installPtable _ _ _ _ _)).bind fun pfn ↦
      .reading fun k₁ ↦ proceeding_copyFrame _ _

theorem proceeding_copyPages (childPgd : ℕ) (seg : MmSegment) (vaddrs : List ℕ) :
    Proceeding (copyPages childPgd seg vaddrs) := by
  induction vaddrs with
  | nil => exact .pure ()
  | cons vaddr vaddrs ih => exact (proceeding_copyPage childPgd seg vaddr).bind fun _ ↦ ih

theorem proceeding_copyMm (child : CtxPtr) : Proceeding (copyMm child) := by
  refine (Conforms.call (proceeds_pfnAlloc .osPt)).bind fun pgd ↦ ?_
  refine Conforms.bind (.update fun k ↦ ⟨⟨le_zeroFrame k.mem pgd, rfl⟩, id⟩) fun _ ↦ ?_
  refine Conforms.bind (.update fun k ↦ .memory ((le_sharePages _ _ _ _ _).trans (le_sharePages _ _ _ _ _))) fun _ ↦ ?_
  refine .reading fun k ↦ (proceeding_copyPages pgd _ _).bind fun _ ↦ (proceeding_copyPages pgd _ _).bind fun _ ↦ ?_
  exact .update fun k ↦ .memory (le_installOsPts pgd k.config k.mem)

theorem proceeding_doFork : Proceeding doFork := by
  refine (Conforms.call proceeds_getNewCtx).bind fun child ↦ .reading fun k ↦ ?_
  refine (Conforms.update fun k ↦ proceeds_updateCtx k _ _).bind fun _ ↦ (proceeding_copyMm child).bind fun _ ↦ ?_
  refine Conforms.bind ?_ fun _ ↦ .pure _
  exact (Conforms.call (proceeds_pfnAlloc .osPt)).bind fun stack ↦ .update fun k ↦ .of_mem_eq rfl rfl rfl

theorem proceeding_doClone (thFunc userStack : ℕ) : Proceeding (doClone thFunc userStack) := by
  refine (Conforms.call proceeds_getNewCtx).bind fun child ↦
    (Conforms.call (proceeds_pfnAlloc .osPt)).bind fun stack ↦ ?_
  exact (Conforms.update fun k ↦ proceeds_updateCtx k _ _).bind fun _ ↦ .pure _

theorem proceeding_dispatch (peek : ℕ → ℕ) (param1 param2 : ℕ) (call : Option Syscall) :
    Proceeding (dispatch peek param1 param2 call) := by
  rcases simple_or call with hsimple | rfl | rfl | rfl | rfl
  · exact ⟨fun k ↦ (dispatch_answers peek param1 param2 hsimple).mono (fun _ _ ↦ Answers.proceeds) fun _ ↦
      Quits.proceeds⟩
  · exact .leave proceeds_doExit
  · exact .leave fun k ↦ (proceeds_updateCtx k k.current _).trans (proceeds_schedule _ _)
  · exact proceeding_doClone param1 param2
  · exact proceeding_doFork

theorem proceeding_doSyscall (peek : ℕ → ℕ) : Proceeding (doSyscall peek) := by
  refine .reading fun k ↦ Conforms.bind (.update fun k ↦ .of_mem_eq rfl rfl rfl) fun _ ↦ ?_
  exact (proceeding_dispatch peek _ _ _).bind fun _ ↦ .update fun k ↦ .of_mem_eq rfl rfl rfl

theorem onward_reschedule (k : Kernel) : Onward k k.reschedule := by
  have hswitch : ∀ (k : Kernel) (next : CtxPtr), Onward k (k.switchTo next) := by
    intro k next
    unfold switchTo
    simp only
    split
    · exact .of_mem_eq rfl rfl
    · refine .of_mem_eq ?_ (fixed_loadCr3 _ _)
      unfold iret makeCurrent loadCr3
      split <;> rfl
  unfold reschedule
  simp only
  split
  · exact .of_mem_eq rfl rfl
  · refine Onward.trans ?_ (hswitch _ _)
    exact .of_mem_eq rfl rfl

theorem advances_handleTimerTick : Advances handleTimerTick := by
  refine Conforms.bind (.update fun k ↦ .of_mem_eq rfl rfl) fun _ ↦ Conforms.bind ?_ fun _ ↦ .update onward_reschedule
  refine .reading fun k ↦ .ite ((Conforms.update fun k ↦ (proceeds_updateCtx k _ _).toOnward).bind fun _ ↦
    ?_) (.pure ())
  refine .ite ((Advances.of_serving (serving_signalRunning .sigalrm)).bind fun _ ↦ ?_) (.pure ())
  exact .update fun k ↦ (proceeds_updateCtx k _ _).toOnward

theorem advances_userProgram (event : Event) : Advances (userProgram event) := by
  cases event with
  | launch args scratch => exact .pure ()
  | compute regs => exact .update fun k ↦ .of_mem_eq rfl rfl
  | load addr => exact Advances.of_serving (serving_userLoad addr)
  | store addr value => exact Advances.of_serving (serving_userStore addr value)
  | syscall peek => exact (proceeding_doSyscall peek).advances
  | divide => exact Advances.of_serving (serving_signalRunning .sigfpe)
  | protection => exact .leave onward_doGp
  | pageFaultGate => exact Advances.of_serving serving_pageFaultGate
  | tick => exact advances_handleTimerTick

theorem le_buildInit (mms : MmSeg → MmSegment) (config : OsConfigs) (m : Memory) :
    m ≤ (buildInit mms config m).2.2 := by
  unfold buildInit
  refine le_trans ?_ (le_installOsPts _ _ _)
  refine le_trans ?_ (le_installPtable _ _ _ _ _)
  refine le_trans ?_ (le_installPtable _ _ _ _ _)
  exact ((le_osPfnAlloc .osPt m).trans (le_zeroFrame _ _)).trans (le_installPtableMulti _ _ _ _ _)

theorem onward_createContext (k : Kernel) : Onward k k.createContext.2 := by
  refine (proceeds_getNewCtx k).toOnward.trans ((proceeds_pfnAlloc .osPt k.getNewCtx.2).toOnward.trans ?_)
  exact .of_mem_eq rfl rfl

theorem onward_execInit (p : CtxPtr) (args : InitArgs) (scratch : UserRegs) (k : Kernel) :
    Onward k (k.execInit p args scratch) := by
  have hbuilt := le_buildInit (k.ctxs p).mms k.config k.mem
  refine ⟨hbuilt.trans ?_, fixed_loadCr3 _ _⟩
  unfold execInit
  apply le_of_trace_eq
  unfold iret loadCr3
  simp only
  split <;> rfl

theorem onward_launch (args : InitArgs) (scratch : UserRegs) (k : Kernel) : Onward k (k.launch args scratch) :=
  (onward_createContext k).trans (onward_execInit _ _ _ _)

theorem onward_step (event : Event) (k : Kernel) : Onward k (step event k) := by
  cases hmode : k.mode with
  | shell =>
    rcases step_shell hmode event with hstay | ⟨args, scratch, -, hlaunch⟩
    · rw [hstay]
      exact .refl k
    · rw [hlaunch]
      exact onward_launch args scratch k
  | user =>
    rw [step_user hmode]
    exact ((advances_userProgram event).spec k).final
  | swapper =>
    rcases step_swapper hmode event with ⟨-, hstay⟩ | ⟨-, htick⟩
    · rw [hstay]
      exact .refl k
    · rw [htick]
      exact (advances_handleTimerTick.spec k).final
  | _ =>
    rw [step_stopped (by rw [hmode]; decide) (by rw [hmode]; decide) (by rw [hmode]; decide)]
    exact .refl k

theorem onward_run (k : Kernel) (events : List Event) : Onward k (run step k events) := by
  induction events generalizing k with
  | nil => exact .refl k
  | cons event events ih => exact (onward_step event k).trans (ih _)

end GemOS
