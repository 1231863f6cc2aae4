import GemOS.Paging.Identity
import GemOS.Process.StrayStores
import GemOS.Process.Teardown
import GemOS.Process.PageTouches

/-!
# Runs whose forks are whole

The page copies of `copy_mm` go through the identity window, and a fork that meets a frame above it is cut short. It
leaves a record in use behind that has no kernel window and still names the kernel stack of its parent, which is freed
when the parent ends. In a run in which that does not happen, and nothing is stored in memory of the kernel, every
process has its own stack and the kernel's pages.
-/

namespace GemOS

open Foundation TableForest Memory Kernel

variable {phys : PhysMem} {apicBase : ApicBase} {wp : Bool} {null : ExecContext} {events : List Event} {k : Kernel}
  {i : Fin maxProcesses}

/-- A fork that finds a slot is not cut short. -/
def ForkWhole (k : Kernel) (event : Event) : Prop :=
  k.mode = .user → Asks event k .fork → ForkCut k → ∀ j, (k.ctxs (some j)).state ≠ .unused

instance (k : Kernel) (event : Event) : Decidable (ForkWhole k event) := by
  unfold ForkWhole
  infer_instance

/-- The state after a run from boot. -/
abbrev afterBoot (phys : PhysMem) (apicBase : ApicBase) (wp : Bool) (null : ExecContext)
    (events : List Event) : Kernel :=
  run Kernel.step (Kernel.boot phys apicBase wp null) events

/-- The state of the whole machine. -/
abbrev fullBoot (phys : PhysMem) (apicBase : ApicBase) (wp : Bool) (null : ExecContext)
    (events : List Event) : Kernel :=
  run Kernel.fullStep (Kernel.boot phys apicBase wp null) events

theorem sound_of_whole (hwhole : Along Kernel.step ForkWhole (Kernel.boot phys apicBase wp null) events)
    (hgranted : (afterBoot phys apicBase wp null events).mem.AllocsGranted) :
    ∃ roots, Sound (fun _ ↦ True) roots (afterBoot phys apicBase wp null events).mem
      (afterBoot phys apicBase wp null events).ctxs (afterBoot phys apicBase wp null events).current :=
  (inv_run (inv_boot _ phys apicBase wp null) (hwhole.mono fun _ _ h hmode hasks hcut j _ ↦
    h hmode hasks hcut j) hgranted).sound

/-- The records in use have the number of their slot and kernel stacks of their own, none of which is a page table. -/
structure SlotsApart (k : Kernel) : Prop where
  pid_eq : ∀ i, (k.ctxs (some i)).state ≠ .unused → (k.ctxs (some i)).pid = i
  rsp_eq : ∀ i, (k.ctxs (some i)).state ≠ .unused → (k.ctxs (some i)).osRsp = ((k.ctxs (some i)).osStackPfn + 1) <<< 12
  stack_allocated : ∀ i, (k.ctxs (some i)).state ≠ .unused → k.mem.allocated .osPt (k.ctxs (some i)).osStackPfn = true
  stack_inj : ∀ i j, (k.ctxs (some i)).state ≠ .unused → (k.ctxs (some j)).state ≠ .unused →
    (k.ctxs (some i)).osStackPfn = (k.ctxs (some j)).osStackPfn → i = j
  not_table : ∀ i j path, (k.ctxs (some i)).state ≠ .unused → Live k.ctxs j → path.length ≤ 3 →
    k.mem.phys.tableAt (k.ctxs (some j)).pgd path ≠ some (k.ctxs (some i)).osStackPfn

theorem slotsApart_of_forkWhole (hwhole : Along Kernel.step ForkWhole (Kernel.boot phys apicBase wp null) events)
    (hgranted : (afterBoot phys apicBase wp null events).mem.AllocsGranted) :
    SlotsApart (afterBoot phys apicBase wp null events) := by
  obtain ⟨roots, hsound⟩ := sound_of_whole hwhole hgranted
  generalize afterBoot phys apicBase wp null events = k at *
  have hcases : ∀ i, (k.ctxs (some i)).state ≠ .unused → some i = swapper ∨ Live k.ctxs i := fun i hused ↦ by
    by_cases hzero : i.val = 0
    · exact Or.inl (congrArg some (Fin.ext hzero))
    · exact Or.inr ⟨hzero, hused⟩
  have hstack : ∀ i, (k.ctxs (some i)).state ≠ .unused → HasStack k.mem k.ctxs i := fun i hused ↦
    (hcases i hused).imp_right fun hlive ↦ ⟨hlive, hsound.whole i trivial hlive⟩
  constructor
  case pid_eq =>
    intro i hused
    rcases hcases i hused with hswapper | hlive
    · rw [hswapper, hsound.swapper_ok.pid_eq]
      exact (congrArg Fin.val (Option.some.inj hswapper)).symm
    · exact hsound.pid_eq i hlive
  case rsp_eq => exact fun i hused ↦ hsound.rsp_eq i hused
  case stack_allocated => exact fun i hused ↦ (hsound.stack_ok i (hstack i hused)).allocated
  case stack_inj => exact fun i j hi hj ↦ hsound.stack_inj i j (hstack i hi) (hstack j hj)
  case not_table =>
    intro i j path hused hlive hlength htable
    exact (hsound.stack_ok i (hstack i hused)).not_table
      (Tables.isTable_of_tableAt (hsound.live_root j hlive) hlength htable)

/-- In a run without stray stores whose forks are whole. -/
theorem slotsApart_of_whole (hsafe : NoStrayStores (Kernel.boot phys apicBase wp null) events)
    (hwhole : Along Kernel.fullStep ForkWhole (Kernel.boot phys apicBase wp null) events)
    (hgranted : (fullBoot phys apicBase wp null events).mem.AllocsGranted) :
    SlotsApart (fullBoot phys apicBase wp null events) := by
  have hrun : fullBoot phys apicBase wp null events = afterBoot phys apicBase wp null events := hsafe.run_eq
  rw [hrun] at hgranted ⊢
  exact slotsApart_of_forkWhole (hsafe.along_iff.1 hwhole) hgranted

theorem slotsApart_of_whole_fork :
    SlotsApart (fullBoot (fun _ _ ↦ 0) .reset true .zero (launchInit :: callEvents 10 0 0)) := by
  refine slotsApart_of_whole ?_ ?_ ?_
  · decide +kernel
  · decide +kernel
  · unfold AllocsGranted
    decide +kernel

/-- The addresses of the kernel are translated to themselves in every process, with the right to write and not for user
mode. -/
theorem kernelAddr_of_forkWhole (hwhole : Along Kernel.step ForkWhole (Kernel.boot phys apicBase wp null) events)
    (hgranted : (afterBoot phys apicBase wp null events).mem.AllocsGranted)
    (hlive : Live (afterBoot phys apicBase wp null events).ctxs i) {addr : ℕ}
    (haddr : KernelAddr (afterBoot phys apicBase wp null events).mem.apicBase addr) :
    hwWalk (afterBoot phys apicBase wp null events).mem.phys
      ((afterBoot phys apicBase wp null events).ctxs (some i)).pgd addr =
      some ⟨addr / 4096, false, true⟩ := by
  obtain ⟨roots, hsound⟩ := sound_of_whole hwhole hgranted
  have hmapped := hsound.whole i trivial hlive
  exact hsound.tables.hwWalk_kernelAddr (hsound.live_root i hlive) hmapped (hsound.top_writable i hlive hmapped) haddr

/-- In a run without stray stores whose forks are whole. -/
theorem kernelAddr_of_whole (hsafe : NoStrayStores (Kernel.boot phys apicBase wp null) events)
    (hwhole : Along Kernel.fullStep ForkWhole (Kernel.boot phys apicBase wp null) events)
    (hgranted : (fullBoot phys apicBase wp null events).mem.AllocsGranted)
    (hlive : Live (fullBoot phys apicBase wp null events).ctxs i) {addr : ℕ}
    (haddr : KernelAddr (fullBoot phys apicBase wp null events).mem.apicBase addr) :
    hwWalk (fullBoot phys apicBase wp null events).mem.phys
      ((fullBoot phys apicBase wp null events).ctxs (some i)).pgd addr =
      some ⟨addr / 4096, false, true⟩ := by
  have hrun : fullBoot phys apicBase wp null events = afterBoot phys apicBase wp null events := hsafe.run_eq
  rw [hrun] at hgranted hlive haddr ⊢
  exact kernelAddr_of_forkWhole (hsafe.along_iff.1 hwhole) hgranted hlive haddr

theorem kernelAddr_of_whole_fork :
    hwWalk (fullBoot (fun _ _ ↦ 0) .reset true .zero (launchInit :: callEvents 10 0 0)).mem.phys
      ((fullBoot (fun _ _ ↦ 0) .reset true .zero (launchInit :: callEvents 10 0 0)).ctxs
        (some ⟨2, by decide⟩)).pgd 0x100000 =
        some ⟨0x100000 / 4096, false, true⟩ := by
  refine kernelAddr_of_whole ?_ ?_ ?_ ?_ ?_
  · decide +kernel
  · decide +kernel
  · unfold AllocsGranted
    decide +kernel
  · unfold Live
    decide +kernel
  · exact Or.inl (by decide)

section Cut

/-- With all frames of the window in use init forks once more; the copy of the first DATA page is cut short. -/
def cutShort : Kernel := run Kernel.step worn (callEvents 10 0 0)

theorem cutShort_granted : cutShort.mem.AllocsGranted := by
  have hall : (cutShort.mem.trace.all fun event ↦ decide event.Granted) = true := by decide +kernel
  exact fun event hevent ↦ of_decide_eq_true (List.all_eq_true.1 hall event hevent)

theorem cutShort_safe : SafelyReachable cutShort := (reachable_worn _).safely (by decide +kernel)

/-- The record that is left names a kernel stack that was freed. -/
theorem cutShort_not_apart :
    SafelyReachable cutShort ∧ cutShort.mem.AllocsGranted ∧ cutShort.mode = .user ∧ ¬ SlotsApart cutShort := by
  have hrun : cutShort.mode = .user ∧ (cutShort.ctxs (some ⟨3, by decide⟩)).state ≠ .unused ∧
      cutShort.mem.allocated .osPt (cutShort.ctxs (some ⟨3, by decide⟩)).osStackPfn = false := by decide +kernel
  refine ⟨cutShort_safe, cutShort_granted, hrun.1, fun hapart ↦ ?_⟩
  exact Bool.noConfusion (hrun.2.2.symm.trans (hapart.stack_allocated _ hrun.2.1))

/-- Its page table does not map the kernel. -/
theorem cutShort_unmapped :
    SafelyReachable cutShort ∧ cutShort.mem.AllocsGranted ∧ Live cutShort.ctxs ⟨3, by decide⟩ ∧
      KernelAddr cutShort.mem.apicBase 0 ∧
      hwWalk cutShort.mem.phys (cutShort.ctxs (some ⟨3, by decide⟩)).pgd 0 = none := by
  have hrun : (cutShort.ctxs (some ⟨3, by decide⟩)).state ≠ .unused ∧
      hwWalk cutShort.mem.phys (cutShort.ctxs (some ⟨3, by decide⟩)).pgd 0 = none := by decide +kernel
  exact ⟨cutShort_safe, cutShort_granted, ⟨by decide, hrun.1⟩, Or.inl (by decide), hrun.2⟩

end Cut

end GemOS
