import GemOS.Process.Isolation
import GemOS.Process.Resume

/-!
# What a child has from its parent

A fork that is not cut short gives the child the pages of the parent's segments below `next_free`, of the stack the
one at the top: frames of CODE and RODATA as they are, read-only, and copies of the others in frames that were not in
use. It gives the child nothing else, and neither a page of another process nor the contents of a frame in use change.
-/

namespace GemOS

open Foundation Memory Kernel AddrSpaces

variable {phys : PhysMem} {apicBase : ApicBase} {wp : Bool} {null : ExecContext}
  {events : List Event} {k k' k₁ : Kernel}
  {i j : Fin maxProcesses} {event : Event} {roots : ℕ → Prop} {intact : Fin maxProcesses → Prop} {pid page addr : ℕ}

/-- The process in slot `j` is the child of the current one, after a fork that led from `k` to `k'`. -/
structure Heir (k k' : Kernel) (j : Fin maxProcesses) : Prop where
  vacant : (k.ctxs (some j)).state = .unused
  ready : (k'.ctxs (some j)).state = .ready
  fresh : (k'.ctxs (some j)).pgd ∉ liveRoots k.ctxs
  roots_eq : liveRoots k'.ctxs = insert (k'.ctxs (some j)).pgd (liveRoots k.ctxs)
  spares : Spares (k'.ctxs (some j)).pgd { k.spaces with live := liveRoots k'.ctxs } k'.spaces
  mirrors : ∀ page ∈ k.forkedPages, Mirrors sharedPages k.cr3 (k'.ctxs (some j)).pgd page k.spaces k'.spaces
  vacant_else : ∀ page, page ∉ k.forkedPages → k'.spaces.page (k'.ctxs (some j)).pgd page = none

theorem forkedPages_nodup (h : ContextOk k.ctx) : k.forkedPages.Nodup := by
  unfold forkedPages
  refine List.Pairwise.imp (fun hlt ↦ Nat.ne_of_lt hlt) ?_
  rw [List.pairwise_map]
  exact copiedPages_pairwise h

theorem Bears.heir {record : ExecContext} (hbears : Bears roots k k' (some j) record) (h : InUser intact roots k i)
    (howned : Owned sharedPages k.spaces) : Heir k k' j := by
  have hrecord : k'.ctxs (some j) = record := by
    rw [hbears.born.ctxs_eq]
    exact Function.update_self ..
  have hslot := h.sound.free_slot (hbears.slot j rfl)
  have hused : record.state ≠ .unused := by
    rw [hbears.state_eq]
    exact ProcessState.noConfusion
  have hfresh : record.pgd ∉ liveRoots k.ctxs := fun hmem ↦ hbears.fresh (h.liveRoots_sub _ hmem)
  have hroots : liveRoots k'.ctxs = insert record.pgd (liveRoots k.ctxs) := by
    rw [hbears.born.ctxs_eq]
    exact liveRoots_insert hslot.1 hslot.2 hused
  have hclones := hbears.clones
  have hspaces : k'.spaces = k'.mem.spaces (insert record.pgd (liveRoots k.ctxs)) :=
    congrArg (fun live ↦ k'.mem.spaces live) hroots
  have hblank : ∀ page, k.spaces.page record.pgd page = none := spaces_page_of_not_mem k.mem hfresh
  rw [← hspaces] at hclones
  have hne : k.cr3 ≠ record.pgd := fun heq ↦ hfresh (heq ▸ h.mem_liveRoots)
  constructor
  case vacant => exact hbears.slot j rfl
  case ready => exact (congrArg ExecContext.state hrecord).trans hbears.state_eq
  case fresh => rwa [hrecord]
  case roots_eq => rwa [hrecord]
  case spares =>
    rw [hrecord, hroots]
    exact hclones.spares
  case mirrors =>
    intro page hpage
    rw [hrecord]
    have hnodup := forkedPages_nodup (k := k) (h.ctx_eq.symm ▸ h.context_ok)
    have husedFrames : ∀ {page backing}, k.spaces.page k.cr3 page = some backing → backing.frame ∈ k.spaces.used :=
      fun hmapped ↦ howned.used ⟨_, hmapped, rfl⟩
    cases hclones.mirrors hne hnodup (fun page _ ↦ hblank page) husedFrames hpage with
    | none unmapped vacant => exact .none unmapped vacant
    | lent mapped common mapped' => exact .lent mapped common mapped'
    | copied mapped apart mapped' fresh taken same => exact .copied mapped apart mapped' fresh taken same
  case vacant_else =>
    intro page hpage
    rw [hrecord, hclones.page_of_notMem hpage]
    exact hblank page

theorem saveRegs_state (k : Kernel) (j : Fin maxProcesses) : (k.saveRegs.ctxs (some j)).state =
    (k.ctxs (some j)).state := by
  unfold saveRegs updateCtx
  simp only [Function.update_apply]
  split
  · rename_i heq
    rw [heq]
    rfl
  · rfl

/-- The registers that `do_fork` saves and returns are none of its matter. -/
theorem Heir.of_saveRegs (h : Heir k.saveRegs k₁ j) (regs : UserRegs) : Heir k { k₁ with regs := regs } j := by
  have hspaces := saveRegs_spaces k
  have hpages : k.saveRegs.forkedPages = k.forkedPages := by
    unfold forkedPages
    rw [saveRegs_ctx]
    rfl
  obtain ⟨hvacant, hready, hfresh, hroots, hspares, hmirrors, helse⟩ := h
  rw [liveRoots_saveRegs] at hfresh hroots
  rw [hspaces] at hspares hmirrors
  rw [hpages] at hmirrors helse
  exact ⟨saveRegs_state k j ▸ hvacant, hready, hfresh, hroots, hspares, hmirrors, helse⟩

/-- The process that runs forks, there is a free slot, and the fork is not cut short. -/
structure Forks (event : Event) (k : Kernel) : Prop where
  mode_eq : k.mode = .user
  asks : Asks event k .fork
  whole : ¬ ForkCut k
  slot : ∃ j, (k.ctxs (some j)).state = .unused
  granted : (fullStep event k).mem.AllocsGranted

/-- A fork is a system call, at which both machines make the same step. -/
theorem Forks.fullStep_eq (h : Forks event k) : fullStep event k = Kernel.step event k := by
  obtain ⟨⟨peek, rfl⟩, -⟩ := h.asks
  exact fullStep_syscall peek k

theorem Forks.granted_step (h : Forks event k) : (Kernel.step event k).mem.AllocsGranted := h.fullStep_eq ▸ h.granted

theorem Forks.exists_heir (hforks : Forks event k) (h : Reachable k) (howned : Owned sharedPages k.spaces) :
    ∃ j, Heir k (Kernel.step event k) j := by
  have hgranted := hforks.granted_step
  obtain ⟨roots, i, h⟩ := (h.inv (hgranted.anti (onward_step event k).le)).inUser hforks.mode_eq
  have hwhole := hforks.whole
  unfold ForkCut at hwhole
  push Not at hwhole
  obtain ⟨pid, k₁, hret⟩ := hwhole
  obtain ⟨⟨peek, rfl⟩, hcall⟩ := hforks.asks
  rw [step_fork h.mode_eq hcall hret] at hgranted ⊢
  have hspec : Spec doFork k.saveRegs _ fun k' ↦ k'.mem.AllocsGranted → Acts (rights (.syscall peek) k) k.saveRegs k' :=
    doFork_bears h.saveRegs (fun hmem ↦ hmem.2 rfl) h.liveRoots_sub (saveRegs_ctx k ▸ rfl) id
  obtain ⟨child, record, hfull, hbears⟩ := hspec.of_ret hret hgranted
  rcases child with _ | j
  · obtain ⟨j, hfree⟩ := hforks.slot
    exact absurd ((saveRegs_state k j).trans hfree) (hfull rfl j)
  · exact ⟨j, (hbears.heir h.saveRegs ((saveRegs_spaces k).symm ▸ howned)).of_saveRegs _⟩

/-- Init forks. -/
theorem forks_init : Forks (.syscall fun _ ↦ 0)
    (fullBoot (fun _ _ ↦ 0) .reset true .zero (launchInit :: (callEvents 10 0 0).take 1)) := by
  refine ⟨?_, ⟨⟨_, rfl⟩, ?_⟩, ?_, ⟨⟨5, by decide⟩, ?_⟩, ?_⟩
  · decide +kernel
  · decide +kernel
  · decide +kernel
  · decide +kernel
  · unfold AllocsGranted
    decide +kernel

theorem clean_init : Clean (Kernel.boot (fun _ _ ↦ 0) .reset true .zero)
    (launchInit :: (callEvents 10 0 0).take 1) := by
  refine .of_data ?_ ?_
  · decide +kernel
  · decide +kernel

/-- A whole fork of a clean run gives the child its pages and spares everything else. -/
theorem fork_heir (hclean : Clean (Kernel.boot phys apicBase wp null) events)
    (hforks : Forks event (fullBoot phys apicBase wp null events)) :
    ∃ j, Heir (fullBoot phys apicBase wp null events) (fullStep event (fullBoot phys apicBase wp null events)) j := by
  obtain ⟨hreach, howned⟩ := hclean.reaches (hforks.granted_step.anti (onward_step event _).le)
  rw [hforks.fullStep_eq]
  exact hforks.exists_heir hreach howned

theorem fork_heir_init :
    ∃ j, Heir (fullBoot (fun _ _ ↦ 0) .reset true .zero (launchInit :: (callEvents 10 0 0).take 1))
      (fullStep (.syscall fun _ ↦ 0)
        (fullBoot (fun _ _ ↦ 0) .reset true .zero (launchInit :: (callEvents 10 0 0).take 1))) j :=
  fork_heir clean_init forks_init

/-- The bytes that user mode reads before and after: all processes find theirs, and the child on the pages of the fork
those of its parent, and none elsewhere. -/
structure SameBytes (k k' : Kernel) (j : Fin maxProcesses) : Prop where
  vacant : (k.ctxs (some j)).state = .unused
  ready : (k'.ctxs (some j)).state = .ready
  others : ∀ i, Live k.ctxs i → ∀ addr,
    k'.mem.phys.userByte (k.ctxs (some i)).pgd addr = k.mem.phys.userByte (k.ctxs (some i)).pgd addr
  child : ∀ addr, k'.mem.phys.userByte (k'.ctxs (some j)).pgd addr =
    if addr / pageSize ∈ k.forkedPages then k.mem.phys.userByte k.cr3 addr else none

section Bytes

variable {roots' : ℕ → Prop} (h : Heir k k' j) (howned : Owned sharedPages k.spaces)
  (hsound : Sound intact roots k.mem k.ctxs k.current) (hsound' : Sound intact roots' k'.mem k'.ctxs k'.current)

include h howned hsound hsound'

theorem Heir.others {root : ℕ} (hroot : root ∈ liveRoots k.ctxs) (addr : ℕ) :
    k'.mem.phys.userByte root addr = k.mem.phys.userByte root addr := by
  have hroot' : root ∈ liveRoots k'.ctxs := by
    rw [h.roots_eq]
    exact Set.mem_insert_of_mem _ hroot
  have hne : root ≠ (k'.ctxs (some j)).pgd := fun heq ↦ h.fresh (heq ▸ hroot)
  have hpage : k'.spaces.page root = k.spaces.page root := h.spares.page_eq root hne
  rw [hsound.userByte_eq hroot, hsound'.userByte_eq hroot', hpage]
  refine Option.map_congr fun backing hmapped ↦ ?_
  have hdata : k'.spaces.data backing.frame = k.spaces.data backing.frame :=
    h.spares.data_eq backing.frame (howned.used ⟨backing, hmapped, rfl⟩)
  rw [hdata]

theorem Heir.child (hparent : k.cr3 ∈ liveRoots k.ctxs) (addr : ℕ) :
    k'.mem.phys.userByte (k'.ctxs (some j)).pgd addr =
      if addr / pageSize ∈ k.forkedPages then k.mem.phys.userByte k.cr3 addr else none := by
  have hchild : (k'.ctxs (some j)).pgd ∈ liveRoots k'.ctxs := by
    rw [h.roots_eq]
    exact Set.mem_insert _ _
  rw [hsound.userByte_eq hparent, hsound'.userByte_eq hchild]
  split
  · rename_i hpage
    cases h.mirrors _ hpage with
    | none unmapped vacant => rw [unmapped, vacant, Option.map_none, Option.map_none]
    | @lent backing mapped common mapped' =>
      have hdata : k'.spaces.data backing.frame = k.spaces.data backing.frame :=
        h.spares.data_eq backing.frame (howned.used ⟨backing, mapped, rfl⟩)
      rw [mapped, mapped', Option.map_some, Option.map_some, hdata]
    | copied mapped apart mapped' fresh taken same => rw [mapped, mapped', Option.map_some, Option.map_some, same]
  · rename_i hpage
    rw [h.vacant_else _ hpage, Option.map_none]

end Bytes

/-- So user mode finds the same bytes in parent and child. -/
theorem fork_userByte (hclean : Clean (Kernel.boot phys apicBase wp null) events)
    (hforks : Forks event (fullBoot phys apicBase wp null events)) :
    ∃ j, SameBytes (fullBoot phys apicBase wp null events)
      (fullStep event (fullBoot phys apicBase wp null events)) j := by
  have hbefore := hforks.granted_step.anti (onward_step event _).le
  obtain ⟨hreach, howned⟩ := hclean.reaches hbefore
  obtain ⟨j, hheir⟩ := hforks.exists_heir hreach howned
  obtain ⟨_, i, huser⟩ := (hreach.inv hbefore).inUser hforks.mode_eq
  obtain ⟨_, hsound'⟩ := ((hreach.step event).inv hforks.granted_step).sound
  rw [hforks.fullStep_eq]
  exact ⟨j, hheir.vacant, hheir.ready, fun i hlive ↦ hheir.others howned huser.sound hsound' hlive.mem_liveRoots,
    hheir.child howned huser.sound hsound' huser.mem_liveRoots⟩

theorem fork_userByte_init :
    ∃ j, SameBytes (fullBoot (fun _ _ ↦ 0) .reset true .zero (launchInit :: (callEvents 10 0 0).take 1))
      (fullStep (.syscall fun _ ↦ 0)
        (fullBoot (fun _ _ ↦ 0) .reset true .zero (launchInit :: (callEvents 10 0 0).take 1))) j :=
  fork_userByte clean_init forks_init

end GemOS
