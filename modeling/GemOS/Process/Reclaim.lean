import GemOS.Process.Coherence
import GemOS.Process.Heredity

/-!
# What is never given back

As long as one process lives, the frames of the processes that end stay marked: only a shrink gives a frame of the
user region back. Each fork takes one at least, the copy of the top page of the stack, so that a run without a shrink
has no more forks than there are free frames at its start, however many of the children have ended.
-/

namespace GemOS

open Foundation Memory Kernel AddrSpaces

variable {events : List Event} {k : Kernel} {event : Event} {root : ℕ}

/-- The frames of the user region that are in use. -/
def Kernel.usedFrames (k : Kernel) : Finset ℕ :=
  (Finset.Ico Region.user.base (Region.user.base + Region.user.frames)).filter fun pfn ↦
    k.mem.allocated .user pfn = true

theorem mem_usedFrames {pfn : ℕ} : pfn ∈ k.usedFrames ↔ Region.user.Contains pfn ∧ pfn ∈ k.spaces.used :=
  Finset.mem_filter.trans (and_congr_left' Finset.mem_Ico)

theorem card_usedFrames_le (k : Kernel) : k.usedFrames.card ≤ Region.user.frames := by
  calc k.usedFrames.card
    _ ≤ (Finset.Ico Region.user.base (Region.user.base + Region.user.frames)).card := Finset.card_filter_le _ _
    _ = Region.user.frames := by rw [Nat.card_Ico, Nat.add_sub_cancel_left]

/-- A process has the page table, and the event is no shrink. -/
def GivesNothing (root : ℕ) (k : Kernel) (event : Event) : Prop := root ∈ liveRoots k.ctxs ∧ ¬ Asks event k .shrink

instance (root : ℕ) (k : Kernel) (event : Event) : Decidable (GivesNothing root k event) := by
  unfold GivesNothing
  infer_instance

/-- The process that runs forks, there is a free slot, and the fork is not cut short. -/
def ForksWhole (event : Event) (k : Kernel) : Prop :=
  k.mode = .user ∧ Asks event k .fork ∧ ¬ ForkCut k ∧ ∃ j : Fin maxProcesses, (k.ctxs (some j)).state = .unused

instance (event : Event) (k : Kernel) : Decidable (ForksWhole event k) := by
  unfold ForksWhole
  infer_instance

theorem usedFrames_sub (h : Reachable k) (hgives : GivesNothing root k event)
    (hgranted : (Kernel.step event k).mem.AllocsGranted) (hlive : root ∈ liveRoots (Kernel.step event k).ctxs) :
    k.usedFrames ⊆ (Kernel.step event k).usedFrames := by
  have hacts := acts_step (h.inv (hgranted.anti (onward_step event k).le)) event hgranted
  have hnone : (rights event k).given = ∅ := Set.eq_empty_iff_forall_notMem.2 fun page hgiven ↦ hgives.2 hgiven.1
  intro pfn hpfn
  obtain ⟨hcontains, hused⟩ := mem_usedFrames.1 hpfn
  exact mem_usedFrames.2 ⟨hcontains, Evolves.used_sub hacts hnone hgives.1 hlive hused⟩

/-- A fork takes a frame for the top of the stack. -/
theorem exists_forked (h : Reachable k) (howned : Owned sharedPages k.spaces) (hforks : ForksWhole event k)
    (hgranted : (Kernel.step event k).mem.AllocsGranted) :
    ∃ pfn ∈ (Kernel.step event k).usedFrames, pfn ∉ k.usedFrames := by
  obtain ⟨hmode, hasks, hwhole, hslot⟩ := hforks
  have hsame : fullStep event k = Kernel.step event k := by
    obtain ⟨⟨peek, rfl⟩, -⟩ := hasks
    exact fullStep_syscall peek k
  have hforks : Forks event k := ⟨hmode, hasks, hwhole, hslot, hsame ▸ hgranted⟩
  obtain ⟨j, hheir⟩ := hforks.exists_heir h howned
  obtain ⟨_, i, huser⟩ := (h.inv (hgranted.anti (onward_step event k).le)).inUser hmode
  obtain ⟨_, hsound'⟩ := ((h.step event).inv hgranted).sound
  have hpage : stackTopPage / pageSize ∈ k.forkedPages :=
    List.mem_map_of_mem (List.mem_append_right _ (List.mem_singleton_self stackTopPage))
  have hmapped : k.spaces.page k.cr3 (stackTopPage / pageSize) ≠ none := by
    have hentry := huser.sound.anchors i huser.live huser.mapped stackTopPage (Or.inr rfl)
    rw [← huser.cr3_eq] at hentry
    have hspace : k.spaces.page k.cr3 (stackTopPage / pageSize) = _ := spaces_page k.mem huser.mem_liveRoots _
    rw [hspace, ne_eq, huser.sound.tables.userPage_eq_none_iff huser.root (by decide)]
    exact hentry
  cases hheir.mirrors _ hpage with
  | none unmapped vacant => exact absurd unmapped hmapped
  | lent mapped common mapped' =>
    exact absurd common (by change ¬ pageAddr (stackTopPage / pageSize) < dataStart; decide)
  | @copied _ backing mapped apart mapped' fresh taken same =>
    refine ⟨backing.frame, mem_usedFrames.2 ⟨?_, taken⟩, fun hmem ↦ fresh (mem_usedFrames.1 hmem).2⟩
    have hroot : (((Kernel.step event k).ctxs (some j)).pgd) ∈ liveRoots (Kernel.step event k).ctxs := by
      rw [hheir.roots_eq]
      exact Set.mem_insert _ _
    have hspace := (spaces_page (Kernel.step event k).mem hroot (stackTopPage / pageSize)).symm.trans mapped'
    rcases hsound'.tables.userPage_cases (hsound'.liveRoots_sub _ hroot) (stackTopPage / pageSize) with
      ⟨-, hnone⟩ | ⟨pfn, _, -, husable, -, -, hsome⟩
    · rw [hnone] at hspace
      exact absurd hspace (by simp)
    · rw [hsome] at hspace
      exact congrArg Backing.frame (Option.some.inj hspace) ▸ husable.contains

/-- What was in use stays so, and with each fork there is more of it. -/
theorem card_usedFrames_step (h : Reachable k) (howned : Owned sharedPages k.spaces)
    (hgives : GivesNothing root k event)
    (hgranted : (Kernel.step event k).mem.AllocsGranted) (hlive : root ∈ liveRoots (Kernel.step event k).ctxs) :
    (if ForksWhole event k then 1 else 0) + k.usedFrames.card ≤ (Kernel.step event k).usedFrames.card := by
  have hsub := usedFrames_sub h hgives hgranted hlive
  split
  · rename_i hforks
    obtain ⟨pfn, hmem, hfresh⟩ := exists_forked h howned hforks hgranted
    have hlt := Finset.card_lt_card (Finset.ssubset_iff_subset_ne.2 ⟨hsub, fun heq ↦ hfresh (heq ▸ hmem)⟩)
    omega
  · have hle := Finset.card_le_card hsub
    omega

/-- By induction on the events. -/
theorem usedFrames_run (h : Reachable k) (howned : Owned sharedPages k.spaces)
    (hgives : Along Kernel.step (GivesNothing root) k events) (hgranted : (run Kernel.step k events).mem.AllocsGranted)
    (hlive : root ∈ liveRoots (run Kernel.step k events).ctxs) :
    k.usedFrames ⊆ (run Kernel.step k events).usedFrames ∧
      countAlong Kernel.step ForksWhole k events + k.usedFrames.card ≤ (run Kernel.step k events).usedFrames.card := by
  induction events generalizing k with
  | nil => exact ⟨subset_rfl, (Nat.zero_add _).le⟩
  | cons event events ih =>
    obtain ⟨hhere, hrest⟩ := along_cons_iff.1 hgives
    have hgranted₁ : (Kernel.step event k).mem.AllocsGranted := hgranted.anti (onward_run _ events).le
    have hlive₁ := live_next (hrest.mono fun _ _ ↦ And.left) hlive
    have htidy : GivesOwn event k := fun hasks ↦ absurd hasks hhere.2
    obtain ⟨hsub, hcount⟩ := ih (h.step event) (owned_step h howned htidy hgranted₁) hrest hgranted hlive
    have hstep := card_usedFrames_step h howned hhere hgranted₁ hlive₁
    refine ⟨(usedFrames_sub h hhere hgranted₁ hlive₁).trans hsub, ?_⟩
    rw [countAlong]
    change _ ≤ (run Kernel.step (Kernel.step event k) events).usedFrames.card
    omega

/-- While a process keeps its page table and none shrinks a segment, no frame of the user region is given back, and
the forks are not more than the frames that are free at the start. -/
theorem forks_le_free (h : CleanlyReachable k) (hsafe : NoStrayStores k events)
    (hgives : Along fullStep (GivesNothing root) k events) (hgranted : (run fullStep k events).mem.AllocsGranted)
    (hlive : root ∈ liveRoots (run fullStep k events).ctxs) :
    k.usedFrames ⊆ (run fullStep k events).usedFrames ∧
      countAlong fullStep ForksWhole k events + k.usedFrames.card ≤ Region.user.frames := by
  rw [hsafe.run_eq] at hgranted hlive ⊢
  rw [hsafe.countAlong_eq]
  have howned := h.owned (hgranted.anti (onward_run k events).le)
  obtain ⟨hsub, hcount⟩ := usedFrames_run h.reachable howned (hsafe.along_iff.1 hgives) hgranted hlive
  exact ⟨hsub, hcount.trans (card_usedFrames_le _)⟩

/-- Init forks, the child ends, and init forks again. -/
theorem forks_le_free_init :
    initProcess.usedFrames ⊆
        (run fullStep initProcess (callEvents 10 0 0 ++ .tick :: callEvents 1 0 0 ++ callEvents 10 0 0)).usedFrames ∧
      countAlong fullStep ForksWhole initProcess (callEvents 10 0 0 ++ .tick :: callEvents 1 0 0 ++ callEvents 10 0 0) +
        initProcess.usedFrames.card ≤ Region.user.frames := by
  have hgives : Along fullStep (GivesNothing initProcess.cr3) initProcess
      (callEvents 10 0 0 ++ .tick :: callEvents 1 0 0 ++ callEvents 10 0 0) := by decide +kernel
  refine forks_le_free initProcess_clean ?_ hgives ?_ ?_
  · decide +kernel
  · unfold AllocsGranted
    decide +kernel
  · decide +kernel

end GemOS
