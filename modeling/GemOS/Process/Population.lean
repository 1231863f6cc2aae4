import GemOS.Process.Fairness
import Mathlib.Data.Finset.Card

/-!
# The number of processes

`stats->num_processes` is raised by the launch of `init` and by `fork`, and lowered by `do_exit`. It is the
number of slots in use exactly in the runs in which no clone makes a context, and in which a fork returns
exactly when it finds a free slot: `do_clone` does not raise the counter, a fork on a full table raises it
without a new process, and a fork that is cut short leaves a context that was never counted.
-/

namespace GemOS

open Foundation Memory Kernel

variable {A : Keeping} {event : Event} {child next : CtxPtr} {k k₁ k' : Kernel} {i : Fin maxProcesses}
  {ctxs ctxs' : CtxPtr → ExecContext}

instance (ctxs : CtxPtr → ExecContext) (i : Fin maxProcesses) : Decidable (Live ctxs i) := by
  unfold Live
  infer_instance

/-- The number of slots in use, the swapper's apart. -/
def liveCount (ctxs : CtxPtr → ExecContext) : ℕ := (Finset.univ.filter fun i ↦ Live ctxs i).card

theorem liveCount_congr (h : ∀ j, Live ctxs' j ↔ Live ctxs j) : liveCount ctxs' = liveCount ctxs := by
  unfold liveCount
  congr 1
  exact Finset.filter_congr fun j _ ↦ h j

/-- One more slot is in use. -/
theorem liveCount_add_one (hi : ¬ Live ctxs i) (h : ∀ j, Live ctxs' j ↔ j = i ∨ Live ctxs j) :
    liveCount ctxs' = liveCount ctxs + 1 := by
  have hinsert : (Finset.univ.filter fun j ↦ Live ctxs' j) = insert i (Finset.univ.filter fun j ↦ Live ctxs j) := by
    ext j
    rw [Finset.mem_insert, Finset.mem_filter, Finset.mem_filter, h j]
    simp
  unfold liveCount
  rw [hinsert]
  apply Finset.card_insert_of_notMem
  rw [Finset.mem_filter]
  exact fun hmem ↦ hi hmem.2

theorem liveCount_le (ctxs : CtxPtr → ExecContext) : liveCount ctxs ≤ 16 := by
  calc
    liveCount ctxs ≤ (Finset.univ : Finset (Fin maxProcesses)).card := Finset.card_le_card (Finset.filter_subset _ _)
    _ = 16 := rfl

theorem liveCount_pos (hi : Live ctxs i) : 0 < liveCount ctxs := by
  apply Finset.card_pos.2
  exact ⟨i, Finset.mem_filter.2 ⟨Finset.mem_univ i, hi⟩⟩

/-- The counter is the number of slots in use. -/
def Counted (k : Kernel) : Prop := k.stats.numProcesses = liveCount k.ctxs

/-- No clone makes a context, and a fork returns exactly when it finds a free slot. -/
def KeepsCount (k : Kernel) (event : Event) : Prop :=
  k.mode = .user →
    (Asks event k .clone → ∀ j, (k.ctxs (some j)).state ≠ .unused) ∧
      (Asks event k .fork → (ForkCut k ↔ ∀ j, (k.ctxs (some j)).state ≠ .unused))

theorem Holds.live_iff (h : Holds A child k k') {j : Fin maxProcesses} (hj : some j ≠ child) :
    Live k'.ctxs j ↔ Live k.ctxs j := by
  unfold Live
  rw [h.state_eq hj]

theorem Holds.liveCount_none (h : Holds A none k k') : liveCount k'.ctxs = liveCount k.ctxs :=
  liveCount_congr fun j ↦ h.live_iff (Option.some_ne_none j)

theorem Holds.liveCount_some (h : Holds A (some i) k k') (hi : i.val ≠ 0) (hvacant : (k.ctxs (some i)).state = .unused)
    (hmade : (k'.ctxs (some i)).state ≠ .unused) : liveCount k'.ctxs = liveCount k.ctxs + 1 := by
  apply liveCount_add_one (fun hlive ↦ hlive.2 hvacant)
  intro j
  by_cases hj : j = i
  · subst hj
    exact ⟨fun _ ↦ Or.inl rfl, fun _ ↦ ⟨hi, hmade⟩⟩
  · rw [h.live_iff fun heq ↦ hj (Option.some.inj heq)]
    exact ⟨Or.inr, fun hcases ↦ hcases.resolve_left hj⟩

/-- A dispatch does not change which slots are in use. -/
theorem Dispatched.live_iff {start : ℕ} (h : Dispatched next k k') (hpicked : Picked k.ctxs start next)
    (j : Fin maxProcesses) : Live k'.ctxs j ↔ Live k.ctxs j := by
  unfold Live
  rw [h.ctxs_eq]
  split
  · rename_i heq
    apply and_congr_right
    intro hj
    rcases hpicked with ⟨i, hi, hserves⟩ | ⟨hswapper, -⟩
    · obtain rfl := Option.some.inj (heq.trans hi)
      have hready : (k.ctxs (some j)).state = .ready := (readyAt_iff _ j).1 hserves.chosen
      exact ⟨fun _ ↦ by rw [hready]; decide, fun _ ↦ ProcessState.noConfusion⟩
    · exact absurd (heq.trans hswapper) (Live.some_ne_swapper hj)
  · rfl

/-- `do_exit` gives up the slot of the current process alone. -/
theorem Table.exit_live (h : Table k) (hmode : k.mode = .user) (hleft : Left event child k k₁) (j : Fin maxProcesses) :
    Live k₁.doExit.ctxs j ↔ Live k₁.retire.ctxs j := by
  rcases doExit_cases k₁ with ⟨-, hdispatched⟩ | ⟨hnone, hcleanup⟩
  · exact hdispatched.live_iff (h.picked_retired hmode hleft) j
  · rw [hcleanup]
    refine ⟨fun hj ↦ ⟨hj.1, fun hunused ↦ hj.2 ?_⟩, fun hj ↦ absurd hj (hnone j)⟩
    rw [doCleanup_ctxs]
    split
    · rfl
    · exact hunused

/-- `do_exit` gives up one slot and lowers the counter. -/
theorem Table.exit_count (h : Table k) (hmode : k.mode = .user) (hleft : Left event child k k₁) :
    liveCount k₁.doExit.ctxs + 1 = liveCount k₁.ctxs ∧
      k₁.doExit.stats.numProcesses = (k.stats.numProcesses + 2 ^ 64 - 1) % 2 ^ 64 := by
  obtain ⟨i, hi, hlive, hctx⟩ := h.current_user hmode
  have hcurrent : k₁.current = some i := hleft.current_eq.trans hi
  have hlive₁ : Live k₁.ctxs i := by
    have hstate := hleft.seat.state_eq
    rw [Kernel.ctx, hcurrent, hctx] at hstate
    exact ⟨hlive.1, by rw [hstate]; exact hlive.2⟩
  have hretire : liveCount k₁.retire.ctxs + 1 = liveCount k₁.ctxs := by
    symm
    apply liveCount_add_one (fun hself ↦ ((retire_live k₁ i).1 hself).1 hcurrent.symm)
    intro j
    rw [retire_live, hcurrent]
    by_cases hj : j = i
    · subst hj
      exact ⟨fun _ ↦ Or.inl rfl, fun _ ↦ hlive₁⟩
    · exact ⟨fun hself ↦ Or.inr ⟨fun heq ↦ hj (Option.some.inj heq), hself⟩, fun hself ↦ (hself.resolve_left hj).2⟩
  have hprocesses : k₁.retire.stats.numProcesses = (k.stats.numProcesses + 2 ^ 64 - 1) % 2 ^ 64 := by
    rw [← hleft.processes_eq]
    rfl
  refine ⟨by rw [liveCount_congr (h.exit_live hmode hleft), hretire], ?_⟩
  rcases doExit_cases k₁ with ⟨-, hdispatched⟩ | ⟨-, hcleanup⟩
  · exact hdispatched.processes_eq.trans hprocesses
  · rw [hcleanup]
    exact hprocesses

theorem count_sub_one {n m : ℕ} (hn : n + 1 ≤ 16) (hm : m = n + 1) : (m + 2 ^ 64 - 1) % 2 ^ 64 = n := by
  omega

/-- Leaving keeps the counter right unless a fork was cut short. -/
theorem Table.leaves_counted (h : Table k) (hmode : k.mode = .user) (hcounted : Counted k)
    (hleaves : Leaves event k k') :
    Counted k' ↔ NoChild event k ∨ ForkCut k ∧ ∀ j, (k.ctxs (some j)).state ≠ .unused := by
  have hchild : ∀ {child k₁}, Left event child k k₁ → (∃ j, child = some j) →
      liveCount k₁.ctxs = liveCount k.ctxs + 1 ∧
        ¬ (NoChild event k ∨ ForkCut k ∧ ∀ j, (k.ctxs (some j)).state ≠ .unused) := by
    rintro child k₁ hleft ⟨j, rfl⟩
    obtain ⟨hasked, -, hspawned, hstate⟩ := hleft.cut j rfl
    obtain ⟨i, -, hlive, hctx⟩ := h.current_user hmode
    have hvacant := hspawned.vacant j rfl
    have hj : j.val ≠ 0 := by
      intro hzero
      apply h.swapper_ok.in_use
      rwa [swapper_eq, show (⟨0, by decide⟩ : Fin maxProcesses) = j from Fin.ext hzero.symm]
    refine ⟨hleft.liveCount_some hj hvacant ?_, ?_⟩
    · rw [hstate, hctx]
      exact hlive.2
    · rintro (hnone | ⟨-, hfull⟩)
      · exact hnone.no_fork hasked
      · exact hfull j hvacant
  have hle := liveCount_le k.ctxs
  unfold Counted at *
  cases hleaves with
  | @exit k₁ child hleft =>
    obtain ⟨hcount, hprocesses⟩ := h.exit_count hmode hleft
    cases child with
    | none =>
      have hsame := hleft.liveCount_none
      have hnum : k₁.doExit.stats.numProcesses = liveCount k₁.doExit.ctxs := by
        rw [hprocesses]
        exact count_sub_one (by omega) (by omega)
      exact ⟨fun _ ↦ hleft.full rfl, fun _ ↦ hnum⟩
    | some j =>
      obtain ⟨hmore, hnot⟩ := hchild hleft ⟨j, rfl⟩
      obtain ⟨i, -, hlive, -⟩ := h.current_user hmode
      have hpos := liveCount_pos hlive
      refine ⟨fun heq ↦ ?_, fun hcases ↦ absurd hcases hnot⟩
      rw [hprocesses] at heq
      omega
  | @stop _ child stopped hleft =>
    have hprocesses : k'.stats.numProcesses = k.stats.numProcesses := hleft.processes_eq
    cases child with
    | none =>
      have hsame : liveCount k'.ctxs = liveCount k.ctxs := hleft.liveCount_none
      exact ⟨fun _ ↦ hleft.full rfl, fun _ ↦ by rw [hprocesses, hsame, hcounted]⟩
    | some j =>
      obtain ⟨hmore, hnot⟩ := hchild hleft ⟨j, rfl⟩
      have hmore' : liveCount k'.ctxs = liveCount k.ctxs + 1 := hmore
      refine ⟨fun heq ↦ ?_, fun hcases ↦ absurd hcases hnot⟩
      omega

theorem NoChild.keepsCount (h : NoChild event k) : KeepsCount k event := fun _ ↦
  ⟨fun hasks ↦ absurd hasks h.no_clone, fun hasks ↦ absurd hasks h.no_fork⟩

theorem Table.vacant_ne_zero (h : Table k) (hvacant : (k.ctxs (some i)).state = .unused) : i.val ≠ 0 := by
  intro hzero
  apply h.swapper_ok.in_use
  rwa [swapper_eq, show (⟨0, by decide⟩ : Fin maxProcesses) = i from Fin.ext hzero.symm]

/-- The condition, for an event with which the current context leaves. -/
theorem Left.keepsCount_iff (h : Left event child k k₁) (hmode : k.mode = .user) :
    NoChild event k ∨ ForkCut k ∧ (∀ j, (k.ctxs (some j)).state ≠ .unused) ↔ KeepsCount k event := by
  constructor
  · rintro (hnone | ⟨hcut, hfull⟩)
    · exact hnone.keepsCount
    · exact fun _ ↦ ⟨fun _ ↦ hfull, fun _ ↦ iff_of_true hcut hfull⟩
  · intro hkeeps
    by_cases hasks : Asks event k .fork
    · have hcut : ForkCut k := by
        cases child with
        | none => exact ((h.full rfl).resolve_left fun hnone ↦ hnone.no_fork hasks).1
        | some j => exact (h.cut j rfl).2.1
      exact Or.inr ⟨hcut, ((hkeeps hmode).2 hasks).1 hcut⟩
    · exact Or.inl ⟨hasks, h.no_clone⟩

theorem readied_live (hbusy : k.ctx.state = .ready ∨ k.ctx.state = .running) (j : Fin maxProcesses) :
    Live k.readied.ctxs j ↔ Live k.ctxs j := by
  unfold Live
  rw [readied_ctxs]
  split
  · rename_i heq
    rw [heq]
    apply and_congr_right
    intro _
    refine ⟨fun _ hunused ↦ ?_, fun _ ↦ ProcessState.noConfusion⟩
    rcases hbusy with hstate | hstate
    all_goals exact ProcessState.noConfusion (hstate.symm.trans hunused)
  · rfl

theorem preempted_live (k : Kernel) (j : Fin maxProcesses) : Live k.preempted.ctxs j ↔ Live k.readied.ctxs j := by
  unfold Live
  rw [preempted_ctxs, readied_ctxs]
  split <;> rfl

/-- The end of a tick does not change which slots are in use. -/
theorem Table.reschedule_live (h : Table k) (hmode : k.mode ≠ .shell) (j : Fin maxProcesses) :
    Live k.reschedule.ctxs j ↔ Live k.ctxs j := by
  have hplaced := h.placed hmode
  have hreadied := readied_live hplaced.busy j
  rcases reschedule_cases hplaced.cr3_eq with ⟨-, hstay⟩ | ⟨-, hdispatched⟩
  · rw [hstay]
    exact hreadied
  · exact (hdispatched.live_iff (h.picked_preempted hmode) j).trans ((preempted_live k j).trans hreadied)

theorem Table.reschedule_count (h : Table k) (hmode : k.mode ≠ .shell) :
    liveCount k.reschedule.ctxs = liveCount k.ctxs ∧ k.reschedule.stats.numProcesses = k.stats.numProcesses := by
  refine ⟨liveCount_congr (h.reschedule_live hmode), ?_⟩
  rcases reschedule_cases (h.placed hmode).cr3_eq with ⟨-, hstay⟩ | ⟨-, hdispatched⟩
  · rw [hstay]
    rfl
  · rw [hdispatched.processes_eq]
    rfl

/-- A process that goes to sleep stays in use, and so do the others. -/
theorem Table.sleep_live (h : Table k) (hmode : k.mode = .user) (j : Fin maxProcesses) :
    Live (k.saveRegs.doSleep k.regs.rsi).ctxs j ↔ Live k.ctxs j := by
  apply ((dispatched_doSleep k).live_iff (h.picked_slept hmode) j).trans
  obtain ⟨i, hi, hlive, -⟩ := h.current_user hmode
  unfold Live
  rw [slept_ctxs]
  split
  · rename_i heq
    obtain rfl := Option.some.inj (heq.trans hi)
    exact and_congr_right fun _ ↦ iff_of_true ProcessState.noConfusion hlive.2
  · rfl

/-- An event of a user process keeps the counter right exactly under the condition. -/
theorem Table.turn_counted (h : Table k) (hmode : k.mode = .user) (hcounted : Counted k)
    (hturn : Turn event k k') : Counted k' ↔ KeepsCount k event := by
  have hle := liveCount_le k.ctxs
  cases hturn with
  | work no_child works =>
    refine iff_of_true ?_ no_child.keepsCount
    unfold Counted at *
    rw [works.processes_eq, works.liveCount_none, hcounted]
  | @fork _ child asked returned holds spawned _ _ processes_eq ready =>
    have hkeeps : KeepsCount k event ↔ ∃ j, (k.ctxs (some j)).state = .unused := by
      refine ⟨fun hkeeps ↦ ?_, fun ⟨j, hj⟩ _ ↦ ⟨fun hasks ↦ ?_, fun _ ↦ ?_⟩⟩
      · by_contra hnone
        push Not at hnone
        exact returned (((hkeeps hmode).2 asked).2 hnone)
      · exact Syscall.noConfusion (asked.inj hasks)
      · exact iff_of_false returned fun hfull ↦ hfull j hj
    rw [hkeeps]
    unfold Counted at *
    rw [processes_eq, hcounted]
    cases child with
    | none =>
      rw [holds.liveCount_none]
      exact iff_of_false (by omega) fun ⟨j, hj⟩ ↦ spawned.full rfl j hj
    | some j =>
      have hvacant := spawned.vacant j rfl
      rw [holds.liveCount_some (h.vacant_ne_zero hvacant) hvacant (by rw [ready j rfl]; decide)]
      exact iff_of_true (by omega) ⟨j, hvacant⟩
  | @clone _ child asked holds spawned _ _ processes_eq ready =>
    have hkeeps : KeepsCount k event ↔ ∀ j, (k.ctxs (some j)).state ≠ .unused := by
      refine ⟨fun hkeeps ↦ (hkeeps hmode).1 asked, fun hfull _ ↦ ⟨fun _ ↦ hfull, fun hasks ↦ ?_⟩⟩
      exact Syscall.noConfusion (asked.inj hasks)
    rw [hkeeps]
    unfold Counted at *
    rw [processes_eq, hcounted]
    cases child with
    | none =>
      rw [holds.liveCount_none]
      exact iff_of_true rfl (spawned.full rfl)
    | some j =>
      have hvacant := spawned.vacant j rfl
      rw [holds.liveCount_some (h.vacant_ne_zero hvacant) hvacant (by rw [ready j rfl]; decide)]
      exact iff_of_false (by omega) fun hfull ↦ hfull j hvacant
  | sleep asked =>
    refine iff_of_true ?_ fun _ ↦ ⟨fun hasks ↦ ?_, fun hasks ↦ ?_⟩
    · have hstats : k.slept.stats.numProcesses = k.stats.numProcesses := rfl
      unfold Counted at *
      rw [(dispatched_doSleep k).processes_eq, liveCount_congr (h.sleep_live hmode), hstats, hcounted]
    · exact Syscall.noConfusion (asked.inj hasks)
    · exact Syscall.noConfusion (asked.inj hasks)
  | leave leaves =>
    rw [h.leaves_counted hmode hcounted leaves]
    cases leaves with
    | exit left => exact left.keepsCount_iff hmode
    | stop _ left => exact left.keepsCount_iff hmode

theorem accountSleep_liveCount (k : Kernel) : liveCount k.accountSleep.ctxs = liveCount k.ctxs :=
  liveCount_congr (accountSleep_live k)

/-- Every event keeps the counter right exactly under the condition. -/
theorem Table.step_counted (h : Table k) (event : Event) (hcounted : Counted k) :
    Counted (Kernel.step event k) ↔ KeepsCount k event := by
  have hmoves := h.moves event
  generalize Kernel.step event k = k' at *
  cases hmoves with
  | rest no_user => exact iff_of_true hcounted fun hmode ↦ absurd hmode no_user
  | @launch _ i record mode slot launched =>
    have hempty := (h.empty mode).2
    have hcount : liveCount k'.ctxs = liveCount k.ctxs + 1 := by
      apply liveCount_add_one (hempty i)
      intro j
      unfold Live
      rw [launched.ctxs_eq]
      by_cases hj : j = i
      · subst hj
        rw [Function.update_self, launched.state_eq]
        exact iff_of_true ⟨slot, by decide⟩ (Or.inl rfl)
      · rw [Function.update_of_ne fun heq ↦ hj (Option.some.inj heq)]
        exact ⟨Or.inr, fun hcases ↦ hcases.resolve_left hj⟩
    refine iff_of_true ?_ fun huser ↦ Mode.noConfusion (mode.symm.trans huser)
    have hle := liveCount_le k.ctxs
    unfold Counted at *
    rw [launched.processes_eq, hcount, hcounted]
    omega
  | turn mode _ turn => exact h.turn_counted mode hcounted turn
  | leave mode tick _ leaves =>
    obtain ⟨htable, -⟩ := h.accountSleep (by rw [mode]; decide)
    have hcounted' : Counted k.accountSleep := hcounted.trans (accountSleep_liveCount k).symm
    have hnone : ∀ k, NoChild event k := fun k ↦ noChild_of_ne (by rw [tick]; exact fun _ ↦ Event.noConfusion)
    refine iff_of_true ?_ (hnone k).keepsCount
    exact (htable.leaves_counted mode hcounted' leaves).2 (Or.inl (tick ▸ hnone _))
  | @tick k₁ mode tick _ works swapper =>
    obtain ⟨htable, hmode₁⟩ := h.ticked mode works swapper
    have hshell : k₁.mode ≠ .shell := by rcases hmode₁ with heq | heq <;> rw [heq] <;> decide
    obtain ⟨hcount, hprocesses⟩ := htable.reschedule_count hshell
    have hnone : NoChild event k := noChild_of_ne (by rw [tick]; exact fun _ ↦ Event.noConfusion)
    refine iff_of_true ?_ hnone.keepsCount
    have hstats : k.accountSleep.stats.numProcesses = k.stats.numProcesses := rfl
    unfold Counted at *
    rw [hprocesses, hcount, works.processes_eq, works.liveCount_none, accountSleep_liveCount, hstats, hcounted]

end GemOS
