import GemOS.Process.Population

/-!
# The running context

The context that has the processor is the only one in the state `RUNNING`, exactly in the runs in which each
tick finds another process to switch to and no fork is cut short. The tick marks the interrupted context
`READY` before it looks for the next one, and returns without putting the state back when it finds none; a
fork that is cut short leaves a copy of the record of its parent, in its state.
-/

namespace GemOS

open Foundation Memory Kernel

variable {A : Keeping} {event : Event} {child next : CtxPtr} {k k₁ k' : Kernel} {i : Fin maxProcesses}

/-- The current context is in the table, and it is the one that runs. -/
def RunsCurrent (k : Kernel) : Prop :=
  ∃ i, k.current = some i ∧ ∀ j, (k.ctxs (some j)).state = .running ↔ j = i

/-- Another process is ready, or wakes up at this tick. -/
def OtherReady (k : Kernel) : Prop :=
  ∃ i : Fin maxProcesses, i.val ≠ 0 ∧ k.current ≠ some i ∧
    ((k.ctxs (some i)).state = .ready ∨ (k.ctxs (some i)).state = .waiting ∧ (k.ctxs (some i)).ticksToSleep = 1)

/-- A tick finds another process, unless the delivery of the alarm ends the current one, and a fork that
finds a free slot is not cut short. -/
def KeepsRunning (k : Kernel) (event : Event) : Prop :=
  (Ticks event k → OtherReady k ∨ AlarmCut k) ∧
    (k.mode = .user → Asks event k .fork → ForkCut k → ∀ j, (k.ctxs (some j)).state ≠ .unused)

theorem Dispatched.none_running_iff (h : Dispatched (some i) k k') :
    RunsCurrent k' ↔ ∀ j, j ≠ i → (k.ctxs (some j)).state ≠ .running := by
  have hother : ∀ j, j ≠ i → k'.ctxs (some j) = k.ctxs (some j) := fun j hj ↦ by
    rw [h.ctxs_eq, if_neg fun heq ↦ hj (Option.some.inj heq)]
  constructor
  · rintro ⟨i', hi', hruns⟩ j hj hrunning
    obtain rfl := Option.some.inj (h.current_eq.symm.trans hi')
    exact hj ((hruns j).1 (by rw [hother j hj]; exact hrunning))
  · intro hidle
    refine ⟨i, h.current_eq, fun j ↦ ⟨fun hrunning ↦ ?_, ?_⟩⟩
    · by_contra hj
      rw [hother j hj] at hrunning
      exact hidle j hj hrunning
    · rintro rfl
      rw [h.ctxs_eq, if_pos rfl]
      rfl

/-- Whom a scan picks is in the table, and ready unless it is the swapper. -/
theorem Picked.some_ready {ctxs : CtxPtr → ExecContext} {start : ℕ} (h : Picked ctxs start next) :
    ∃ i : Fin maxProcesses, next = some i ∧ (i.val ≠ 0 → (ctxs (some i)).state = .ready) := by
  rcases h with ⟨i, hi, hserves⟩ | ⟨hswapper, -⟩
  · exact ⟨i, hi, fun _ ↦ (readyAt_iff _ i).1 hserves.chosen⟩
  · exact ⟨⟨0, by decide⟩, hswapper.trans swapper_eq, fun hzero ↦ absurd rfl hzero⟩

/-- Work of the current context keeps it the only one that runs, unless it makes another one. -/
theorem Holds.runs_iff (h : Holds A child k k') (hruns : RunsCurrent k)
    (hvacant : ∀ j, child = some j → (k.ctxs (some j)).state = .unused) :
    RunsCurrent k' ↔ ∀ j, child = some j → (k'.ctxs (some j)).state ≠ .running := by
  obtain ⟨i, hi, hruns⟩ := hruns
  have hchild : ∀ j, child = some j → j ≠ i := by
    rintro j hj rfl
    exact ProcessState.noConfusion ((hvacant j hj).symm.trans ((hruns j).2 rfl))
  constructor
  · rintro ⟨i', hi', hruns'⟩ j hj hrunning
    obtain rfl := Option.some.inj (hi.symm.trans (h.current_eq.symm.trans hi'))
    exact hchild j hj ((hruns' j).1 hrunning)
  · intro hmade
    refine ⟨i, h.current_eq.trans hi, fun j ↦ ?_⟩
    by_cases hj : child = some j
    · exact iff_of_false (hmade j hj) (hchild j hj)
    · rw [h.state_eq (Ne.symm hj)]
      exact hruns j

/-- Leaving dispatches the only context that runs, unless a fork was cut short. -/
theorem Table.leaves_runsCurrent (h : Table k) (hmode : k.mode = .user) (hruns : RunsCurrent k)
    (hleaves : Leaves event k k') :
    (k'.mode ≠ .shell → RunsCurrent k') ↔
      NoChild event k ∨ ForkCut k ∧ ∀ j, (k.ctxs (some j)).state ≠ .unused := by
  obtain ⟨i, hi, hlive, hctx⟩ := h.current_user hmode
  have hrunning : k.ctx.state = .running := by
    obtain ⟨i', hi', hiff⟩ := hruns
    obtain rfl := Option.some.inj (hi.symm.trans hi')
    rw [hctx]
    exact (hiff i).2 rfl
  have hnot : ∀ {child k₁}, Left event child k k₁ → ∀ j, child = some j →
      ¬ (NoChild event k ∨ ForkCut k ∧ ∀ j, (k.ctxs (some j)).state ≠ .unused) := by
    rintro child k₁ hleft j hj (hnone | ⟨-, hfull⟩)
    · exact hnone.no_fork (hleft.cut j hj).1
    · exact hfull j ((hleft.cut j hj).2.2.1.vacant j hj)
  have hvacant : ∀ {child k₁}, Left event child k k₁ → ∀ j, child = some j →
      (k.ctxs (some j)).state = .unused := fun hleft j hj ↦ (hleft.cut j hj).2.2.1.vacant j hj
  cases hleaves with
  | @exit k₁ child hleft =>
    have hiff := hleft.runs_iff hruns (hvacant hleft)
    have hcurrent : k₁.current = some i := hleft.current_eq.trans hi
    cases child with
    | none =>
      refine iff_of_true (fun hshell ↦ ?_) (hleft.full rfl)
      obtain ⟨i', hi', hruns₁⟩ := hiff.2 fun j hj ↦ absurd hj.symm (Option.some_ne_none j)
      rcases doExit_cases k₁ with ⟨-, hdispatched⟩ | ⟨-, hcleanup⟩
      · obtain ⟨next, hnext, -⟩ := (h.picked_retired hmode hleft).some_ready
        rw [hnext] at hdispatched
        rw [hdispatched.none_running_iff]
        intro j _
        rw [retire_ctxs]
        split
        · exact ProcessState.noConfusion
        · rename_i hne
          intro hrunning₁
          exact hne (((hruns₁ j).1 hrunning₁) ▸ hi'.symm)
      · rw [hcleanup] at hshell
        exact absurd rfl hshell
    | some j =>
      refine iff_of_false (fun hafter ↦ ?_) (hnot hleft j rfl)
      have hstate : (k₁.ctxs (some j)).state = .running := (hleft.cut j rfl).2.2.2.trans hrunning
      have hji : j ≠ i := by
        rintro rfl
        exact hlive.2 (hvacant hleft j rfl)
      have hzero : j.val ≠ 0 := h.vacant_ne_zero (hvacant hleft j rfl)
      have hretired : (k₁.retire.ctxs (some j)).state = .running := by
        rw [retire_ctxs, if_neg fun heq ↦ hji (Option.some.inj (heq.trans hcurrent)), hstate]
      rcases doExit_cases k₁ with ⟨-, hdispatched⟩ | ⟨hnone, -⟩
      · obtain ⟨next, hnext, hready⟩ := (h.picked_retired hmode hleft).some_ready
        have hruns' := hafter hdispatched.mode_ne_shell
        rw [hnext] at hdispatched
        refine hdispatched.none_running_iff.1 hruns' j ?_ hretired
        rintro rfl
        exact ProcessState.noConfusion (hretired.symm.trans (hready hzero))
      · exact hnone j ⟨hzero, by rw [hretired]; decide⟩
  | @stop _ child stopped hleft =>
    have hiff : RunsCurrent k' ↔ ∀ j, child = some j → (k'.ctxs (some j)).state ≠ .running :=
      hleft.runs_iff hruns (hvacant hleft)
    have hshell : k'.mode ≠ .shell := by
      intro hshell
      rw [hshell] at stopped
      exact stopped
    cases child with
    | none =>
      exact iff_of_true (fun _ ↦ hiff.2 fun j hj ↦ absurd hj.symm (Option.some_ne_none j)) (hleft.full rfl)
    | some j =>
      refine iff_of_false (fun hafter ↦ ?_) (hnot hleft j rfl)
      exact hiff.1 (hafter hshell) j rfl ((hleft.cut j rfl).2.2.2.trans hrunning)

/-- The scan comes back to the interrupted context exactly when no other process is ready. -/
theorem Table.pick_current_iff (h : Table k) (hmode : k.mode ≠ .shell) :
    pickNextContext k.readied.ctxs k.current = k.current ↔
      ∀ j : Fin maxProcesses, j.val ≠ 0 → k.current ≠ some j → (k.ctxs (some j)).state ≠ .ready := by
  obtain ⟨i, hi, hpid⟩ := h.current_pid hmode
  have hother : ∀ j, k.current ≠ some j → (k.readied.ctxs (some j)).state = (k.ctxs (some j)).state := fun j hj ↦ by
    rw [readied_ctxs, if_neg hj.symm]
  have hbounds : ∀ {j : Fin maxProcesses}, j.val ≠ 0 → 1 ≤ j.val ∧ j.val ≤ 15 := fun {j} hj ↦
    ⟨Nat.one_le_iff_ne_zero.2 hj, Nat.le_of_lt_succ j.isLt⟩
  have hle : i.val ≤ 15 := Nat.le_of_lt_succ i.isLt
  rcases h.picked_readied hmode with ⟨j, hj, hserves⟩ | ⟨hswapper, hnone⟩
  · have hzero : j.val ≠ 0 := Nat.one_le_iff_ne_zero.1 hserves.mem.1
    rw [hpid] at hserves
    rw [hj]
    constructor
    · intro hsame l hl hlne hready
      obtain rfl := Option.some.inj (hsame.trans hi)
      have hfirst := hserves.first l (hbounds hl) ((readyAt_iff _ l).2 (by rw [hother l hlne, hready]))
      have hself := (gap_eq_pred hle (hbounds hzero)).2 (Or.inl rfl)
      have hlt := gap_lt hle (hbounds hl)
      have hlast := (gap_eq_pred hle (hbounds hl)).1 (by omega)
      refine hlne (hi.trans (congrArg some (Fin.ext ?_)))
      omega
    · intro hothers
      by_contra hne
      have hready := (readyAt_iff _ j).1 hserves.chosen
      rw [hother j (Ne.symm hne)] at hready
      exact hothers j hzero (Ne.symm hne) hready
  · rw [hswapper]
    refine iff_of_true ?_ fun j hj hne hready ↦ ?_
    · by_contra hne
      have hzero : i.val ≠ 0 := by
        intro hzero
        apply hne
        rw [hi, swapper_eq]
        exact congrArg some (Fin.ext hzero.symm)
      apply hnone i (hbounds hzero)
      rw [readyAt_iff, readied_ctxs, if_pos hi.symm]
      rfl
    · apply hnone j (hbounds hj)
      rw [readyAt_iff, hother j hne, hready]

theorem countSleep_state_running (ctx : ExecContext) : ctx.countSleep.state = .running ↔ ctx.state = .running := by
  rcases (countSleep_eq ctx).2.2.2.2.2.2 with hsame | ⟨hwaiting, hready⟩
  · rw [hsame]
  · rw [hwaiting, hready]
    simp

theorem countSleep_state_ready (ctx : ExecContext) :
    ctx.countSleep.state = .ready ↔ ctx.state = .ready ∨ ctx.state = .waiting ∧ ctx.ticksToSleep = 1 := by
  unfold ExecContext.countSleep
  split_ifs with hwaits hlast
  · exact iff_of_true rfl (Or.inr ⟨hwaits.1, hlast⟩)
  · refine iff_of_false ?_ ?_
    · change ctx.state ≠ .ready
      rw [hwaits.1]
      decide
    · rintro (hready | ⟨-, hone⟩)
      · exact ProcessState.noConfusion (hready.symm.trans hwaits.1)
      · exact hlast hone
  · refine ⟨Or.inl, fun hcases ↦ hcases.resolve_right fun ⟨hwaiting, hone⟩ ↦ hwaits ⟨hwaiting, ?_⟩⟩
    rw [hone]
    exact Nat.one_pos

/-- The end of a tick dispatches the only context that runs exactly when another process is ready. -/
theorem Table.reschedule_runsCurrent (h : Table k) (hmode : k.mode ≠ .shell) (hruns : RunsCurrent k) :
    (k.reschedule.mode ≠ .shell → RunsCurrent k.reschedule) ↔
      ∃ j : Fin maxProcesses, j.val ≠ 0 ∧ k.current ≠ some j ∧ (k.ctxs (some j)).state = .ready := by
  obtain ⟨i, hi, hruns⟩ := hruns
  have hpick := h.pick_current_iff hmode
  rcases reschedule_cases (h.placed hmode).cr3_eq with ⟨hsame, hstay⟩ | ⟨hne, hdispatched⟩
  · refine iff_of_false (fun hafter ↦ ?_) fun ⟨j, hj, hcurrent, hready⟩ ↦ hpick.1 hsame j hj hcurrent hready
    rw [hstay] at hafter
    obtain ⟨i', hi', hruns'⟩ := hafter hmode
    have hcurrent : some i' = k.current := hi'.symm
    have hself := (hruns' i').2 rfl
    rw [readied_ctxs, if_pos hcurrent] at hself
    exact ProcessState.noConfusion hself
  · refine iff_of_true (fun _ ↦ ?_) ?_
    · obtain ⟨next, hnext, -⟩ := (h.picked_preempted hmode).some_ready
      rw [hnext] at hdispatched
      rw [hdispatched.none_running_iff]
      intro j _
      rw [preempted_ctxs]
      split
      · exact ProcessState.noConfusion
      · rename_i hj
        intro hrunning
        exact hj (((hruns j).1 hrunning) ▸ hi.symm)
    · by_contra hnone
      push Not at hnone
      exact hne (hpick.2 hnone)

/-- An event of a user process keeps the running context right exactly under the condition. -/
theorem Table.turn_runsCurrent (h : Table k) (hmode : k.mode = .user) (hruns : RunsCurrent k)
    (hturn : Turn event k k') :
    (k'.mode ≠ .shell → RunsCurrent k') ↔
      (Asks event k .fork → ForkCut k → ∀ j, (k.ctxs (some j)).state ≠ .unused) := by
  cases hturn with
  | work no_child works =>
    refine iff_of_true (fun _ ↦ ?_) fun hasks ↦ absurd hasks no_child.no_fork
    apply (works.runs_iff hruns ?_).2
    all_goals exact fun j hj ↦ absurd hj.symm (Option.some_ne_none j)
  | fork asked returned holds spawned _ _ _ ready =>
    refine iff_of_true (fun _ ↦ ?_) fun _ hcut ↦ absurd hcut returned
    exact (holds.runs_iff hruns spawned.vacant).2 fun j hj ↦ by rw [ready j hj]; decide
  | clone asked holds spawned _ _ _ ready =>
    refine iff_of_true (fun _ ↦ ?_) fun hasks ↦ Syscall.noConfusion (asked.inj hasks)
    exact (holds.runs_iff hruns spawned.vacant).2 fun j hj ↦ by rw [ready j hj]; decide
  | sleep asked =>
    refine iff_of_true (fun _ ↦ ?_) fun hasks ↦ Syscall.noConfusion (asked.inj hasks)
    obtain ⟨i, hi, hruns⟩ := hruns
    obtain ⟨next, hnext, -⟩ := (h.picked_slept hmode).some_ready
    have hdispatched := dispatched_doSleep k
    rw [hnext] at hdispatched
    rw [hdispatched.none_running_iff]
    intro j _
    rw [slept_ctxs]
    split
    · exact ProcessState.noConfusion
    · rename_i hj
      intro hrunning
      exact hj (((hruns j).1 hrunning) ▸ hi.symm)
  | leave leaves =>
    rw [h.leaves_runsCurrent hmode hruns leaves]
    have hleft : ∀ {child k₁}, Left event child k k₁ →
        (NoChild event k ∨ ForkCut k ∧ (∀ j, (k.ctxs (some j)).state ≠ .unused) ↔
          (Asks event k .fork → ForkCut k → ∀ j, (k.ctxs (some j)).state ≠ .unused)) := by
      intro child k₁ hleft
      rw [hleft.keepsCount_iff hmode]
      unfold KeepsCount
      constructor
      · intro hkeeps hasks hcut
        exact ((hkeeps hmode).2 hasks).1 hcut
      · intro hfull _
        refine ⟨fun hasks ↦ absurd hasks hleft.no_clone, fun hasks ↦ ?_⟩
        have hcut : ForkCut k := by
          cases child with
          | none => exact ((hleft.full rfl).resolve_left fun hnone ↦ hnone.no_fork hasks).1
          | some j => exact (hleft.cut j rfl).2.1
        exact iff_of_true hcut (hfull hasks hcut)
    cases leaves with
    | exit left => exact hleft left
    | stop _ left => exact hleft left

theorem RunsCurrent.accountSleep (hruns : RunsCurrent k) : RunsCurrent k.accountSleep := by
  obtain ⟨i, hi, hruns⟩ := hruns
  exact ⟨i, hi, fun j ↦ (countSleep_state_running _).trans (hruns j)⟩

/-- Every event keeps the running context right exactly under the condition. -/
theorem Table.step_runsCurrent (h : Table k) (event : Event) (hruns : k.mode ≠ .shell → RunsCurrent k) :
    ((Kernel.step event k).mode ≠ .shell → RunsCurrent (Kernel.step event k)) ↔ KeepsRunning k event := by
  have hmoves := h.moves event
  generalize Kernel.step event k = k' at *
  cases hmoves with
  | rest no_user no_tick =>
    exact iff_of_true hruns ⟨fun htick ↦ absurd htick no_tick, fun hmode ↦ absurd hmode no_user⟩
  | @launch _ i record mode slot launched =>
    have hempty := (h.empty mode).2
    refine iff_of_true (fun _ ↦ ⟨i, launched.current_eq, fun j ↦ ?_⟩) ⟨fun htick ↦ ?_, fun huser ↦ ?_⟩
    · rw [launched.ctxs_eq]
      by_cases hj : j = i
      · subst hj
        rw [Function.update_self]
        exact iff_of_true launched.state_eq rfl
      · rw [Function.update_of_ne fun heq ↦ hj (Option.some.inj heq)]
        refine iff_of_false (fun hrunning ↦ ?_) hj
        by_cases hzero : j.val = 0
        · have hswapper : some j = swapper := by
            rw [swapper_eq]
            exact congrArg some (Fin.ext hzero)
          have hne : k.current ≠ swapper := by
            rw [(h.empty mode).1, swapper_eq]
            exact fun heq ↦ Option.some_ne_none _ heq.symm
          rw [hswapper, h.swapper_ready hne] at hrunning
          exact ProcessState.noConfusion hrunning
        · exact hempty j ⟨hzero, by rw [hrunning]; decide⟩
    · rcases htick.2 with heq | heq <;> exact Mode.noConfusion (mode.symm.trans heq)
    · exact Mode.noConfusion (mode.symm.trans huser)
  | turn mode event_ne turn =>
    rw [h.turn_runsCurrent mode (hruns (by rw [mode]; decide)) turn]
    unfold KeepsRunning
    constructor
    · exact fun hfull ↦ ⟨fun htick ↦ absurd htick.1 event_ne, fun _ ↦ hfull⟩
    · exact fun hkeeps ↦ hkeeps.2 mode
  | leave mode tick cut leaves =>
    have hshell : k.mode ≠ .shell := by rw [mode]; decide
    have hnone : ∀ k, NoChild event k := fun k ↦ noChild_of_ne (by rw [tick]; exact fun _ ↦ Event.noConfusion)
    refine iff_of_true ?_ ⟨fun _ ↦ Or.inr cut, fun _ hasks ↦ absurd hasks (hnone k).no_fork⟩
    apply ((h.accountSleep hshell).1.leaves_runsCurrent mode ((hruns hshell).accountSleep) leaves).2
    exact Or.inl (tick ▸ hnone _)
  | @tick k₁ mode tick returned works swapper =>
    obtain ⟨htable, hmode₁⟩ := h.ticked mode works swapper
    have hshell : k.mode ≠ .shell := by rcases mode with heq | heq <;> rw [heq] <;> decide
    have hshell₁ : k₁.mode ≠ .shell := by rcases hmode₁ with heq | heq <;> rw [heq] <;> decide
    have hnone : NoChild event k := noChild_of_ne (by rw [tick]; exact fun _ ↦ Event.noConfusion)
    have hruns₁ : RunsCurrent k₁ := by
      apply (works.runs_iff ((hruns hshell).accountSleep) ?_).2
      all_goals exact fun j hj ↦ absurd hj.symm (Option.some_ne_none j)
    rw [htable.reschedule_runsCurrent hshell₁ hruns₁]
    have hother : (∃ j : Fin maxProcesses, j.val ≠ 0 ∧ k₁.current ≠ some j ∧ (k₁.ctxs (some j)).state = .ready) ↔
        OtherReady k := by
      refine exists_congr fun j ↦ and_congr_right fun _ ↦ ?_
      rw [works.current_eq, works.state_eq]
      exact and_congr_right fun _ ↦ countSleep_state_ready _
    rw [hother]
    constructor
    · exact fun hready ↦ ⟨fun _ ↦ Or.inl hready, fun _ hasks ↦ absurd hasks hnone.no_fork⟩
    · exact fun hkeeps ↦ (hkeeps.1 ⟨tick, mode⟩).resolve_right fun hcut ↦ hcut k₁ returned

end GemOS
