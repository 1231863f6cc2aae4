import GemOS.Process.Seats

/-!
# Processes without the processor

While a process does not have the processor, no event of another process touches its record: the tick
counts its sleep, and that is all. It gets the processor back by one dispatch, with the registers in its
record. So a process that was preempted, went to sleep, or was made by `fork` first runs again with the
registers it was left with.
-/

namespace GemOS

open Foundation Memory Kernel

variable {event event' : Event} {k k₁ k' : Kernel} {p : Fin maxProcesses} {record : ExecContext}

/-- The record of a context that does not have the processor, after the sleep count of an event. -/
def counted (event : Event) (k : Kernel) (p : Fin maxProcesses) : ExecContext :=
  if Ticks event k then (k.ctxs (some p)).countSleep else k.ctxs (some p)

/-- The process still waits for the processor. -/
structure Stays (p : Fin maxProcesses) (record : ExecContext) (k : Kernel) : Prop where
  current_ne : k.current ≠ some p
  record_eq : k.ctxs (some p) = record

/-- The process, which was ready, got the processor. -/
structure Enters (p : Fin maxProcesses) (record : ExecContext) (k : Kernel) : Prop where
  ready : record.state = .ready
  current_eq : k.current = some p
  record_eq : k.ctxs (some p) = record.setState .running
  regs_eq : k.regs = record.regs

/-- Whom a scan of the table picks that starts behind the number `start`. -/
def Picked (ctxs : CtxPtr → ExecContext) (start : ℕ) (next : CtxPtr) : Prop :=
  (∃ i : Fin maxProcesses, next = some i ∧ ServesNext 15 (ReadyAt ctxs) start i) ∨
    next = swapper ∧ ∀ i : ℕ, 1 ≤ i ∧ i ≤ 15 → ¬ ReadyAt ctxs i

theorem picked_pickNextContext (ctxs : CtxPtr → ExecContext) {q : CtxPtr} (hq : (ctxs q).pid < maxProcesses) :
    Picked ctxs (ctxs q).pid (pickNextContext ctxs q) := by
  rcases pickNextContext_spec ctxs hq with ⟨j, hpick, hserves⟩ | hnone
  · have hj : j < maxProcesses := Nat.lt_succ_of_le hserves.mem.2
    exact Or.inl ⟨⟨j, hj⟩, hpick.trans (dif_pos hj), hserves⟩
  · exact Or.inr hnone

theorem Picked.congr {ctxs ctxs' : CtxPtr → ExecContext} {start : ℕ} {next : CtxPtr} (h : Picked ctxs start next)
    (hstate : ∀ q, (ctxs' q).state = (ctxs q).state) : Picked ctxs' start next := by
  have hready : ReadyAt ctxs' = ReadyAt ctxs := by
    funext i
    unfold ReadyAt
    rw [hstate]
  unfold Picked
  rwa [hready]

/-- A dispatch of a picked context, for one that has not the processor. -/
theorem Dispatched.other {next : CtxPtr} {start : ℕ} (h : Dispatched next k k') (hp : p.val ≠ 0)
    (hpicked : Picked k.ctxs start next) : Stays p (k.ctxs (some p)) k' ∨ Enters p (k.ctxs (some p)) k' := by
  by_cases heq : some p = next
  · refine Or.inr ⟨?_, heq ▸ h.current_eq, ?_, heq ▸ h.regs_eq⟩
    · rcases hpicked with ⟨i, hi, hserves⟩ | ⟨hswapper, -⟩
      · obtain rfl := Option.some.inj (heq.trans hi)
        exact (readyAt_iff _ p).1 hserves.chosen
      · exact absurd (heq.trans hswapper) (Live.some_ne_swapper hp)
    · rw [h.ctxs_eq, if_pos heq]
  · refine Or.inl ⟨fun hcurrent ↦ heq (hcurrent.symm.trans h.current_eq), ?_⟩
    rw [h.ctxs_eq, if_neg heq]

theorem Table.picked_slept (h : Table k) (hmode : k.mode = .user) :
    Picked k.slept.ctxs k.ctx.pid (pickNextContext k.slept.ctxs k.current) := by
  rw [← slept_pid]
  apply picked_pickNextContext
  rw [slept_pid]
  exact h.pid_lt (by rw [hmode]; decide)

theorem Table.picked_readied (h : Table k) (hmode : k.mode ≠ .shell) :
    Picked k.readied.ctxs k.ctx.pid (pickNextContext k.readied.ctxs k.current) := by
  rw [← readied_pid]
  apply picked_pickNextContext
  rw [readied_pid]
  exact h.pid_lt hmode

theorem Table.picked_preempted (h : Table k) (hmode : k.mode ≠ .shell) :
    Picked k.preempted.ctxs k.ctx.pid (pickNextContext k.readied.ctxs k.current) := by
  apply (h.picked_readied hmode).congr
  intro q
  rw [preempted_ctxs, readied_ctxs]
  split <;> rfl

/-- What an event does to the processor: the current context keeps it, or a context that was picked gets
it, from a table in which the processes without the processor are those of before. -/
inductive Handover (event : Event) (k : Kernel) : Kernel → Prop
  | keep {k' : Kernel} (dispatches_eq : k'.dispatches = k.dispatches)
      (current_eq : k.mode = .shell ∨ k'.mode = .shell ∨ k'.current = k.current)
      (stays : ∀ p, Live k.ctxs p → k.current ≠ some p → Stays p (counted event k p) k') : Handover event k k'
  | give {k₀ k' : Kernel} {next : CtxPtr} (idle : Idle k₀.ctxs) (picked : Picked k₀.ctxs k.ctx.pid next)
      (dispatched : Dispatched next k₀ k') (dispatches_eq : k₀.dispatches = k.dispatches)
      (others : ∀ p, Live k.ctxs p → k.current ≠ some p → k₀.ctxs (some p) = counted event k p) :
      Handover event k k'

theorem Table.picked_retired (h : Table k) (hmode : k.mode = .user) {child : CtxPtr} (hleft : Left event child k k₁) :
    Picked k₁.retire.ctxs k.ctx.pid (pickNextContext k₁.retire.ctxs k₁.current) := by
  rw [← hleft.ctx_pid]
  apply picked_pickNextContext
  rw [hleft.ctx_pid]
  exact h.pid_lt (by rw [hmode]; decide)

theorem Leaves.handover (h : Table k) (hmode : k.mode = .user) (hleaves : Leaves event k k')
    (hcounted : ∀ p, counted event' k₁ p = k.ctxs (some p)) (hlive : ∀ p, Live k₁.ctxs p → Live k.ctxs p)
    (hcurrent : k.current = k₁.current) (hpid : k.ctx.pid = k₁.ctx.pid) (hdispatches : k.dispatches = k₁.dispatches) :
    Handover event' k₁ k' := by
  have hothers : ∀ {child k₂}, Left event child k k₂ → ∀ p, Live k₁.ctxs p → k₁.current ≠ some p →
      k₂.current ≠ some p ∧ k₂.ctxs (some p) = counted event' k₁ p := by
    intro child k₂ hleft p hp hne
    rw [← hcurrent] at hne
    rw [hcounted, hleft.current_eq]
    refine ⟨hne, hleft.others p hne.symm fun heq ↦ ?_⟩
    obtain ⟨-, -, hspawned, -⟩ := hleft.cut p heq.symm
    exact (hlive p hp).2 (hspawned.vacant p heq.symm)
  cases hleaves with
  | @exit k₂ child hleft =>
    have hretired : ∀ p, Live k₁.ctxs p → k₁.current ≠ some p →
        k₂.retire.ctxs (some p) = counted event' k₁ p := by
      intro p hp hne
      obtain ⟨hne₂, hsame⟩ := hothers hleft p hp hne
      rw [retire_ctxs, if_neg hne₂.symm, hsame]
    rcases doExit_cases k₂ with ⟨-, hdispatched⟩ | ⟨hnone, hcleanup⟩
    · apply Handover.give (h.idle_retired hmode hleft) ?_ hdispatched
        (hleft.dispatches_eq.trans hdispatches) hretired
      rw [← hpid]
      exact h.picked_retired hmode hleft
    · have hlog : k₂.retire.doCleanup.dispatches = k₁.dispatches := hleft.dispatches_eq.trans hdispatches
      rw [hcleanup]
      apply Handover.keep hlog (Or.inr (Or.inl rfl))
      intro p hp hne
      refine absurd ⟨hp.1, ?_⟩ (hnone p)
      rw [hretired p hp hne, hcounted]
      exact (hlive p hp).2
  | stop _ hleft =>
    exact .keep (hleft.dispatches_eq.trans hdispatches) (Or.inr (Or.inr (hleft.current_eq.trans hcurrent)))
      fun p hp hne ↦ ⟨(hothers hleft p hp hne).1, (hothers hleft p hp hne).2⟩

/-- What an event does to the processor. -/
theorem Table.handover (h : Table k) (event : Event) : Handover event k (Kernel.step event k) := by
  have hmoves := h.moves event
  generalize Kernel.step event k = k' at *
  have hquiet : ¬ Ticks event k → ∀ p, counted event k p = k.ctxs (some p) := fun hnot p ↦ if_neg hnot
  cases hmoves with
  | rest _ hnot => exact .keep rfl (Or.inr (Or.inr rfl)) fun p _ hne ↦ ⟨hne, (hquiet hnot p).symm⟩
  | launch mode _ launched =>
    exact .keep launched.dispatches_eq (Or.inl mode) fun p hp ↦ absurd hp ((h.empty mode).2 p)
  | turn mode event_ne turn =>
    have hcount := hquiet fun htick ↦ event_ne htick.1
    have hkeep : ∀ {child}, Holds (keeping event k) child k k' →
        (∀ j, child = some j → (k.ctxs (some j)).state = .unused) → Handover event k k' := by
      intro child hholds hchild
      apply Handover.keep hholds.dispatches_eq (Or.inr (Or.inr hholds.current_eq))
      intro p hp hne
      refine ⟨hholds.current_eq ▸ hne, ?_⟩
      rw [hcount p]
      exact hholds.others p hne.symm fun heq ↦ hp.2 (hchild p heq.symm)
    cases turn with
    | work _ works => exact hkeep works.toHolds fun j hj ↦ absurd hj.symm (Option.some_ne_none j)
    | fork _ _ holds spawned => exact hkeep holds spawned.vacant
    | clone _ holds spawned => exact hkeep holds spawned.vacant
    | sleep =>
      have hlog : k.slept.dispatches = k.dispatches := rfl
      apply Handover.give (h.idle_slept mode) (h.picked_slept mode) (dispatched_doSleep k) hlog
      intro p _ hne
      rw [hcount p, slept_ctxs, if_neg hne.symm]
    | leave leaves => exact leaves.handover h mode hcount (fun _ ↦ id) rfl rfl rfl
  | leave mode tick _ leaves =>
    obtain ⟨htable, hctx⟩ := h.accountSleep (by rw [mode]; decide)
    exact leaves.handover htable mode (fun p ↦ if_pos ⟨tick, Or.inl mode⟩) (fun p ↦ (accountSleep_live k p).2) rfl
      (congrArg ExecContext.pid hctx) rfl
  | @tick k₁ mode tick _ works swapper =>
    obtain ⟨htable, hmode₁⟩ := h.ticked mode works swapper
    have hshell : k₁.mode ≠ .shell := by rcases hmode₁ with heq | heq <;> rw [heq] <;> decide
    have hcurrent : k₁.current = k.current := works.current_eq
    have hpid : k₁.ctx.pid = k.ctx.pid := by
      rw [works.seat.pid_eq, (h.accountSleep (by rcases mode with heq | heq <;> rw [heq] <;> decide)).2]
    have hothers : ∀ p, k.current ≠ some p → k₁.ctxs (some p) = counted event k p := by
      intro p hne
      rw [counted, if_pos ⟨tick, mode⟩]
      exact works.others p hne.symm (Option.some_ne_none p)
    have hlog : k₁.dispatches = k.dispatches := works.dispatches_eq
    rcases reschedule_cases (htable.placed hshell).cr3_eq with ⟨-, hstay⟩ | ⟨hpick, hdispatched⟩
    · have hsame : k₁.readied.dispatches = k.dispatches ∧ k₁.readied.current = k.current := ⟨hlog, hcurrent⟩
      rw [hstay]
      apply Handover.keep hsame.1 (Or.inr (Or.inr hsame.2))
      intro p _ hne
      refine ⟨hcurrent ▸ hne, ?_⟩
      rw [readied_ctxs, if_neg (hcurrent ▸ hne.symm)]
      exact hothers p hne
    · have hsame : k₁.preempted.dispatches = k.dispatches := hlog
      have hpicked := htable.picked_preempted hshell
      rw [hpid] at hpicked
      apply Handover.give (htable.idle_preempted hmode₁) hpicked hdispatched hsame
      intro p _ hne
      rw [preempted_ctxs, if_neg (hcurrent ▸ hne.symm)]
      exact hothers p hne

/-- An event leaves the record of a process without the processor alone, but for the sleep count; and
the process may get the processor when it is ready. -/
theorem Table.other (h : Table k) (hp : Live k.ctxs p) (hne : k.current ≠ some p) (event : Event) :
    Stays p (counted event k p) (Kernel.step event k) ∨ Enters p (counted event k p) (Kernel.step event k) := by
  have hhandover := h.handover event
  generalize Kernel.step event k = k' at *
  cases hhandover with
  | keep _ _ stays => exact Or.inl (stays p hp hne)
  | @give k₀ _ next _ picked dispatched _ others =>
    rw [← others p hp hne]
    exact dispatched.other hp.1 picked

end GemOS
