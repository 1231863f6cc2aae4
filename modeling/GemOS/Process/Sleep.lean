import GemOS.Process.Parked
import GemOS.Process.StrayStores

/-!
# Sleeping and waking up

`do_sleep` stores the low half of its argument as the number of ticks; the tick handler counts a positive
number down and wakes the sleeper at zero. A process that sleeps for `n ≥ 1` ticks wakes up at the `n`-th
of them, whatever the others do. With `n = 0` it waits for a count that never starts: the sleepers all
have a positive count exactly in the runs in which nobody sleeps for zero ticks. All of this is for runs without
stray stores: a signal frame in the record of a sleeper changes its count.
-/

namespace GemOS

open Foundation Memory Kernel

variable {event : Event} {k k' : Kernel} {i p : Fin maxProcesses}

/-- `sleep` leaves through `do_sleep`. -/
theorem step_sleep (hmode : k.mode = .user) (hcall : k.syscallRequested = some .sleep) (peek : ℕ → ℕ) :
    step (.syscall peek) k = k.saveRegs.doSleep k.regs.rsi := by
  rw [step_user hmode]
  apply Spec.final (P := fun k' ↦ k' = k.saveRegs.doSleep k.regs.rsi)
  change Spec (doSyscall peek) k _ _
  unfold doSyscall
  apply Spec.read_bind
  apply Spec.update_bind
  rw [hcall]
  exact Spec.bind (Q := fun _ _ ↦ False) (Spec.leave rfl) fun _ _ ↦ False.elim

/-- The process that called `sleep` waits with the count it asked for. -/
theorem Table.stays_slept (h : Table k) (hmode : k.mode = .user) (hcurrent : k.current = some p)
    (hcall : k.syscallRequested = some .sleep) (peek : ℕ → ℕ) :
    Stays p (((k.ctxs (some p)).saveRegs k.regs).sleepFor k.regs.rsi) (Kernel.step (.syscall peek) k) := by
  obtain ⟨i, hi, hlive, -⟩ := h.current_user hmode
  obtain rfl := Option.some.inj (hcurrent.symm.trans hi)
  have hself : k.slept.ctxs (some p) = ((k.ctxs (some p)).saveRegs k.regs).sleepFor k.regs.rsi := by
    rw [slept_ctxs, if_pos hcurrent.symm]
  rw [step_sleep hmode hcall, ← hself]
  apply ((dispatched_doSleep k).other hlive.1 (h.picked_slept hmode)).resolve_right
  intro henters
  have hready := henters.ready
  rw [hself] at hready
  exact ProcessState.noConfusion hready

/-- Every sleeper has a count that the tick handler will bring to zero. -/
def SleepersCount (k : Kernel) : Prop :=
  ∀ i, (k.ctxs (some i)).state = .waiting → 0 < (k.ctxs (some i)).ticksToSleep

/-- The event does not put a process to sleep for zero ticks. -/
def SleepsPositive (k : Kernel) (event : Event) : Prop :=
  k.mode = .user → Asks event k .sleep → 0 < k.regs.rsi % 2 ^ 32

theorem Dispatched.waiting {next : CtxPtr} {q : CtxPtr} (h : Dispatched next k k')
    (hwaiting : (k'.ctxs q).state = .waiting) : k'.ctxs q = k.ctxs q := by
  rw [h.ctxs_eq] at hwaiting ⊢
  split at hwaiting
  · exact ProcessState.noConfusion hwaiting
  · rename_i hne
    exact if_neg hne

/-- Neither the current context nor a new record is left waiting when the current context leaves. -/
theorem Leaves.waiting (h : Table k) (hmode : k.mode = .user) (hleaves : Leaves event k k')
    (hwaiting : (k'.ctxs (some i)).state = .waiting) :
    k.current ≠ some i ∧ k'.ctxs (some i) = k.ctxs (some i) := by
  have hplaced := h.placed (by rw [hmode]; decide)
  have hnot : k.ctx.state ≠ .waiting := by rcases hplaced.busy with heq | heq <;> rw [heq] <;> decide
  -- A record that waits is neither the current one nor the one a fork left behind.
  have hkept : ∀ {child k₁}, Left event child k k₁ → (k₁.ctxs (some i)).state = .waiting →
      k.current ≠ some i ∧ k₁.ctxs (some i) = k.ctxs (some i) := by
    intro child k₁ hleft hwait
    have hcurrent : k.current ≠ some i := by
      intro heq
      have hstate := hleft.seat.state_eq
      rw [Kernel.ctx, hleft.current_eq, heq, hwait] at hstate
      exact hnot hstate.symm
    refine ⟨hcurrent, hleft.others i hcurrent.symm fun heq ↦ ?_⟩
    obtain ⟨-, -, -, hstate⟩ := hleft.cut i heq.symm
    exact hnot (hstate.symm.trans hwait)
  cases hleaves with
  | @exit k₁ child hleft =>
    have hretired : ∀ {k₂ : Kernel}, k₂.ctxs (some i) = k₁.retire.ctxs (some i) →
        (k₂.ctxs (some i)).state = .waiting →
        k.current ≠ some i ∧ k₂.ctxs (some i) = k.ctxs (some i) := by
      intro k₂ hsame hwait
      rw [hsame, retire_ctxs] at hwait
      rw [hsame, retire_ctxs]
      split at hwait
      · exact ProcessState.noConfusion hwait
      · rename_i hne
        rw [if_neg hne]
        exact hkept hleft hwait
    rcases doExit_cases k₁ with ⟨-, hdispatched⟩ | ⟨-, hcleanup⟩
    · exact hretired (hdispatched.waiting hwaiting) hwaiting
    · have hctxs := doCleanup_ctxs k₁.retire (some i)
      change _ = if some i = k₁.current then _ else _ at hctxs
      rw [hcleanup] at hwaiting ⊢
      split at hctxs
      · rw [hctxs] at hwaiting
        exact ProcessState.noConfusion hwaiting
      · exact hretired hctxs hwaiting
  | stop _ hleft =>
    have hkeep := hkept hleft hwaiting
    exact hkeep

/-- A context is found waiting after an event because it waited before, or because it called `sleep`. -/
theorem Table.waiting_step (h : Table k)
    (hwaiting : ((Kernel.step event k).ctxs (some i)).state = .waiting) :
    (Kernel.step event k).ctxs (some i) = counted event k i ∨
      k.mode = .user ∧ Asks event k .sleep ∧
        ((Kernel.step event k).ctxs (some i)).ticksToSleep = k.regs.rsi % 2 ^ 32 := by
  have hmoves := h.moves event
  generalize Kernel.step event k = k' at *
  have hquiet : ¬ Ticks event k → counted event k i = k.ctxs (some i) := fun hnot ↦ if_neg hnot
  cases hmoves with
  | rest _ hnot => exact Or.inl (hquiet hnot).symm
  | @launch _ j record mode slot launched =>
    have hnot : ¬ Ticks event k := fun htick ↦ by
      rcases htick.2 with heq | heq <;> exact Mode.noConfusion (mode.symm.trans heq)
    rw [hquiet hnot]
    rw [launched.ctxs_eq] at hwaiting ⊢
    by_cases heq : some i = some j
    · rw [heq, Function.update_self, launched.state_eq] at hwaiting
      exact ProcessState.noConfusion hwaiting
    · exact Or.inl (Function.update_of_ne heq _ _)
  | turn mode event_ne turn =>
    rw [hquiet fun htick ↦ event_ne htick.1]
    have hplaced := h.placed (by rw [mode]; decide)
    have hnot : k.ctx.state ≠ .waiting := by rcases hplaced.busy with heq | heq <;> rw [heq] <;> decide
    have hholds : ∀ {child}, Holds (keeping event k) child k k' →
        (∀ j, child = some j → (k'.ctxs (some j)).state = .ready) → k'.ctxs (some i) = k.ctxs (some i) := by
      intro child hholds hready
      refine hholds.others i (fun heq ↦ ?_) fun heq ↦ ?_
      · have hstate := hholds.seat.state_eq
        rw [Kernel.ctx, hholds.current_eq, ← heq, hwaiting] at hstate
        exact hnot hstate.symm
      · exact ProcessState.noConfusion ((hready i heq.symm).symm.trans hwaiting)
    cases turn with
    | work _ works => exact Or.inl (hholds works.toHolds fun j hj ↦ absurd hj.symm (Option.some_ne_none j))
    | fork _ _ holds _ _ _ _ ready => exact Or.inl (hholds holds ready)
    | clone _ holds _ _ _ _ ready => exact Or.inl (hholds holds ready)
    | sleep asked =>
      have hsame := (dispatched_doSleep k).waiting hwaiting
      rw [hsame, slept_ctxs]
      split
      · exact Or.inr ⟨mode, asked, rfl⟩
      · exact Or.inl rfl
    | leave leaves => exact Or.inl (leaves.waiting h mode hwaiting).2
  | leave mode tick _ leaves =>
    rw [counted, if_pos ⟨tick, Or.inl mode⟩]
    have hshell : k.mode ≠ .shell := by rw [mode]; decide
    exact Or.inl (leaves.waiting (h.accountSleep hshell).1 mode hwaiting).2
  | @tick k₁ mode tick _ works swapper =>
    rw [counted, if_pos ⟨tick, mode⟩]
    obtain ⟨htable, hmode₁⟩ := h.ticked mode works swapper
    have hshell : k₁.mode ≠ .shell := by rcases hmode₁ with heq | heq <;> rw [heq] <;> decide
    have hothers : k₁.current ≠ some i → k₁.ctxs (some i) = (k.ctxs (some i)).countSleep := fun hne ↦
      works.others i (works.current_eq ▸ hne.symm) (Option.some_ne_none i)
    refine Or.inl ?_
    rcases reschedule_cases (htable.placed hshell).cr3_eq with ⟨-, hstay⟩ | ⟨-, hdispatched⟩
    · rw [hstay, readied_ctxs] at hwaiting ⊢
      split at hwaiting
      · exact ProcessState.noConfusion hwaiting
      · rename_i hne
        rw [if_neg hne]
        exact hothers (Ne.symm hne)
    · have hsame := hdispatched.waiting hwaiting
      rw [hsame, preempted_ctxs] at hwaiting
      rw [hsame, preempted_ctxs]
      split at hwaiting
      · exact ProcessState.noConfusion hwaiting
      · rename_i hne
        rw [if_neg hne]
        exact hothers (Ne.symm hne)

theorem countSleep_waiting {ctx : ExecContext} (hwaiting : ctx.countSleep.state = .waiting) :
    ctx.state = .waiting ∧ (0 < ctx.ticksToSleep → 0 < ctx.countSleep.ticksToSleep) := by
  unfold ExecContext.countSleep at *
  split_ifs at * with hwaits hlast
  · refine ⟨hwaits.1, fun hpos ↦ ?_⟩
    change 0 < ctx.ticksToSleep - 1
    omega
  · exact ⟨hwaiting, id⟩

theorem SleepersCount.step (h : Table k) (hcount : SleepersCount k) (hpositive : SleepsPositive k event) :
    SleepersCount (Kernel.step event k) := by
  intro i hwaiting
  rcases h.waiting_step hwaiting with hsame | ⟨hmode, hasks, hticks⟩
  · rw [hsame] at hwaiting ⊢
    unfold counted at *
    split at hwaiting
    · rename_i htick
      rw [if_pos htick]
      have hbefore := countSleep_waiting hwaiting
      exact hbefore.2 (hcount i hbefore.1)
    · rename_i htick
      rw [if_neg htick]
      exact hcount i hwaiting
  · rw [hticks]
    exact hpositive hmode hasks

/-- In a run, every state has only counting sleepers exactly when nobody sleeps for zero ticks. -/
theorem forall_sleepersCount_iff (phys : PhysMem) (apicBase : ApicBase) (wp : Bool) (null : ExecContext)
    (events : List Event) :
    (∀ before later, events = before ++ later →
        SleepersCount (run Kernel.step (boot phys apicBase wp null) before)) ↔
      Along Kernel.step SleepsPositive (boot phys apicBase wp null) events := by
  have hboot : SleepersCount (boot phys apicBase wp null) := by
    intro i hwaiting
    change (bootCtxs _ null (some i)).state = .waiting at hwaiting
    unfold bootCtxs at hwaiting
    simp only at hwaiting
    split at hwaiting <;> exact ProcessState.noConfusion hwaiting
  constructor
  · intro hcounts
    rw [along_iff]
    intro before event later hsplit hmode hasks
    generalize hk : run Kernel.step (boot phys apicBase wp null) before = k at *
    have htable : Table k := hk ▸ (table_boot phys apicBase wp null).after_run before
    obtain ⟨⟨peek, rfl⟩, hcall⟩ := hasks
    obtain ⟨p, hcurrent, -, -⟩ := htable.current_user hmode
    have hstays := htable.stays_slept hmode hcurrent hcall peek
    have hafter := hcounts (before ++ [.syscall peek]) later (by rw [hsplit, List.append_assoc]; rfl)
    rw [run_append, hk] at hafter
    have hpositive := hafter p (by rw [run_cons, run_nil, hstays.record_eq]; rfl)
    rw [run_cons, run_nil, hstays.record_eq] at hpositive
    exact hpositive
  · rintro halong before later rfl
    have hinv : Table (run Kernel.step (boot phys apicBase wp null) before) ∧
        SleepersCount (run Kernel.step (boot phys apicBase wp null) before) :=
      halong.of_append.1.invariant (I := fun k ↦ Table k ∧ SleepersCount k)
        ⟨table_boot phys apicBase wp null, hboot⟩
        fun k event hinv hpositive ↦ ⟨hinv.1.after event, hinv.2.step hinv.1 hpositive⟩
    exact hinv.2

theorem countSleep_of_two_le {ctx : ExecContext} (hwaiting : ctx.state = .waiting) (hticks : 2 ≤ ctx.ticksToSleep) :
    ctx.countSleep.state = .waiting ∧ ctx.countSleep.ticksToSleep = ctx.ticksToSleep - 1 := by
  unfold ExecContext.countSleep
  rw [if_pos ⟨hwaiting, by omega⟩, if_neg (by omega)]
  exact ⟨hwaiting, rfl⟩

theorem countSleep_of_one {ctx : ExecContext} (hwaiting : ctx.state = .waiting) (hticks : ctx.ticksToSleep = 1) :
    ctx.countSleep.state = .ready := by
  unfold ExecContext.countSleep
  rw [if_pos ⟨hwaiting, by omega⟩, if_pos hticks]

/-- While the count of a sleeper lasts, it waits without the processor; by induction on the run. -/
theorem Table.sleeping (h : Table k) (hp : p.val ≠ 0) (hcurrent : k.current ≠ some p)
    (hwaiting : (k.ctxs (some p)).state = .waiting) {events : List Event}
    (hcount : countAlong Kernel.step Ticks k events < (k.ctxs (some p)).ticksToSleep) :
    Table (run Kernel.step k events) ∧ (run Kernel.step k events).current ≠ some p ∧
      ((run Kernel.step k events).ctxs (some p)).state = .waiting ∧
      ((run Kernel.step k events).ctxs (some p)).ticksToSleep + countAlong Kernel.step Ticks k events =
        (k.ctxs (some p)).ticksToSleep := by
  induction events generalizing k with
  | nil => exact ⟨h, hcurrent, hwaiting, rfl⟩
  | cons event events ih =>
    have hlive : Live k.ctxs p := ⟨hp, by rw [hwaiting]; decide⟩
    rw [countAlong] at hcount
    have hcounted : (counted event k p).state = .waiting ∧
        (counted event k p).ticksToSleep + (if Ticks event k then 1 else 0) = (k.ctxs (some p)).ticksToSleep := by
      unfold counted
      split
      · rename_i htick
        rw [if_pos htick] at hcount
        have hsleep := countSleep_of_two_le hwaiting (by omega)
        exact ⟨hsleep.1, by rw [hsleep.2]; omega⟩
      · exact ⟨hwaiting, rfl⟩
    have hstays : Stays p (counted event k p) (Kernel.step event k) := by
      apply (h.other hlive hcurrent event).resolve_right
      intro henters
      exact ProcessState.noConfusion (henters.ready.symm.trans hcounted.1)
    have hnext := ih (h.after event) hstays.current_ne (by rw [hstays.record_eq]; exact hcounted.1)
      (by rw [hstays.record_eq]; omega)
    rw [hstays.record_eq] at hnext
    rw [run_cons, countAlong]
    exact ⟨hnext.1, hnext.2.1, hnext.2.2.1, by omega⟩

/-- A process that calls `sleep` with `n ≥ 1` waits without the processor until the `n`-th tick, and that
tick makes it ready; the same tick may dispatch it at once. -/
theorem Table.wakes_at_tick (h : Table k) (hmode : k.mode = .user) (hcurrent : k.current = some p)
    (hcall : k.syscallRequested = some .sleep) (peek : ℕ → ℕ)
    (events : List Event) :
    let asleep := step (.syscall peek) k
    let s := run step asleep events
    (countAlong step Ticks asleep events < k.regs.rsi % 2 ^ 32 →
        (s.ctxs (some p)).state = .waiting ∧ s.current ≠ some p) ∧
      (countAlong step Ticks asleep events + 1 = k.regs.rsi % 2 ^ 32 → Ticks .tick s →
        (s.accountSleep.ctxs (some p)).state = .ready ∧
          (((step .tick s).ctxs (some p)).state = .ready ∧ (step .tick s).current ≠ some p ∨
            ((step .tick s).ctxs (some p)).state = .running ∧ (step .tick s).current = some p)) := by
  obtain ⟨i, hi, hlive, -⟩ := h.current_user hmode
  obtain rfl := Option.some.inj (hcurrent.symm.trans hi)
  have hstays := h.stays_slept hmode hcurrent hcall peek
  have hwaiting : ((step (.syscall peek) k).ctxs (some p)).state = .waiting := by
    rw [hstays.record_eq]
    rfl
  have hcount : ((step (.syscall peek) k).ctxs (some p)).ticksToSleep = k.regs.rsi % 2 ^ 32 := by
    rw [hstays.record_eq]
    rfl
  have hsleeping : countAlong step Ticks (step (.syscall peek) k) events < k.regs.rsi % 2 ^ 32 → _ := fun hlt ↦
    (h.after (.syscall peek)).sleeping hlive.1 hstays.current_ne hwaiting (hcount.symm ▸ hlt)
  refine ⟨fun hlt ↦ ?_, fun hlast htick ↦ ?_⟩
  · obtain ⟨-, hne, hstate, -⟩ := hsleeping hlt
    exact ⟨hstate, hne⟩
  · obtain ⟨htable', hne, hstate, hsum⟩ := hsleeping (by omega)
    rw [hcount] at hsum
    have hready : ((run step (step (.syscall peek) k) events).ctxs (some p)).countSleep.state = .ready :=
      countSleep_of_one hstate (by omega)
    have hcounted : counted .tick (run step (step (.syscall peek) k) events) p =
        ((run step (step (.syscall peek) k) events).ctxs (some p)).countSleep := if_pos htick
    refine ⟨hready, ?_⟩
    rcases htable'.other ⟨hlive.1, by rw [hstate]; decide⟩ hne .tick with hstays' | henters
    · rw [hstays'.record_eq, hcounted]
      exact Or.inl ⟨hready, hstays'.current_ne⟩
    · rw [henters.record_eq]
      exact Or.inr ⟨rfl, henters.current_eq⟩

end GemOS
