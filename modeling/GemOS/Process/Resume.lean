import GemOS.Process.Sleep

/-!
# Resuming a process

A process that was preempted, that went to sleep, or that `fork` made gets the processor back with the
registers in its record. For a preempted process these are the frame that the tick left after the alarm
was delivered. For a sleeper and for a forked child they are the registers saved at the trap, `rax`
included: unlike the return of a system call, which puts the result into `rax`, the dispatch pops the old
value. In a run with stray stores it may be other registers, since a frame can be stored in the record.
-/

namespace GemOS

open Foundation Memory Kernel

variable {event : Event} {k k₁ k' : Kernel} {i p : Fin maxProcesses}

/-- The process gets the processor at the end of the run and not before. -/
def ResumesIn (machine : Event → Kernel → Kernel) (p : Fin maxProcesses) (k : Kernel) (events : List Event) : Prop :=
  Along machine (fun s _ ↦ s.current ≠ some p) k events ∧ (run machine k events).current = some p

abbrev Resumes : Fin maxProcesses → Kernel → List Event → Prop := ResumesIn fullStep

instance (machine : Event → Kernel → Kernel) (p : Fin maxProcesses) (k : Kernel) (events : List Event) :
    Decidable (ResumesIn machine p k events) := by
  unfold ResumesIn
  infer_instance

theorem Kernel.NoStrayStores.resumes_iff {events : List Event} (hsafe : NoStrayStores k events) :
    Resumes p k events ↔ ResumesIn step p k events := by
  unfold Resumes ResumesIn
  rw [hsafe.along_iff, hsafe.run_eq]

theorem counted_regs (event : Event) (k : Kernel) (p : Fin maxProcesses) :
    (counted event k p).regs = (k.ctxs (some p)).regs := by
  unfold counted
  split
  · exact (countSleep_eq _).2.2.2.2.1
  · rfl

theorem counted_live (event : Event) {k : Kernel} (hp : Live k.ctxs p) : (counted event k p).state ≠ .unused := by
  unfold counted
  split
  · exact ((accountSleep_live k p).2 hp).2
  · exact hp.2

/-- A process that waits for the processor resumes with the registers in its record; by induction on
the run. -/
theorem Table.resumes (h : Table k) (hp : Live k.ctxs p) (hne : k.current ≠ some p) {events : List Event}
    (hresumes : ResumesIn Kernel.step p k events) : (Foundation.run Kernel.step k events).regs =
      (k.ctxs (some p)).regs := by
  induction events generalizing k with
  | nil => exact absurd hresumes.2 hne
  | cons event events ih =>
    obtain ⟨haway, hback⟩ := hresumes
    rw [run_cons] at hback ⊢
    have htail : Along Kernel.step (fun s _ ↦ s.current ≠ some p) (Kernel.step event k) events := by
      cases haway with
      | cons _ tail => exact tail
    rcases h.other hp hne event with hstays | henters
    · have hlive : Live (Kernel.step event k).ctxs p :=
        ⟨hp.1, by rw [hstays.record_eq]; exact counted_live event hp⟩
      rw [ih (h.after event) hlive hstays.current_ne ⟨htail, hback⟩, hstays.record_eq, counted_regs]
    · cases htail with
      | nil => rw [run_nil, henters.regs_eq, counted_regs]
      | cons head _ => exact absurd henters.current_eq head

/-- A preempted process goes on with the frame it had after the delivery of that tick's alarm, at once or
when it is next dispatched. -/
theorem Table.preempted_resumes_step (h : Table k) (hmode : k.mode = .user) (hcurrent : k.current = some p)
    (halarm : accountAlarm k.accountSleep = .ret () k₁) (events : List Event)
    (hresumes : ResumesIn Kernel.step p (Kernel.step .tick k) events) :
    (Foundation.run Kernel.step (Kernel.step .tick k) events).regs = k₁.regs := by
  have hworks : Works (keeping .tick k.accountSleep) k.accountSleep k₁ := by
    have hspec := accountAlarm_spec k.accountSleep
    unfold Spec at hspec
    rwa [halarm] at hspec
  have hstep : Kernel.step .tick k = k₁.reschedule := (step_user hmode .tick).trans (handleTimerTick_returns halarm)
  have htable' : Table (Kernel.step .tick k) := h.after .tick
  obtain ⟨htable, hmode₁⟩ := h.ticked (Or.inl hmode) hworks fun hswapper ↦
    Mode.noConfusion (hmode.symm.trans hswapper)
  have hcurrent₁ : k₁.current = some p := hworks.current_eq.trans hcurrent
  have hshell : k₁.mode ≠ .shell := by rcases hmode₁ with heq | heq <;> rw [heq] <;> decide
  obtain ⟨i, hi, hlive, -⟩ := h.current_user hmode
  obtain rfl := Option.some.inj (hcurrent.symm.trans hi)
  rcases reschedule_cases (htable.placed hshell).cr3_eq with ⟨-, hstay⟩ | ⟨hpick, hdispatched⟩
  · rw [hstep, hstay] at hresumes ⊢
    cases events with
    | nil => rfl
    | cons event events =>
      cases hresumes.1 with
      | cons head _ => exact absurd hcurrent₁ head
  · rw [hcurrent₁] at hpick hdispatched
    have hself : k₁.reschedule.ctxs (some p) = k₁.preempted.ctxs (some p) := by
      rw [hdispatched.ctxs_eq, if_neg hpick.symm]
    rw [preempted_ctxs, if_pos hcurrent₁.symm] at hself
    rw [hstep] at hresumes htable' ⊢
    have hlive' : Live k₁.reschedule.ctxs p := ⟨hlive.1, by rw [hself]; exact ProcessState.noConfusion⟩
    have hne : k₁.reschedule.current ≠ some p := hdispatched.current_eq.symm ▸ hpick
    rw [htable'.resumes hlive' hne hresumes, hself]
    rfl

def Kernel.setRax (k : Kernel) (value : ℕ) : Kernel := { k with regs := k.regs.setRax value }

/-- `fork` that returns goes back to the parent with the number of the child. -/
theorem step_fork (hmode : k.mode = .user) (hcall : k.syscallRequested = some .fork) {pid : ℕ}
    (hreturn : doFork k.saveRegs = .ret pid k₁) (peek : ℕ → ℕ) :
    step (.syscall peek) k = k₁.setRax pid := by
  rw [step_user hmode]
  apply Spec.final (P := fun k' ↦ k' = k₁.setRax pid)
  change Spec (doSyscall peek) k _ _
  unfold doSyscall
  apply Spec.read_bind
  apply Spec.update_bind
  rw [hcall]
  have hspec : Spec doFork k.saveRegs (fun pid' k' ↦ pid' = pid ∧ k' = k₁) fun k' ↦ k' = k₁.setRax pid := by
    unfold Spec
    rw [hreturn]
    exact ⟨rfl, rfl⟩
  apply Spec.bind hspec
  rintro _ _ ⟨rfl, rfl⟩
  exact Spec.update rfl

/-- The registers with which `sleep` and `fork` go on: a sleeper and a forked child pop the `rax` saved at
the trap, so they see the result `0` exactly when `rax` was `0` there; the parent gets the child's number. -/
theorem Table.sleep_fork_step (h : Table k) (hmode : k.mode = .user) (hcurrent : k.current = some p)
    (peek : ℕ → ℕ) (events : List Event) :
    (k.syscallRequested = some .sleep → ResumesIn Kernel.step p (Kernel.step (.syscall peek) k) events →
        ((Foundation.run Kernel.step (Kernel.step (.syscall peek) k) events).regs = k.regs.setRax 0 ↔ k.regs.rax = 0)) ∧
      ∀ pid, k.syscallRequested = some .fork → doFork k.saveRegs = .ret pid k₁ →
        (∃ j, (k.ctxs (some j)).state = .unused) →
        ∃ child : Fin maxProcesses, (k.ctxs (some child)).state = .unused ∧
          ((Kernel.step (.syscall peek) k).ctxs (some child)).pid = child ∧
          ((Kernel.step (.syscall peek) k).ctxs (some child)).state = .ready ∧
          (Kernel.step (.syscall peek) k).regs = k.regs.setRax child ∧
          (ResumesIn Kernel.step child (Kernel.step (.syscall peek) k) events →
            ((Foundation.run Kernel.step (Kernel.step (.syscall peek) k) events).regs =
              k.regs.setRax 0 ↔ k.regs.rax = 0)) := by
  have hzero : k.regs = k.regs.setRax 0 ↔ k.regs.rax = 0 :=
    ⟨fun heq ↦ congrArg UserRegs.rax heq, fun heq ↦ by rw [← heq]; rfl⟩
  obtain ⟨i, hi, hlive, hctx⟩ := h.current_user hmode
  obtain rfl := Option.some.inj (hcurrent.symm.trans hi)
  have htable' : Table (Kernel.step (.syscall peek) k) := h.after _
  refine ⟨fun hcall hresumes ↦ ?_, fun pid hcall hreturn hfree ↦ ?_⟩
  · have hstays := h.stays_slept hmode hcurrent hcall peek
    have hlive' : Live (Kernel.step (.syscall peek) k).ctxs p :=
      ⟨hlive.1, by rw [hstays.record_eq]; exact ProcessState.noConfusion⟩
    rw [htable'.resumes hlive' hstays.current_ne hresumes, hstays.record_eq]
    exact hzero
  · have hself : k.saveRegs.ctx = k.ctx.saveRegs k.regs :=
      k.updateCtx_self k.current fun ctx ↦ ctx.saveRegs k.regs
    have hspec := doFork_spec (k := k.saveRegs) hcurrent (by rw [hself, hctx]; exact hlive.2) (by rw [hself]; rfl)
    unfold Spec at hspec
    rw [hreturn] at hspec
    obtain ⟨child, record, hne, hborn, hspawned, hready, hregs, hpid, -⟩ := hspec
    have hspawned' : Spawned child k k₁ := hspawned.after (works_saveRegs (A := ⟨True, True⟩) k) trivial
    have hstep := step_fork hmode hcall hreturn peek
    cases child with
    | none =>
      obtain ⟨j, hj⟩ := hfree
      exact absurd hj (hspawned'.full rfl j)
    | some child =>
      have hrecord : (Kernel.step (.syscall peek) k).ctxs (some child) = record := by
        rw [hstep]
        exact hborn.self
      have hpid' : record.pid = child := hborn.self ▸ hspawned.pid_eq child rfl
      have hchild : child.val ≠ 0 := by
        intro hval
        have hswapper : some child = swapper := by
          rw [swapper_eq]
          exact congrArg some (Fin.ext hval)
        exact h.swapper_ok.in_use (hswapper ▸ hspawned'.vacant child rfl)
      refine ⟨child, hspawned'.vacant child rfl, by rw [hrecord, hpid'], by rw [hrecord, hready], ?_, fun hresumes ↦ ?_⟩
      · rw [hstep]
        change UserRegs.setRax k₁.regs pid = _
        rw [← hpid, hpid', hborn.regs_eq]
        rfl
      · have hlive' : Live (Kernel.step (.syscall peek) k).ctxs child :=
          ⟨hchild, by rw [hrecord, hready]; decide⟩
        have hcurrent' : (Kernel.step (.syscall peek) k).current ≠ some child := by
          rw [hstep]
          exact hborn.current_eq.symm ▸ hne
        rw [htable'.resumes hlive' hcurrent' hresumes, hrecord, hregs]
        exact hzero

/-- The registers of a process that calls `sleep` for one tick, or `fork`, with `5` in `rax`. -/
def trapRegs (number param : ℕ) : UserRegs := { UserRegs.zero with rdi := number, rsi := param, rax := 5 }

end GemOS
