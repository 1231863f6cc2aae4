import GemOS.Process.Fairness
import GemOS.Process.Resume

/-!
# How long a process waits

The timer tick always serves somebody else when a process waits, ready. With the order of the scan this bounds the
ticks that a ready process waits for the processor by the number of slots, and those that a sleeper waits by its sleep
and the slots: each tick of the run lowers the `patience` of the process.
-/

namespace GemOS

open Foundation Memory Kernel

variable {event event' : Event} {events : List Event} {k k₁ k' : Kernel} {p : Fin maxProcesses}

/-- The process is ready, or asleep with ticks to count, and another context has the processor. -/
structure Aside (p : Fin maxProcesses) (k : Kernel) : Prop where
  ne_swapper : p.val ≠ 0
  current_ne : k.current ≠ some p
  state : (k.ctxs (some p)).state = .ready ∨ (k.ctxs (some p)).state = .waiting ∧ 0 < (k.ctxs (some p)).ticksToSleep

/-- The ticks until the process has the processor, at most. -/
def patience (p : Fin maxProcesses) (k : Kernel) : ℕ :=
  if (k.ctxs (some p)).state = .ready then gap 15 k.ctx.pid p + 1 else (k.ctxs (some p)).ticksToSleep + 15

/-- A user process or the swapper runs. -/
def Kernel.Runs (k : Kernel) : Prop := k.mode = .user ∨ k.mode = .swapper

instance (k : Kernel) : Decidable k.Runs := by
  unfold Kernel.Runs
  infer_instance

theorem patience_pos (p : Fin maxProcesses) (k : Kernel) : 0 < patience p k := by
  unfold patience
  split <;> omega

theorem Kernel.Runs.ne_shell (h : k.Runs) : k.mode ≠ .shell := by
  rcases h with heq | heq <;> rw [heq] <;> decide

theorem Aside.live (h : Aside p k) : Live k.ctxs p := by
  refine ⟨h.ne_swapper, ?_⟩
  rcases h.state with heq | ⟨heq, -⟩ <;> rw [heq] <;> decide

/-- A ready process is picked before the context that has the processor. -/
theorem Table.pick_ne_current (h : Table k) (hruns : k.Runs) (hp : p.val ≠ 0) (hwaits : ReadyAside p k) :
    pickNextContext k.readied.ctxs k.current ≠ k.current := by
  have hbounds : 1 ≤ p.val ∧ p.val ≤ 15 := ⟨Nat.one_le_iff_ne_zero.2 hp, Nat.le_of_lt_succ p.isLt⟩
  have hready : ReadyAt k.readied.ctxs p := by
    rw [readyAt_iff, readied_ctxs, if_neg hwaits.2.symm]
    exact hwaits.1
  have hnumber := h.number_le hruns.ne_shell
  intro hpick
  have hpicked := h.picked_readied hruns.ne_shell
  rw [hpick] at hpicked
  rcases hpicked with ⟨i, hcurrent, hserves⟩ | ⟨-, hnone⟩
  · -- a scan meets the place it starts from last
    have hplaced := h.placed hruns.ne_shell
    have hlive : Live k.ctxs i := by
      refine ⟨Nat.one_le_iff_ne_zero.1 hserves.mem.1, ?_⟩
      have hbusy := hplaced.busy
      rw [Kernel.ctx, hcurrent] at hbusy
      rcases hbusy with heq | heq <;> rw [heq] <;> decide
    have hpid : k.ctx.pid = i := by
      rw [Kernel.ctx, hcurrent]
      exact h.pid_eq i hlive
    have hfirst := hserves.first p hbounds hready
    have hlast := (gap_eq_pred hnumber hserves.mem).2 (Or.inl hpid.symm)
    have hlt := gap_lt hnumber hbounds
    have hsame := gap_inj hnumber hserves.mem hbounds (by omega)
    exact hwaits.2 (hcurrent.trans (congrArg some (Fin.ext hsame)))
  · exact hnone p hbounds hready

theorem countSleep_of_ready {ctx : ExecContext} (hready : ctx.state = .ready) : ctx.countSleep = ctx := by
  unfold ExecContext.countSleep
  exact if_neg fun hand ↦ ProcessState.noConfusion (hready.symm.trans hand.1)

/-- A tick serves another context when a process waits, ready, or stops the run. -/
theorem Table.tick_serves (h : Table k) (hruns : k.Runs) (hp : p.val ≠ 0) (hwaits : ReadyAside p k)
    (hruns' : (Kernel.step .tick k).Runs) : (Kernel.step .tick k).dispatches ≠ k.dispatches := by
  have hgrows : ∀ {next : CtxPtr} {k₀ k' : Kernel}, Dispatched next k₀ k' → k₀.dispatches = k.dispatches →
      k'.dispatches ≠ k.dispatches := by
    intro next k₀ k' hdispatched hlog hsame
    have hlength := congrArg List.length (hdispatched.dispatches_eq.symm.trans hsame)
    rw [hlog, List.length_cons] at hlength
    omega
  have hmoves := h.moves .tick
  generalize Kernel.step .tick k = k' at *
  cases hmoves with
  | rest _ no_tick => exact absurd ⟨rfl, hruns⟩ no_tick
  | launch mode => exact absurd mode hruns.ne_shell
  | turn _ event_ne => exact absurd rfl event_ne
  | leave mode _ _ leaves =>
    cases leaves with
    | @exit k₁ child left =>
      rcases doExit_cases k₁ with ⟨-, hdispatched⟩ | ⟨-, hlast⟩
      · exact hgrows hdispatched left.dispatches_eq
      · rw [hlast] at hruns'
        exact absurd rfl hruns'.ne_shell
    | stop stopped => exact absurd stopped (by rcases hruns' with heq | heq <;> rw [heq] <;> exact id)
  | @tick k₁ mode _ _ works swapper =>
    obtain ⟨htable, hmode₁⟩ := h.ticked mode works swapper
    have hrecord : k₁.ctxs (some p) = (k.ctxs (some p)).countSleep :=
      works.others p hwaits.2.symm (Option.some_ne_none p)
    have hwaits₁ : ReadyAside p k₁ := by
      refine ⟨?_, works.current_eq ▸ hwaits.2⟩
      rw [hrecord, countSleep_of_ready hwaits.1]
      exact hwaits.1
    rcases reschedule_cases (htable.placed (Runs.ne_shell hmode₁)).cr3_eq with ⟨hstay, -⟩ | ⟨-, hdispatched⟩
    · exact absurd hstay (htable.pick_ne_current hmode₁ hp hwaits₁)
    · exact hgrows hdispatched works.dispatches_eq

/-- A process aside stays so or gets the processor, and is closer to it after a tick of a run that goes on. -/
theorem Table.aside_step (h : Table k) (hruns : k.Runs) (haside : Aside p k) (event : Event)
    (hruns' : (Kernel.step event k).Runs) (hne' : (Kernel.step event k).current ≠ some p) :
    Aside p (Kernel.step event k) ∧
      patience p (Kernel.step event k) + (if event = .tick then 1 else 0) ≤ patience p k := by
  have hbounds : 1 ≤ p.val ∧ p.val ≤ 15 := ⟨Nat.one_le_iff_ne_zero.2 haside.ne_swapper, Nat.le_of_lt_succ p.isLt⟩
  have hstays : Stays p (counted event k p) (Kernel.step event k) :=
    (h.other haside.live haside.current_ne event).resolve_right fun henters ↦ hne' henters.current_eq
  have hrecord := hstays.record_eq
  rcases haside.state with hready | ⟨hwaiting, hticks⟩
  · -- the scan comes closer with each dispatch
    have hsame : counted event k p = k.ctxs (some p) := by
      unfold counted
      split
      · exact countSleep_of_ready hready
      · rfl
    rw [hsame] at hrecord
    have hready' : ((Kernel.step event k).ctxs (some p)).state = .ready := by rw [hrecord, hready]
    refine ⟨⟨haside.ne_swapper, hne', Or.inl hready'⟩, ?_⟩
    unfold patience
    rw [if_pos hready, if_pos hready']
    have hwaits : ReadyAside p k := ⟨hready, haside.current_ne⟩
    rcases h.served_step haside.ne_swapper hwaits event with ⟨hlog, hpid⟩ | ⟨d, i, -, -, -, hcurrent, hpid, hgap⟩
    · rw [hpid hruns'.ne_shell, if_neg]
      rintro rfl
      exact h.tick_serves hruns haside.ne_swapper hwaits hruns' hlog
    · have hcloser := hgap fun heq ↦ hne' (heq ▸ hcurrent)
      rw [hpid]
      split <;> omega
  · have hnot : (k.ctxs (some p)).state ≠ .ready := by
      rw [hwaiting]
      decide
    have hgap := gap_lt ((h.after event).number_le hruns'.ne_shell) hbounds
    by_cases htick : event = .tick
    · rw [counted, if_pos ⟨htick, hruns⟩] at hrecord
      by_cases hlast : (k.ctxs (some p)).ticksToSleep = 1
      · have hready' : ((Kernel.step event k).ctxs (some p)).state = .ready := by
          rw [hrecord, countSleep_of_one hwaiting hlast]
        refine ⟨⟨haside.ne_swapper, hne', Or.inl hready'⟩, ?_⟩
        unfold patience
        rw [if_pos hready', if_neg hnot, if_pos htick]
        omega
      · obtain ⟨hwaiting', hticks'⟩ := countSleep_of_two_le hwaiting (by omega)
        rw [← hrecord] at hwaiting' hticks'
        refine ⟨⟨haside.ne_swapper, hne', Or.inr ⟨hwaiting', by omega⟩⟩, ?_⟩
        unfold patience
        rw [if_neg (by rw [hwaiting']; decide), if_neg hnot, if_pos htick]
        omega
    · rw [counted, if_neg fun hticks ↦ htick hticks.1] at hrecord
      rw [← hrecord] at hwaiting hticks
      refine ⟨⟨haside.ne_swapper, hne', Or.inr ⟨hwaiting, hticks⟩⟩, ?_⟩
      unfold patience
      rw [hrecord, if_neg htick, if_neg hnot, if_neg hnot]

/-- While others have the processor. -/
def GoesOnWithout (p : Fin maxProcesses) (k : Kernel) : Prop := k.current ≠ some p ∧ k.Runs

instance (p : Fin maxProcesses) (k : Kernel) : Decidable (GoesOnWithout p k) := by
  unfold GoesOnWithout
  infer_instance

theorem Table.ticks_le (h : Table k) (haside : Aside p k)
    (hruns : Along Kernel.step (fun k _ ↦ GoesOnWithout p k) k events) :
    countAlong Kernel.step (fun event _ ↦ event = .tick) k events ≤ patience p k := by
  refine hruns.countAlong_le (I := fun k ↦ Table k ∧ Aside p k) (And.intro h haside) (fun k _ ↦ patience_pos p k) ?_
  intro k event event' hk hgoes hgoes'
  obtain ⟨haside', hle⟩ := hk.1.aside_step hgoes.2 hk.2 event hgoes'.2 hgoes'.1
  exact ⟨⟨hk.1.after event, haside'⟩, hle⟩

theorem Table.patience_le (h : Table k) (haside : Aside p k) (hready : (k.ctxs (some p)).state = .ready) :
    patience p k ≤ 15 := by
  have hshell : k.mode ≠ .shell := fun hshell ↦ (h.empty hshell).2 p haside.live
  have hgap := gap_lt (h.number_le hshell) ⟨Nat.one_le_iff_ne_zero.2 haside.ne_swapper, Nat.le_of_lt_succ p.isLt⟩
  unfold patience
  rw [if_pos hready]
  exact hgap

theorem Table.record_aside_step (h : Table k) (hlive : Live k.ctxs p)
    (haside : Along Kernel.step (fun k _ ↦ k.current ≠ some p) k events)
    (hend : (Foundation.run Kernel.step k events).current ≠ some p) :
    (Foundation.run Kernel.step k events).ctxs (some p) =
      ExecContext.countSleep^[countAlong Kernel.step Ticks k events] (k.ctxs (some p)) := by
  induction events generalizing k with
  | nil => rfl
  | cons event events ih =>
    obtain ⟨hne, haside'⟩ := along_cons_iff.1 haside
    have hne' : (Kernel.step event k).current ≠ some p := by
      cases events with
      | nil => exact hend
      | cons event' events => exact (along_cons_iff.1 haside').1
    have hrecord := ((h.other hlive hne event).resolve_right fun henters ↦ hne' henters.current_eq).record_eq
    have hlive' : Live (Kernel.step event k).ctxs p := by
      refine ⟨hlive.1, ?_⟩
      rw [hrecord]
      exact counted_live event hlive
    have hrest := ih (h.after event) hlive' haside' hend
    rw [hrecord] at hrest
    rw [run_cons, hrest, countAlong]
    unfold counted
    split
    · rw [Nat.add_comm, Function.iterate_succ_apply]
    · rw [Nat.zero_add]

end GemOS
