import GemOS.Process.Parked
import GemOS.Process.StrayStores

/-!
# The order of dispatches

The kernel logs whom it dispatches. Only ready contexts are dispatched, the swapper only when no process is
ready, and control goes back to the shell exactly when the last process ends. While a process waits for
the processor, every dispatch brings the scan closer to it, so nobody is dispatched twice before it.
-/

namespace GemOS

open Foundation Memory Kernel

variable {event : Event} {k k₁ k' : Kernel} {i p : Fin maxProcesses}

/-- The process is ready and waits for the processor. -/
def ReadyAside (p : Fin maxProcesses) (k : Kernel) : Prop :=
  (k.ctxs (some p)).state = .ready ∧ k.current ≠ some p

instance (p : Fin maxProcesses) (k : Kernel) : Decidable (ReadyAside p k) := by
  unfold ReadyAside
  infer_instance

theorem ReadyAside.live (h : ReadyAside p k) (hp : p.val ≠ 0) : Live k.ctxs p :=
  ⟨hp, by rw [h.1]; decide⟩

theorem Table.number_le (h : Table k) (hmode : k.mode ≠ .shell) : k.ctx.pid ≤ 15 :=
  Nat.le_of_lt_succ (h.pid_lt hmode)

/-- One event while a process waits, ready: either nobody is dispatched, or the one who is comes before
it in the order of the scan. -/
theorem Table.served_step (h : Table k) (hp : p.val ≠ 0) (hwaits : ReadyAside p k) (event : Event) :
    (Kernel.step event k).dispatches = k.dispatches ∧
        ((Kernel.step event k).mode ≠ .shell → (Kernel.step event k).ctx.pid = k.ctx.pid) ∨
      ∃ d i, (Kernel.step event k).dispatches = d :: k.dispatches ∧ d.next = some i ∧ i.val ≠ 0 ∧
        (Kernel.step event k).current = some i ∧ (Kernel.step event k).ctx.pid = i ∧
        (i ≠ p → gap 15 i p < gap 15 k.ctx.pid p) := by
  have hlive := hwaits.live hp
  have hshell : k.mode ≠ .shell := fun heq ↦ (h.empty heq).2 p hlive
  have htable := h.after event
  have hhandover := h.handover event
  generalize Kernel.step event k = k' at *
  cases hhandover with
  | keep dispatches_eq current_eq stays =>
    refine Or.inl ⟨dispatches_eq, fun hshell' ↦ ?_⟩
    have hcurrent := (current_eq.resolve_left hshell).resolve_left hshell'
    obtain ⟨i, hi, hpid⟩ := h.current_pid hshell
    obtain ⟨i', hi', hpid'⟩ := htable.current_pid hshell'
    obtain rfl := Option.some.inj (hi.symm.trans (hcurrent.symm.trans hi'))
    rw [hpid, hpid']
  | @give k₀ _ next idle picked dispatched dispatches_eq others =>
    have hready : ReadyAt k₀.ctxs p := by
      rw [readyAt_iff, others p hlive hwaits.2, counted]
      split
      · rw [countSleep_of_ne (by rw [hwaits.1]; decide)]
        exact hwaits.1
      · exact hwaits.1
    have hbounds : ∀ {i : Fin maxProcesses}, i.val ≠ 0 → 1 ≤ i.val ∧ i.val ≤ 15 := fun {i} hi ↦
      ⟨Nat.one_le_iff_ne_zero.2 hi, Nat.le_of_lt_succ i.isLt⟩
    rcases picked with ⟨i, rfl, hserves⟩ | ⟨-, hnone⟩
    · have hi : i.val ≠ 0 := Nat.one_le_iff_ne_zero.1 hserves.mem.1
      have hchosen : (k₀.ctxs (some i)).state = .ready := (readyAt_iff _ i).1 hserves.chosen
      refine Or.inr ⟨⟨some i, (k₀.ctxs (some i)).state, k₀.anyReady⟩, i, ?_, rfl, hi, dispatched.current_eq, ?_,
        fun hne ↦ ?_⟩
      · rw [dispatched.dispatches_eq, dispatches_eq]
      · rw [Kernel.ctx, dispatched.current_eq, dispatched.ctxs_eq, if_pos rfl]
        exact idle.pid_eq i ⟨hi, by rw [hchosen]; decide⟩
      · apply hserves.gap_lt (h.number_le hshell) (hbounds hp) hready
        exact fun heq ↦ hne (Fin.ext heq)
    · exact absurd hready (hnone p (hbounds hp))

/-- Whom a run dispatches while a process waits, ready: all different, and each comes before it in the order
of the scan; by induction on the run. -/
theorem Table.served (h : Table k) (hp : p.val ≠ 0) {events : List Event}
    (hwaits : Along Kernel.step (fun s _ ↦ ReadyAside p s) k events) :
    ∃ served : List Dispatch, (run Kernel.step k events).dispatches = served ++ k.dispatches ∧
      (served.map Dispatch.next).Nodup ∧
      ∀ d ∈ served, ∃ i : Fin maxProcesses, d.next = some i ∧ i.val ≠ 0 ∧
        (i ≠ p → gap 15 i p < gap 15 k.ctx.pid p) := by
  induction events generalizing k with
  | nil => exact ⟨[], rfl, List.nodup_nil, fun d hd ↦ absurd hd List.not_mem_nil⟩
  | cons event events ih =>
    have haside : ReadyAside p k := by
      cases hwaits with
      | cons head _ => exact head
    have htail : Along Kernel.step (fun s _ ↦ ReadyAside p s) (Kernel.step event k) events := by
      cases hwaits with
      | cons _ tail => exact tail
    obtain ⟨served, hserved, hnodup, hcloser⟩ := ih (h.after event) htail
    have hmode : events ≠ [] → (Kernel.step event k).mode ≠ .shell := by
      intro hne hshell
      cases htail with
      | nil => exact hne rfl
      | cons head _ => exact ((h.after event).empty hshell).2 p (head.live hp)
    have hempty : events = [] → served = [] := by
      rintro rfl
      exact List.append_left_eq_self.1 hserved.symm
    rw [run_cons, hserved]
    rcases h.served_step hp haside event with ⟨hlog, hpid⟩ | ⟨d, i, hlog, hnext, hi, hcurrent, hpid, hgap⟩
    · refine ⟨served, by rw [hlog], hnodup, fun d hd ↦ ?_⟩
      have hne : events ≠ [] := by
        intro hnil
        rw [hempty hnil] at hd
        exact List.not_mem_nil hd
      rw [← hpid (hmode hne)]
      exact hcloser d hd
    · have hnot : i = p → served = [] := by
        rintro rfl
        apply hempty
        cases htail with
        | nil => rfl
        | cons head _ => exact absurd hcurrent head.2
      refine ⟨served ++ [d], by rw [hlog, List.append_assoc]; rfl, ?_, fun d' hd' ↦ ?_⟩
      · rw [List.map_append, List.nodup_append]
        refine ⟨hnodup, List.nodup_singleton _, ?_⟩
        intro next hmem next' hmem' heq
        obtain ⟨d', hd', rfl⟩ := List.mem_map.1 hmem
        obtain rfl := List.mem_singleton.1 hmem'
        obtain ⟨j, hj, -, hlt⟩ := hcloser d' hd'
        obtain rfl := Option.some.inj (hj.symm.trans (heq.trans hnext))
        by_cases heqp : j = p
        · rw [hnot heqp] at hd'
          exact List.not_mem_nil hd'
        · have hself := hlt heqp
          rw [hpid] at hself
          exact lt_irrefl _ hself
      · rcases List.mem_append.1 hd' with hmem | hmem
        · obtain ⟨j, hj, hjzero, hlt⟩ := hcloser d' hmem
          have hne : i ≠ p := by
            intro heq
            rw [hnot heq] at hmem
            exact List.not_mem_nil hmem
          rw [hpid] at hlt
          exact ⟨j, hj, hjzero, fun hjp ↦ (hlt hjp).trans (hgap hne)⟩
        · obtain rfl := List.mem_singleton.1 hmem
          exact ⟨i, hnext, hi, hgap⟩

theorem anyReady_iff (k : Kernel) : k.anyReady = true ↔ ∃ i : ℕ, (1 ≤ i ∧ i ≤ 15) ∧ ReadyAt k.ctxs i := by
  unfold anyReady
  rw [List.any_eq_true]
  constructor
  · rintro ⟨i, hmem, hready⟩
    rw [List.mem_range'_1] at hmem
    exact ⟨i, ⟨hmem.1, Nat.le_of_lt_succ hmem.2⟩, of_decide_eq_true (p := (k.ctxs (getCtxByPid i)).state = _) hready⟩
  · rintro ⟨i, hi, hready⟩
    refine ⟨i, List.mem_range'_1.2 ⟨hi.1, Nat.lt_succ_of_le hi.2⟩, ?_⟩
    exact decide_eq_true (p := (k.ctxs (getCtxByPid i)).state = _) hready

/-- A ready context was dispatched, and a process if one was ready. -/
def Dispatch.Right (d : Dispatch) : Prop := d.state = .ready ∧ (d.next = swapper → d.ready = false)

theorem Picked.right {start : ℕ} {next : CtxPtr} (h : Picked k.ctxs start next)
    (hidle : Idle k.ctxs) : Dispatch.Right ⟨next, (k.ctxs next).state, k.anyReady⟩ := by
  rcases h with ⟨i, rfl, hserves⟩ | ⟨rfl, hnone⟩
  · refine ⟨(readyAt_iff _ i).1 hserves.chosen, fun heq ↦ ?_⟩
    exact absurd heq (Live.some_ne_swapper (Nat.one_le_iff_ne_zero.1 hserves.mem.1))
  · refine ⟨hidle.swapper_ready, fun _ ↦ ?_⟩
    rw [← Bool.not_eq_true, anyReady_iff]
    rintro ⟨i, hi, hready⟩
    exact hnone i hi hready

theorem Table.dispatches_right (h : Table k) (hright : ∀ d ∈ k.dispatches, d.Right) (event : Event) :
    ∀ d ∈ (Kernel.step event k).dispatches, d.Right := by
  have hhandover := h.handover event
  generalize Kernel.step event k = k' at *
  cases hhandover with
  | keep dispatches_eq =>
    rw [dispatches_eq]
    exact hright
  | give idle picked dispatched dispatches_eq =>
    rw [dispatched.dispatches_eq, dispatches_eq]
    intro d hd
    rcases List.mem_cons.1 hd with rfl | hmem
    · exact picked.right idle
    · exact hright d hmem

theorem Reachable.dispatches_right (h : Reachable k) : ∀ d ∈ k.dispatches, d.Right := by
  obtain ⟨phys, apicBase, wp, null, events, rfl⟩ := h
  have hinv : ∀ k : Kernel, Table k → (∀ d ∈ k.dispatches, d.Right) →
      ∀ d ∈ (Foundation.run Kernel.step k events).dispatches, d.Right := by
    induction events with
    | nil => exact fun k _ hright ↦ hright
    | cons event events ih => exact fun k h hright ↦ ih _ (h.after event) (h.dispatches_right hright event)
  exact hinv _ (table_boot phys apicBase wp null) fun d hd ↦ absurd hd List.not_mem_nil

theorem Dispatched.mode_ne_shell {next : CtxPtr} (h : Dispatched next k k') : k'.mode ≠ .shell := by
  rcases h.mode_eq with heq | heq
  · rw [heq]
    decide
  · rw [heq]
    split <;> decide

/-- `do_exit` goes back to the shell exactly when no other process is left. -/
theorem doExit_shell_iff (k : Kernel) :
    (k.doExit.mode = .shell ↔ ∀ j, some j ≠ k.current → ¬ Live k.ctxs j) ∧
      (k.doExit.mode = .shell → k.doExit = k.retire.doCleanup) := by
  rcases doExit_cases k with ⟨⟨j, hj⟩, hdispatched⟩ | ⟨hnone, hcleanup⟩
  · have hmode : k.doExit.mode ≠ .shell := hdispatched.mode_ne_shell
    refine ⟨⟨fun hshell ↦ absurd hshell hmode, fun hothers ↦ ?_⟩, fun hshell ↦ absurd hshell hmode⟩
    exact absurd ((retire_live k j).1 hj).2 (hothers j ((retire_live k j).1 hj).1)
  · refine ⟨⟨fun _ j hne hj ↦ hnone j ((retire_live k j).2 ⟨hne, hj⟩), fun _ ↦ ?_⟩, fun _ ↦ hcleanup⟩
    rw [hcleanup]
    rfl

/-- Control comes back to the shell only from `do_exit` of the current context. -/
theorem Table.shell_from_exit (h : Table k) (hmode : k.mode ≠ .shell) (event : Event)
    (hshell : (Kernel.step event k).mode = .shell) :
    ∃ k₁ : Kernel, k₁.current = k.current ∧ Kernel.step event k = k₁.doExit := by
  have hmoves := h.moves event
  generalize Kernel.step event k = k' at *
  have hleaves : ∀ {event k₀}, k₀.current = k.current → Leaves event k₀ k' →
      ∃ k₁ : Kernel, k₁.current = k.current ∧ k' = k₁.doExit := by
    intro event k₀ hcurrent hleaves
    cases hleaves with
    | @exit k₁ _ hleft => exact ⟨k₁, hleft.current_eq.trans hcurrent, rfl⟩
    | stop stopped =>
      rw [hshell] at stopped
      exact stopped.elim
  cases hmoves with
  | rest => exact absurd hshell hmode
  | launch mode => exact absurd mode hmode
  | turn mode _ turn =>
    cases turn with
    | work _ works => exact absurd (works.mode_eq.symm.trans hshell) hmode
    | fork _ _ _ _ mode_eq => exact absurd (mode_eq.symm.trans hshell) hmode
    | clone _ _ _ mode_eq => exact absurd (mode_eq.symm.trans hshell) hmode
    | sleep => exact absurd hshell (dispatched_doSleep k).mode_ne_shell
    | leave leaves => exact hleaves rfl leaves
  | leave _ _ _ leaves => exact @hleaves _ k.accountSleep rfl leaves
  | @tick k₁ mode _ _ works swapper =>
    obtain ⟨htable, hmode₁⟩ := h.ticked mode works swapper
    have hshell₁ : k₁.mode ≠ .shell := by rcases hmode₁ with heq | heq <;> rw [heq] <;> decide
    rcases reschedule_cases (htable.placed hshell₁).cr3_eq with ⟨-, hstay⟩ | ⟨-, hdispatched⟩
    · rw [hstay] at hshell
      exact absurd hshell hshell₁
    · exact absurd hshell hdispatched.mode_ne_shell

theorem step_exit (hmode : k.mode = .user) (hcall : k.syscallRequested = some .exit) (peek : ℕ → ℕ) :
    step (.syscall peek) k = k.saveRegs.doExit := by
  rw [step_user hmode]
  apply Spec.final (P := fun k' ↦ k' = k.saveRegs.doExit)
  change Spec (doSyscall peek) k _ _
  unfold doSyscall
  apply Spec.read_bind
  apply Spec.update_bind
  rw [hcall]
  exact Spec.bind (Q := fun _ _ ↦ False) (Spec.leave rfl) fun _ _ ↦ False.elim

/-- Only ready contexts are dispatched, and the swapper only when no process is ready; control comes back
to the shell only from an exit, and from an exit exactly when no other process is left. -/
theorem Reachable.dispatches_and_exits_step (h : Reachable k) :
    (∀ d ∈ k.dispatches, d.state = .ready ∧ (d.next = swapper → d.ready = false)) ∧
      (∀ event, k.mode ≠ .shell → (Kernel.step event k).mode = .shell →
        ∃ k₁ : Kernel, k₁.current = k.current ∧ Kernel.step event k = k₁.doExit) ∧
      (∀ k₁ : Kernel, (k₁.doExit.mode = .shell ↔ ∀ j, some j ≠ k₁.current → ¬ Live k₁.ctxs j) ∧
        (k₁.doExit.mode = .shell → k₁.doExit = k₁.retire.doCleanup)) ∧
      ∀ peek, k.mode = .user → k.syscallRequested = some .exit →
        ((Kernel.step (.syscall peek) k).mode = .shell ↔ ∀ j, some j ≠ k.current → ¬ Live k.ctxs j) := by
  refine ⟨h.dispatches_right, fun event hmode ↦ h.table.shell_from_exit hmode event, doExit_shell_iff,
    fun peek hmode hcall ↦ ?_⟩
  have hsaved : ∀ j, some j ≠ k.current → (Live k.saveRegs.ctxs j ↔ Live k.ctxs j) := by
    intro j hj
    unfold Live
    rw [show k.saveRegs.ctxs (some j) = k.ctxs (some j) from
      k.updateCtx_of_ne (fun ctx ↦ ctx.saveRegs k.regs) hj]
  rw [step_exit hmode hcall, (doExit_shell_iff k.saveRegs).1]
  exact forall_congr' fun j ↦ imp_congr_right fun hj ↦ not_congr (hsaved j hj)

end GemOS
