import GemOS.Foundation.Rotation
import GemOS.Process.Kernel

/-!
# Choosing and dispatching a context

`pick_next_context` scans the process table from the slot after the given context, wrapping from the
last slot to slot 1, and falls back to the swapper in slot 0. `schedule` dispatches the context it is
given and never returns to its caller; `do_exit` and `do_cleanup` end a process and, with the last one,
go back to the shell.
-/

namespace GemOS

open Foundation Memory

/-- The loop of `pick_next_context` from `pid` on; sixteen rounds always suffice. -/
def pickFrom (ctxs : CtxPtr → ExecContext) (self : ℕ) : ℕ → ℕ → CtxPtr
  | 0, _ => getCtxByPid 0
  | rounds + 1, pid =>
    if pid = 0 then getCtxByPid 0
    else if (ctxs (getCtxByPid pid)).state = .ready then getCtxByPid pid
    else
      let next := if pid + 1 = self + 1 then 0 else pid + 1
      if next = maxProcesses then
        if self = 0 then getCtxByPid 0 else pickFrom ctxs self rounds 1
      else pickFrom ctxs self rounds next

/-- `pick_next_context`. -/
def pickNextContext (ctxs : CtxPtr → ExecContext) (p : CtxPtr) : CtxPtr :=
  let self := (ctxs p).pid
  pickFrom ctxs self maxProcesses (if self + 1 = maxProcesses then 1 else self + 1)

/-- The context with this number is ready. -/
def ReadyAt (ctxs : CtxPtr → ExecContext) (pid : ℕ) : Prop := (ctxs (getCtxByPid pid)).state = .ready

theorem readyAt_iff (ctxs : CtxPtr → ExecContext) (i : Fin maxProcesses) :
    ReadyAt ctxs i ↔ (ctxs (some i)).state = .ready := by
  unfold ReadyAt getCtxByPid
  rw [dif_pos i.isLt]

theorem pickFrom_zero (ctxs : CtxPtr → ExecContext) (self rounds : ℕ) :
    pickFrom ctxs self rounds 0 = swapper := by
  cases rounds <;> rfl

/-- The scan from `pid` on, when every ready context still lies ahead; by induction on the rounds left. -/
theorem pickFrom_spec (ctxs : CtxPtr → ExecContext) {self : ℕ} (hself : self ≤ 15) (rounds pid : ℕ)
    (hpid : 1 ≤ pid ∧ pid ≤ 15) (hrounds : 15 ≤ rounds + gap 15 self pid)
    (hahead : ∀ i, 1 ≤ i ∧ i ≤ 15 → ReadyAt ctxs i → gap 15 self pid ≤ gap 15 self i) :
    (∃ j, pickFrom ctxs self rounds pid = getCtxByPid j ∧ ServesNext 15 (ReadyAt ctxs) self j) ∨
      pickFrom ctxs self rounds pid = swapper ∧ ∀ i, 1 ≤ i ∧ i ≤ 15 → ¬ ReadyAt ctxs i := by
  induction rounds generalizing pid with
  | zero =>
    have hlt := gap_lt hself hpid
    omega
  | succ rounds ih =>
    have hlt := gap_lt hself hpid
    rw [pickFrom, if_neg (by omega)]
    by_cases hready : (ctxs (getCtxByPid pid)).state = .ready
    · rw [if_pos hready]
      exact Or.inl ⟨pid, rfl, hpid, hready, hahead⟩
    have hfurther : ∀ i, 1 ≤ i ∧ i ≤ 15 → ReadyAt ctxs i → gap 15 self pid + 1 ≤ gap 15 self i := by
      intro i hi hreadyi
      apply lt_of_le_of_ne (hahead i hi hreadyi)
      intro heq
      exact hready (gap_inj hself hpid hi heq ▸ hreadyi)
    rw [if_neg hready]
    simp only
    by_cases hlast : gap 15 self pid + 1 = 15
    · refine Or.inr ⟨?_, fun i hi hreadyi ↦ ?_⟩
      · rcases (gap_eq_pred hself hpid).1 hlast with heq | ⟨hzero, heq⟩
        · have hend : (if pid + 1 = self + 1 then 0 else pid + 1) = 0 := if_pos (by omega)
          rw [hend, if_neg (show 0 ≠ maxProcesses by decide)]
          exact pickFrom_zero ctxs self rounds
        · rw [heq, hzero]
          rfl
      · have := gap_lt hself hi
        have := hfurther i hi hreadyi
        omega
    · have hstep := gap_next hself hpid hlast
      have hother := (gap_eq_pred hself hpid).not.1 hlast
      have hend : (if pid + 1 = self + 1 then 0 else pid + 1) = pid + 1 := if_neg (by omega)
      rw [hend]
      by_cases hwrap : pid = 15
      · rw [if_pos (by rw [hwrap]; rfl), if_neg (by omega)]
        rw [if_pos hwrap] at hstep
        exact ih 1 (by omega) (by omega) (hstep ▸ hfurther)
      · rw [if_neg (by simp only [maxProcesses]; omega)]
        rw [if_neg hwrap] at hstep
        exact ih (pid + 1) (by omega) (by omega) (hstep ▸ hfurther)

/-- `pick_next_context` serves the first ready process behind the given context, the context itself
last, and falls back to the swapper when no process is ready. -/
theorem pickNextContext_spec (ctxs : CtxPtr → ExecContext) {p : CtxPtr} (hself : (ctxs p).pid < maxProcesses) :
    (∃ j, pickNextContext ctxs p = getCtxByPid j ∧ ServesNext 15 (ReadyAt ctxs) (ctxs p).pid j) ∨
      pickNextContext ctxs p = swapper ∧ ∀ i, 1 ≤ i ∧ i ≤ 15 → ¬ ReadyAt ctxs i := by
  have hle : (ctxs p).pid ≤ 15 := Nat.le_of_lt_succ hself
  have hfirst : gap 15 (ctxs p).pid (if (ctxs p).pid = 15 then 1 else (ctxs p).pid + 1) = 0 := gap_first (by decide)
  unfold pickNextContext
  simp only [show ((ctxs p).pid + 1 = maxProcesses) = ((ctxs p).pid = 15) by simp [maxProcesses]]
  apply pickFrom_spec ctxs hle
  · split <;> omega
  · exact Nat.le_add_right_of_le (by decide)
  · intro i _ _
    rw [hfirst]
    exact Nat.zero_le _

theorem pickNextContext_cases (ctxs : CtxPtr → ExecContext) {p : CtxPtr} (hself : (ctxs p).pid < maxProcesses) :
    pickNextContext ctxs p = swapper ∨
      ∃ i : Fin maxProcesses, i.val ≠ 0 ∧ pickNextContext ctxs p = some i ∧
        (ctxs (some i)).state = .ready := by
  rcases pickNextContext_spec ctxs hself with ⟨j, hpick, hserves⟩ | ⟨hpick, -⟩
  · have hj : j < maxProcesses := Nat.lt_succ_of_le hserves.mem.2
    have hget : getCtxByPid j = some ⟨j, hj⟩ := dif_pos hj
    refine Or.inr ⟨⟨j, hj⟩, ?_, hpick.trans hget, ?_⟩
    · exact Nat.one_le_iff_ne_zero.1 hserves.mem.1
    · rw [← hget]
      exact hserves.chosen
  · exact Or.inl hpick

/-- The `while` loop of `pick_next_context`, from `pid` on to the context that it returns. -/
inductive PickLoop (ctxs : CtxPtr → ExecContext) (self : ℕ) : ℕ → CtxPtr → Prop
  | done : PickLoop ctxs self 0 (getCtxByPid 0)
  | found {pid : ℕ} (running : pid ≠ 0) (ready : (ctxs (getCtxByPid pid)).state = .ready) :
      PickLoop ctxs self pid (getCtxByPid pid)
  | leave {pid : ℕ} (running : pid ≠ 0) (passed : (ctxs (getCtxByPid pid)).state ≠ .ready)
      (wraps : (if pid + 1 = self + 1 then 0 else pid + 1) = maxProcesses) (special : self = 0) :
      PickLoop ctxs self pid (getCtxByPid 0)
  | wrap {pid : ℕ} {next : CtxPtr} (running : pid ≠ 0) (passed : (ctxs (getCtxByPid pid)).state ≠ .ready)
      (wraps : (if pid + 1 = self + 1 then 0 else pid + 1) = maxProcesses) (usual : self ≠ 0)
      (rest : PickLoop ctxs self 1 next) : PickLoop ctxs self pid next
  | onward {pid : ℕ} {next : CtxPtr} (running : pid ≠ 0) (passed : (ctxs (getCtxByPid pid)).state ≠ .ready)
      (inside : (if pid + 1 = self + 1 then 0 else pid + 1) ≠ maxProcesses)
      (rest : PickLoop ctxs self (if pid + 1 = self + 1 then 0 else pid + 1) next) : PickLoop ctxs self pid next

/-- The loop ends within the rounds that are left, with the context of `pickFrom`. -/
theorem pickFrom_loop (ctxs : CtxPtr → ExecContext) {self : ℕ} (hself : self ≤ 15) (rounds pid : ℕ)
    (hpid : 1 ≤ pid ∧ pid ≤ 15) (hrounds : 15 ≤ rounds + gap 15 self pid) :
    PickLoop ctxs self pid (pickFrom ctxs self rounds pid) := by
  induction rounds generalizing pid with
  | zero =>
    have hlt := gap_lt hself hpid
    omega
  | succ rounds ih =>
    have hrunning : pid ≠ 0 := by omega
    rw [pickFrom, if_neg hrunning]
    by_cases hready : (ctxs (getCtxByPid pid)).state = .ready
    · rw [if_pos hready]
      exact .found hrunning hready
    rw [if_neg hready]
    simp only
    by_cases hlast : gap 15 self pid + 1 = 15
    · rcases (gap_eq_pred hself hpid).1 hlast with heq | ⟨hzero, heq⟩
      · have hend : (if pid + 1 = self + 1 then 0 else pid + 1) = 0 := if_pos (by omega)
        have hinside : (if pid + 1 = self + 1 then 0 else pid + 1) ≠ maxProcesses := by
          rw [hend]
          decide
        rw [if_neg hinside]
        refine .onward hrunning hready hinside ?_
        rw [hend, pickFrom_zero]
        exact .done
      · have hwraps : (if pid + 1 = self + 1 then 0 else pid + 1) = maxProcesses := by
          rw [heq, hzero]
          rfl
        rw [if_pos hwraps, if_pos hzero]
        exact .leave hrunning hready hwraps hzero
    · have hstep := gap_next hself hpid hlast
      have hother := (gap_eq_pred hself hpid).not.1 hlast
      have hend : (if pid + 1 = self + 1 then 0 else pid + 1) = pid + 1 := if_neg (by omega)
      by_cases hwrap : pid = 15
      · have hwraps : (if pid + 1 = self + 1 then 0 else pid + 1) = maxProcesses := by
          rw [hend, hwrap]
          rfl
        rw [if_pos hwraps, if_neg (by omega)]
        rw [if_pos hwrap] at hstep
        exact .wrap hrunning hready hwraps (by omega) (ih 1 (by omega) (by omega))
      · have hinside : (if pid + 1 = self + 1 then 0 else pid + 1) ≠ maxProcesses := by
          rw [hend]
          simp only [maxProcesses]
          omega
        rw [if_neg hinside]
        rw [if_neg hwrap] at hstep
        refine .onward hrunning hready hinside ?_
        rw [hend]
        exact ih (pid + 1) (by omega) (by omega)

instance (ctxs : CtxPtr → ExecContext) : DecidablePred (ReadyAt ctxs) := fun pid ↦ by
  unfold ReadyAt
  infer_instance

/-- The first ready context in the cyclic order behind `pid`, or the swapper. -/
def firstReady (ctxs : CtxPtr → ExecContext) (pid : ℕ) : CtxPtr :=
  match (scanOrder (maxProcesses - 1) pid).find? fun place ↦ decide (ReadyAt ctxs place) with
  | some place => getCtxByPid place
  | none => swapper

/-- `pick_next_context` returns from its loop with the first ready context behind the given one, and with the swapper
exactly when no process is ready. -/
theorem pickNextContext_first (ctxs : CtxPtr → ExecContext) (p : CtxPtr) (hself : (ctxs p).pid < maxProcesses) :
    PickLoop ctxs (ctxs p).pid (if (ctxs p).pid + 1 = maxProcesses then 1 else (ctxs p).pid + 1)
      (pickNextContext ctxs p) ∧
      pickNextContext ctxs p = firstReady ctxs (ctxs p).pid ∧
      (pickNextContext ctxs p = swapper ↔ ∀ place ∈ scanOrder (maxProcesses - 1) (ctxs p).pid,
        ¬ ReadyAt ctxs place) := by
  have hle : (ctxs p).pid ≤ 15 := Nat.le_of_lt_succ hself
  refine ⟨?_, ?_⟩
  · apply pickFrom_loop ctxs hle
    · simp only [show ((ctxs p).pid + 1 = maxProcesses) = ((ctxs p).pid = 15) by simp [maxProcesses]]
      constructor <;> split <;> omega
    · exact Nat.le_add_right_of_le (by decide)
  unfold firstReady
  rcases pickNextContext_spec ctxs hself with ⟨j, hpick, hserves⟩ | ⟨hpick, hnone⟩
  · have hfind := hserves.find?_eq hle
    have hj : j < maxProcesses := Nat.lt_succ_of_le hserves.mem.2
    have hget : getCtxByPid j = some ⟨j, hj⟩ := dif_pos hj
    change (scanOrder (maxProcesses - 1) _).find? _ = _ at hfind
    rw [hfind]
    refine ⟨hpick, iff_of_false (fun hswapper ↦ ?_) fun hnone ↦ ?_⟩
    · rw [hpick, hget, swapper_eq] at hswapper
      have hzero : j = 0 := congrArg Fin.val (Option.some.inj hswapper)
      exact absurd hserves.mem.1 (by omega)
    · exact hnone j ((mem_scanOrder hle).2 hserves.mem) hserves.chosen
  · have hnone' : ∀ place ∈ scanOrder (maxProcesses - 1) (ctxs p).pid, ¬ ReadyAt ctxs place := fun place hplace ↦
      hnone place ((mem_scanOrder hle).1 hplace)
    have hfind : ((scanOrder (maxProcesses - 1) (ctxs p).pid).find? fun place ↦ decide (ReadyAt ctxs place)) = none :=
      List.find?_eq_none.2 fun place hplace ↦ by simpa using hnone' place hplace
    rw [hfind]
    exact ⟨hpick, iff_of_true hpick hnone'⟩

/-- Behind the last slot the scan starts over. -/
theorem pickNextContext_first_last :
    let ctxs : CtxPtr → ExecContext := fun p ↦
      { ExecContext.zero with pid := 15, state := if p = some ⟨3, by decide⟩ then .ready else .waiting }
    PickLoop ctxs 15 (if 15 + 1 = maxProcesses then 1 else 15 + 1) (pickNextContext ctxs none) ∧
      pickNextContext ctxs none = firstReady ctxs 15 ∧
      (pickNextContext ctxs none = swapper ↔ ∀ place ∈ scanOrder (maxProcesses - 1) 15, ¬ ReadyAt ctxs place) := by
  intro ctxs
  exact pickNextContext_first ctxs none (show 15 < maxProcesses by decide)

namespace Kernel

/-- `schedule`: the state in which the chosen context runs. -/
def schedule (p : CtxPtr) (k : Kernel) : Kernel :=
  let k₁ := k.makeCurrent p
  let k₂ := if (k₁.ctxs p).pgd = k₁.cr3 then k₁ else k₁.loadCr3 (k₁.ctxs p).pgd
  k₂.iret (k.ctxs p).regs

/-- `do_cleanup`: the state at the shell prompt. -/
def doCleanup (k : Kernel) : Kernel :=
  let freed := osPfnFree .osPt k.ctx.osStackPfn k.mem
  let unmapped := removeApicMapping k.ctx.pgd freed
  let cleaned := ptCleanup 4 k.ctx.pgd unmapped
  let released := osPfnFree .osPt cleaned.osPmdPfn cleaned
  let k₁ := { k with mem := released }.setState k.current .unused
  { k₁ with current := none, cr3 := swapperPgd, mode := .shell }

/-- Some slot from 1 on is in use. -/
def procExist (k : Kernel) : Bool :=
  (List.range' 1 (maxProcesses - 1)).any fun pid ↦ decide ((k.ctxs (getCtxByPid pid)).state ≠ .unused)

/-- The first part of `do_exit`: the kernel stack is freed, the record given up. -/
def retire (k : Kernel) : Kernel :=
  { { k with mem := osPfnFree .osPt k.ctx.osStackPfn k.mem }.setState k.current .unused with
    stats.numProcesses := (k.stats.numProcesses + 2 ^ 64 - 1) % 2 ^ 64 }

/-- `do_exit`: the state in which another context or the shell runs. -/
def doExit (k : Kernel) : Kernel :=
  if k.retire.procExist then k.retire.schedule (pickNextContext k.retire.ctxs k.current)
  else k.retire.doCleanup

theorem procExist_iff (k : Kernel) : k.procExist = true ↔ ∃ i, Live k.ctxs i := by
  unfold procExist
  simp only [List.any_eq_true, List.mem_range'_1, decide_eq_true_eq]
  constructor
  · rintro ⟨pid, ⟨hlow, hhigh⟩, hstate⟩
    have hpid : pid < maxProcesses := by simpa [maxProcesses] using hhigh
    rw [getCtxByPid, dif_pos hpid] at hstate
    exact ⟨⟨pid, hpid⟩, by simp only [ne_eq]; omega, hstate⟩
  · rintro ⟨i, hi, hstate⟩
    refine ⟨i, ⟨by omega, by simpa [maxProcesses] using i.isLt⟩, ?_⟩
    rwa [getCtxByPid, dif_pos i.isLt]

end Kernel

end GemOS
