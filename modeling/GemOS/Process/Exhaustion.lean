import GemOS.Process.Seats

/-!
# Running out of slots and frames

`do_fork` and `do_clone` do not look at what `get_new_ctx` and `os_pfn_alloc` return. With a full process table they
work on the record at address 0, with no frame left on frame 0; `do_clone` answers 0 in every case, `do_fork` the pid
field of the record it took, which is no negative number.
-/

namespace GemOS

open Foundation Memory

namespace Kernel

/-- The call returns a negative number and leaves the process table, what lies at address 0, the page lists and all
frames as they were. -/
def Refuses (call : Prog Kernel ℕ) (k : Kernel) : Prop :=
  ∃ result k', call k = .ret result k' ∧ 2 ^ 63 ≤ result ∧ k'.ctxs = k.ctxs ∧ k'.mem.pglists = k.mem.pglists ∧
    k'.mem.phys = k.mem.phys

variable {k : Kernel}

/-- The pid field of the record that `do_fork` takes is the number of a slot, or what lies at address 0. -/
theorem getNewCtx_pid (k : Kernel) :
    (k.getNewCtx.2.ctxs k.getNewCtx.1).pid < maxProcesses ∨
      k.getNewCtx.1 = none ∧ (k.getNewCtx.2.ctxs k.getNewCtx.1).pid = (k.ctxs none).pid := by
  rcases k.getNewCtx_cases with ⟨i, f, -, -, hpid, hnew⟩ | ⟨-, hnew⟩
  · left
    rw [hnew, updateCtx_self, hpid]
    exact i.isLt
  · right
    rw [hnew]
    exact ⟨rfl, rfl⟩

/-- The result of `do_fork` is the pid field of the record it took. -/
theorem doFork_result (k : Kernel) :
    Spec doFork k (fun pid _ ↦ pid = (k.getNewCtx.2.ctxs k.getNewCtx.1).pid) fun _ ↦ True := by
  unfold doFork
  apply Spec.call_bind
  apply Spec.read_bind
  apply Spec.update_bind
  refine ((copyMm_spec _ _).mono (fun _ _ _ ↦ trivial) fun _ _ ↦ trivial).bind (Q := fun _ _ ↦ True) ?_
  rintro _ k₁ -
  refine ((setupChildContext_spec _ k₁).mono (fun _ _ _ ↦ trivial) fun _ h ↦ h).bind (Q := fun _ _ ↦ True) ?_
  rintro _ _ -
  exact Spec.pure rfl

/-- The result of `do_clone` is 0. -/
theorem doClone_result (thFunc userStack : ℕ) (k : Kernel) :
    Spec (doClone thFunc userStack) k (fun result _ ↦ result = 0) fun _ ↦ False := by
  unfold doClone
  apply Spec.call_bind
  apply Spec.call_bind
  apply Spec.update_bind
  exact Spec.pure rfl

/-- With a full table `do_clone` makes the bytes at address 0 a ready context. -/
theorem doClone_full (hfull : ∀ j, (k.ctxs (some j)).state ≠ .unused) (thFunc userStack : ℕ) :
    Spec (doClone thFunc userStack) k (fun _ k' ↦ (k'.ctxs none).state = .ready) fun _ ↦ False := by
  have hnew : k.getNewCtx = (none, k) := by
    rcases k.getNewCtx_cases with ⟨i, -, hvacant, -⟩ | ⟨-, hnew⟩
    · exact absurd hvacant (hfull i)
    · exact hnew
  unfold doClone
  apply Spec.call_bind
  rw [hnew]
  apply Spec.call_bind
  apply Spec.update_bind
  refine Spec.pure ?_
  rw [updateCtx_self]
  exact (setNameBytes_seat _ 0 _).1.state_eq

theorem not_refuses_doFork (hnull : (k.ctxs none).pid < 2 ^ 32) : ¬ Refuses doFork k := by
  rintro ⟨result, k', hret, hnegative, -⟩
  have hresult := (doFork_result k).of_ret hret
  rcases k.getNewCtx_pid with hslot | ⟨-, hpid⟩
  · rw [← hresult] at hslot
    have hfew : maxProcesses ≤ 16 := le_rfl
    omega
  · omega

theorem not_refuses_doClone (thFunc userStack : ℕ) (k : Kernel) : ¬ Refuses (doClone thFunc userStack) k := by
  rintro ⟨result, k', hret, hnegative, -⟩
  have hresult := (doClone_result thFunc userStack k).of_ret hret
  omega

/-- In no state, with a full table or without a frame or otherwise, does `do_fork` or `do_clone` refuse. -/
theorem never_refuses (k : Kernel) (hnull : (k.ctxs none).pid < 2 ^ 32) :
    ¬ Refuses doFork k ∧ ∀ thFunc userStack, ¬ Refuses (doClone thFunc userStack) k :=
  ⟨not_refuses_doFork hnull, fun thFunc userStack ↦ not_refuses_doClone thFunc userStack k⟩

/-- Init and fourteen clones: every slot is taken. -/
def crowd : Kernel :=
  run step blankBoot (launchInit :: (List.replicate 14 (callEvents 9 codeStart stackStart)).flatten)

theorem never_refuses_crowd :
    ¬ Refuses doFork crowd ∧ ∀ thFunc userStack, ¬ Refuses (doClone thFunc userStack) crowd :=
  never_refuses crowd (by decide +kernel)

/-- In a full table neither call refuses; `do_clone` writes to address 0. -/
theorem crowd_not_refused :
    Reachable crowd ∧ crowd.mode = .user ∧ (∀ j, (crowd.ctxs (some j)).state ≠ .unused) ∧ ¬ Refuses doFork crowd ∧
      ¬ Refuses (doClone codeStart stackStart) crowd ∧
      (crowd.ctxs none).state = .unused ∧
      Spec (doClone codeStart stackStart) crowd (fun _ k' ↦ (k'.ctxs none).state = .ready) fun _ ↦ False := by
  have hfull : ∀ j, (crowd.ctxs (some j)).state ≠ .unused := by decide +kernel
  exact ⟨reachable_blankBoot _, by decide +kernel, hfull, not_refuses_doFork (by decide +kernel),
    not_refuses_doClone _ _ _, by decide +kernel, doClone_full hfull _ _⟩

end Kernel

end GemOS
