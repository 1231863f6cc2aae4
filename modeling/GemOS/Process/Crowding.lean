import GemOS.Memory.Filling
import GemOS.Process.Exhaustion

/-!
# Clones in a full process table

With every slot in use each `do_clone` still takes a frame for a kernel stack that no process gets. Nothing that is read
again changes but the page-table region, so that the state after any number of such calls is written down in one step.
-/

namespace GemOS

open Foundation Memory

namespace Kernel

variable {k : Kernel} {m : Memory} {first count : ℕ}

/-- A clone is asked for in a full table, with the registers already saved. -/
structure Crowded (k : Kernel) : Prop where
  mode_eq : k.mode = .user
  call_eq : k.syscallRequested = some .clone
  full : ∀ j, (k.ctxs (some j)).state ≠ .unused
  current_ne : k.current ≠ none
  saved : k.ctx.regs = k.regs
  result_eq : k.regs.rax = 0

theorem Crowded.saveRegs_eq (h : Crowded k) : k.saveRegs = { k with stats.syscalls := k.stats.syscalls + 1 } := by
  have hsaved : k.ctx.saveRegs k.regs = k.ctx := by rw [← h.saved, ExecContext.saveRegs]
  have hctxs : Function.update k.ctxs k.current (k.ctx.saveRegs k.regs) = k.ctxs := by
    rw [hsaved]
    exact Function.update_eq_self ..
  change { k with ctxs := Function.update k.ctxs k.current (k.ctx.saveRegs k.regs), stats := _ } = _
  rw [hctxs]
  rfl

/-- With a full table `do_clone` takes a frame and writes over the bytes at address 0. -/
theorem Crowded.step_clone (h : Crowded k) (peek : ℕ → ℕ) :
    step (.syscall peek) k =
      { k with
        mem := (osPfnAlloc .osPt k.mem).2
        ctxs := Function.update k.ctxs none
          ((cloneRecord k.ctx (osPfnAlloc .osPt k.mem).1 k.regs.rsi k.regs.rdx (k.ctxs none)).setNameBytes 0
            (cloneName k.ctx))
        stats.syscalls := k.stats.syscalls + 1 } := by
  obtain ⟨k₁, hk₁⟩ : ∃ k₁, k₁ = k.saveRegs := ⟨_, rfl⟩
  have heq := hk₁.trans h.saveRegs_eq
  have hnew : k₁.getNewCtx = (none, k₁) := by
    rcases k₁.getNewCtx_cases with ⟨i, -, hvacant, -⟩ | ⟨-, hnew⟩
    · rw [heq] at hvacant
      exact absurd hvacant (h.full i)
    · exact hnew
  have hrax : { k.regs with rax := 0 } = k.regs := by rw [← h.result_eq]
  rw [step_user h.mode_eq]
  change (dispatch peek k.regs.rsi k.regs.rdx k.syscallRequested >>= fun result ↦
      Prog.update fun k ↦ { k with regs := { k.regs with rax := result } }).final k.saveRegs = _
  rw [h.call_eq, ← hk₁]
  have hclone : doClone k.regs.rsi k.regs.rdx k₁ =
      .ret 0 ({ k₁ with mem := (osPfnAlloc .osPt k₁.mem).2 }.updateCtx none fun old ↦
        (cloneRecord k₁.ctx (osPfnAlloc .osPt k₁.mem).1 k.regs.rsi k.regs.rdx old).setNameBytes 0
          (cloneName k₁.ctx)) := by
    simp only [doClone, bind, Prog.bind, Prog.call, hnew]
    rfl
  change Prog.final (Prog.bind (doClone k.regs.rsi k.regs.rdx) _) k₁ = _
  unfold Prog.final Prog.bind
  rw [hclone, heq]
  simp only [Prog.update, updateCtx]
  rw [hrax]
  rfl

/-- What lies at address 0 after `count` such calls, whose frames start at `first`. -/
def nullRecord (k : Kernel) (first : ℕ) : ℕ → ExecContext
  | 0 => k.ctxs none
  | count + 1 =>
    (cloneRecord k.ctx (Region.osPt.base + first + count) k.regs.rsi k.regs.rdx
      (nullRecord k first count)).setNameBytes 0
      (cloneName k.ctx)

/-- The state after `count` such calls, with memory `m`. -/
def afterClones (k : Kernel) (first count : ℕ) (m : Memory) : Kernel :=
  { k with
    mem := m
    ctxs := Function.update k.ctxs none (k.nullRecord first count)
    stats.syscalls := k.stats.syscalls + count }

theorem Crowded.stays (h : Crowded k) (first count : ℕ) (m : Memory) : Crowded (k.afterClones first count m) := by
  have hctx : (k.afterClones first count m).ctx = k.ctx := Function.update_of_ne h.current_ne _ _
  exact ⟨h.mode_eq, h.call_eq, h.full, h.current_ne, hctx ▸ h.saved, h.result_eq⟩

theorem Crowded.step_afterClones (h : Crowded k) (hhands : HandsOut .osPt first count k.mem m)
    (hcount : first + count < Region.osPt.scanned) (hfree : count < (k.mem.pglists .osPt).freePages) (peek : ℕ → ℕ) :
    step (.syscall peek) (k.afterClones first count m) = k.afterClones first (count + 1) (osPfnAlloc .osPt m).2 := by
  have hctx : (k.afterClones first count m).ctx = k.ctx := Function.update_of_ne h.current_ne _ _
  rw [(h.stays first count m).step_clone peek, hctx]
  have hframe : (osPfnAlloc .osPt (k.afterClones first count m).mem).1 = Region.osPt.base + first + count :=
    (hhands.next hcount hfree).1
  have hnull : (k.afterClones first count m).ctxs none = k.nullRecord first count := by
    simp only [Kernel.afterClones, Function.update_self]
  rw [hframe, hnull]
  simp only [Kernel.afterClones, Function.update_idem]
  rfl

/-- Clones up to the scan bound. -/
theorem Crowded.run_clones (h : Crowded k) (hfilled : Filled .osPt first (k.mem.pglists .osPt)) (peek : ℕ → ℕ)
    (hfree : Region.osPt.scanned ≤ first + (k.mem.pglists .osPt).freePages)
    (hle : first + count ≤ Region.osPt.scanned) :
    ∃ m, HandsOut .osPt first count k.mem m ∧
      run step k (List.replicate count (.syscall peek)) = k.afterClones first count m := by
  induction count with
  | zero =>
    refine ⟨k.mem, .refl hfilled, ?_⟩
    have hctxs : Function.update k.ctxs none (k.ctxs none) = k.ctxs := Function.update_eq_self ..
    rw [Kernel.afterClones, nullRecord, hctxs]
    rfl
  | succ count ih =>
    obtain ⟨m, hhands, hrun⟩ := ih (by omega)
    refine ⟨(osPfnAlloc .osPt m).2, (hhands.next (by omega) (by omega)).2, ?_⟩
    rw [List.replicate_succ', run_append, hrun]
    exact h.step_afterClones hhands (by omega) (by omega) peek

/-- All of the page-table region that the scan reaches, given to clones. -/
theorem Crowded.run_fillUp (h : Crowded k) (hfilled : Filled .osPt first (k.mem.pglists .osPt)) (peek : ℕ → ℕ)
    (hfree : Region.osPt.scanned ≤ first + (k.mem.pglists .osPt).freePages) (hle : first ≤ Region.osPt.scanned) :
    run step k (List.replicate (Region.osPt.scanned - first) (.syscall peek)) =
      k.afterClones first (Region.osPt.scanned - first) (k.mem.fillUp .osPt first Region.osPt.scanned) := by
  obtain ⟨m, hhands, hrun⟩ := h.run_clones hfilled peek hfree (Nat.add_sub_cancel' hle).le
  rw [hrun, hhands.eq_fillUp hle le_rfl (Nat.mul_mod_right 32 _)]

end Kernel

section FullTable

/-- Init makes a child and thirteen threads, which is all there is room for, and goes on. -/
def crowdEvents : List Event :=
  launchInit :: (callEvents 10 0 0 ++ (List.replicate 16 (callEvents 9 codeStart stackStart)).flatten)

def crowd : Kernel := run Kernel.step blankBoot crowdEvents

theorem crowded_crowd : crowd.Crowded := by
  have hrun : crowd.mode = .user ∧ crowd.syscallRequested = some .clone ∧ (∀ j, (crowd.ctxs (some j)).state ≠ .unused) ∧
      crowd.current ≠ none ∧ crowd.ctx.regs = crowd.regs ∧ crowd.regs.rax = 0 := by decide +kernel
  exact ⟨hrun.1, hrun.2.1, hrun.2.2.1, hrun.2.2.2.1, hrun.2.2.2.2.1, hrun.2.2.2.2.2⟩

/-- The first 44 frames of the page-table region are in use. -/
def FirstInUse (pgl : PageList) : Prop :=
  pgl.size = Region.osPt.frames ∧ pgl.startAddress = Region.osPt.base * 4096 ∧ pgl.lastFreePos = 1 ∧
    ∀ w < Region.osPt.frames / 256, pgl.bitmap w = if w < 1 then BitVec.allOnes 32 else if w = 1 then 0xfff#32 else 0#32

instance (pgl : PageList) : Decidable (FirstInUse pgl) := by
  unfold FirstInUse
  infer_instance

theorem FirstInUse.filled {pgl : PageList} (h : FirstInUse pgl) : Filled .osPt 44 pgl := by
  obtain ⟨hsize, hstart, hcursor, hwords⟩ := h
  exact .of_words ⟨hsize, hstart, by rw [hcursor]; decide⟩ hcursor hwords

theorem filled_crowd : Filled .osPt 44 (crowd.mem.pglists .osPt) :=
  FirstInUse.filled (by decide +kernel)

/-- Init asks for 2132 threads more. -/
def drained : Kernel := crowd.afterClones 44 2132 (crowd.mem.fillUp .osPt 44 2176)

theorem drained_eq : drained = run Kernel.step crowd (List.replicate 2132 (.syscall fun _ ↦ 0)) := by
  have hfree : (crowd.mem.pglists .osPt).freePages = 17364 := by decide +kernel
  exact (crowded_crowd.run_fillUp filled_crowd _ (by rw [hfree]; decide) (by decide)).symm

theorem reachable_drained (events : List Event) : Reachable (run Kernel.step drained events) := by
  rw [drained_eq]
  exact ((reachable_blankBoot crowdEvents).run _).run events

/-- The child of init touches a page for which two new tables are needed, and both are the same frame. -/
def selfMapped : Kernel :=
  run Kernel.step drained ([.tick] ++ callEvents 4 513 0 ++ [.load (rodataStart + 0x200000)])

/-- The same in a part of DATA that has no tables yet, and then a store into the frame makes an entry of its own. -/
def selfWritten : Kernel :=
  run Kernel.step drained ([.tick] ++ callEvents 4 1024 1 ++ List.replicate 256 (.syscall fun _ ↦ 0) ++
    [.store (dataStart + 2 ^ 30 + 2 ^ 21) 0, .store (dataStart + 2 ^ 30 + 2 ^ 21 + 4096 + 40) 0x87])

/-- Init makes twelve threads before the child, whose page table for CODE is the frame that the scan comes back to. -/
def lateEvents : List Event :=
  launchInit :: ((List.replicate 12 (callEvents 9 codeStart stackStart)).flatten ++ callEvents 10 0 0 ++
    (List.replicate 4 (callEvents 9 codeStart stackStart)).flatten)

def late : Kernel := run Kernel.step blankBoot lateEvents

theorem crowded_late : late.Crowded := by
  have hrun : late.mode = .user ∧ late.syscallRequested = some .clone ∧ (∀ j, (late.ctxs (some j)).state ≠ .unused) ∧
      late.current ≠ none ∧ late.ctx.regs = late.regs ∧ late.regs.rax = 0 := by decide +kernel
  exact ⟨hrun.1, hrun.2.1, hrun.2.2.1, hrun.2.2.2.1, hrun.2.2.2.2.1, hrun.2.2.2.2.2⟩

/-- Init asks for 2132 threads more. -/
def lateDrained : Kernel := late.afterClones 44 2132 (late.mem.fillUp .osPt 44 2176)

theorem reachable_lateDrained (events : List Event) : Reachable (run Kernel.step lateDrained events) := by
  have hfilled : Filled .osPt 44 (late.mem.pglists .osPt) := FirstInUse.filled (by decide +kernel)
  have hfree : (late.mem.pglists .osPt).freePages = 17364 := by decide +kernel
  have hrun := crowded_late.run_fillUp hfilled (fun _ ↦ 0) (by rw [hfree]; decide) (by decide)
  have hdrained : lateDrained = run Kernel.step late (List.replicate 2132 (.syscall fun _ ↦ 0)) := hrun.symm
  rw [hdrained]
  exact ((reachable_blankBoot lateEvents).run _).run events

/-- Init touches a page for which a new table is needed. -/
def codeMapped : Kernel := run Kernel.step lateDrained (callEvents 4 513 1 ++ [.store (dataStart + 0x200000) 0])

end FullTable

end GemOS
