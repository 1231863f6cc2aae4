import GemOS.Process.CallInvariant
import GemOS.Process.Population

/-!
# Segments over a run

A process keeps its page table and the bounds of its segments until it asks for `expand` or `shrink`: no other event
moves a bound, and a context made by `fork` or `clone` starts with the bounds of its maker.
-/

namespace GemOS

open Foundation Memory Kernel

variable {A : Keeping} {event : Event} {child next : CtxPtr} {k k₁ k' : Kernel} {j : Fin maxProcesses}

/-- The record keeps its page table and its segments. -/
structure SameMm (ctx ctx' : ExecContext) : Prop where
  pgd_eq : ctx'.pgd = ctx.pgd
  mms_eq : ctx'.mms = ctx.mms

theorem SameMm.refl (ctx : ExecContext) : SameMm ctx ctx := ⟨rfl, rfl⟩

theorem SameMm.trans {ctx ctx₁ ctx₂ : ExecContext} (first : SameMm ctx ctx₁) (second : SameMm ctx₁ ctx₂) :
    SameMm ctx ctx₂ := ⟨second.pgd_eq.trans first.pgd_eq, second.mms_eq.trans first.mms_eq⟩

theorem sameMm_setState (c : Prop) [Decidable c] (ctx : ExecContext) (state : ProcessState) :
    SameMm ctx (if c then ctx.setState state else ctx) := by
  split
  · exact ⟨rfl, rfl⟩
  · exact .refl ctx

theorem Dispatched.sameMm (h : Dispatched next k k') (q : CtxPtr) : SameMm (k.ctxs q) (k'.ctxs q) := by
  rw [h.ctxs_eq]
  exact sameMm_setState _ _ _

/-- An exit changes the states of records only. -/
theorem sameMm_doExit (k : Kernel) (q : CtxPtr) : SameMm (k.ctxs q) (k.doExit.ctxs q) := by
  have hretire : SameMm (k.ctxs q) (k.retire.ctxs q) := by
    rw [retire_ctxs]
    exact sameMm_setState _ _ _
  apply hretire.trans
  rcases doExit_cases k with ⟨-, hdispatched⟩ | ⟨-, hcleanup⟩
  · exact hdispatched.sameMm q
  · rw [hcleanup, doCleanup_ctxs]
    exact sameMm_setState _ _ _

theorem sameMm_accountSleep (k : Kernel) (q : CtxPtr) : SameMm (k.ctxs q) (k.accountSleep.ctxs q) := by
  cases q with
  | none => exact .refl _
  | some i => exact ⟨(countSleep_eq _).1, (countSleep_eq _).2.2.2.1⟩

theorem sameMm_reschedule (hcr3 : k.cr3 = k.ctx.pgd) (q : CtxPtr) : SameMm (k.ctxs q) (k.reschedule.ctxs q) := by
  have hreadied : SameMm (k.ctxs q) (k.readied.ctxs q) := by
    rw [readied_ctxs]
    exact sameMm_setState _ _ _
  have hpreempted : SameMm (k.readied.ctxs q) (k.preempted.ctxs q) := by
    rw [readied_ctxs, preempted_ctxs]
    split
    · exact ⟨rfl, rfl⟩
    · exact .refl _
  rcases reschedule_cases hcr3 with ⟨-, hstay⟩ | ⟨-, hdispatched⟩
  · rw [hstay]
    exact hreadied
  · exact (hreadied.trans hpreempted).trans (hdispatched.sameMm q)

theorem sameMm_doSleep (k : Kernel) (q : CtxPtr) : SameMm (k.ctxs q) ((k.saveRegs.doSleep k.regs.rsi).ctxs q) := by
  have hslept : SameMm (k.ctxs q) (k.slept.ctxs q) := by
    rw [slept_ctxs]
    split
    · exact ⟨rfl, rfl⟩
    · exact .refl _
  exact hslept.trans ((dispatched_doSleep k).sameMm q)

theorem Holds.sameMm (h : Holds A child k k') (hchild : some j ≠ child) (hA : some j = k.current → A.segments) :
    SameMm (k.ctxs (some j)) (k'.ctxs (some j)) := by
  by_cases hcurrent : some j = k.current
  · have hpgd := h.seat.pgd_eq
    have hmms := h.segments (hA hcurrent)
    rw [Kernel.ctx, Kernel.ctx, h.current_eq, ← hcurrent] at hpgd hmms
    exact ⟨hpgd, hmms⟩
  · rw [h.others j hcurrent hchild]
    exact .refl _

/-- What an event leaves of the address spaces. A context that it makes is `init`, or a copy of the current one. -/
structure Spaces (event : Event) (k k' : Kernel) : Prop where
  pgd_eq : ∀ j, Live k.ctxs j → (k'.ctxs (some j)).pgd = (k.ctxs (some j)).pgd
  mms_eq : ∀ j, Live k.ctxs j → (k.mode = .user → some j = k.current → KeepsSegments event k) →
    (k'.ctxs (some j)).mms = (k.ctxs (some j)).mms
  made : ∀ j, ¬ Live k.ctxs j → Live k'.ctxs j → k.mode = .shell ∧ ContextOk (k'.ctxs (some j)) ∨
    k.mode = .user ∧ (k'.ctxs (some j)).mms = k.ctx.mms ∧ (Asks event k .clone → (k'.ctxs (some j)).pgd = k.ctx.pgd)

/-- What is left when the current context and perhaps a new one changed, and then states only. -/
theorem Holds.spaces (h : Holds (keeping event k) child k k₁) (hquiet : k.mode ≠ .user → KeepsSegments event k)
    (hmade : ∀ j, child = some j → (k.ctxs (some j)).state = .unused ∧ k.mode = .user ∧
      (k₁.ctxs (some j)).mms = k.ctx.mms ∧ (Asks event k .clone → (k₁.ctxs (some j)).pgd = k.ctx.pgd))
    (hsame : ∀ q, SameMm (k₁.ctxs q) (k'.ctxs q)) (hlive : ∀ j, Live k'.ctxs j → Live k₁.ctxs j) :
    Spaces event k k' := by
  have hchild : ∀ j, Live k.ctxs j → some j ≠ child := fun j hj heq ↦ hj.2 (hmade j heq.symm).1
  refine ⟨fun j hj ↦ ?_, fun j hj hkeeps ↦ ?_, fun j hdead hj ↦ ?_⟩
  · by_cases hcurrent : some j = k.current
    · have hpgd := h.seat.pgd_eq
      rw [Kernel.ctx, Kernel.ctx, h.current_eq, ← hcurrent] at hpgd
      exact (hsame _).pgd_eq.trans hpgd
    · exact (hsame _).pgd_eq.trans (congrArg ExecContext.pgd (h.others j hcurrent (hchild j hj)))
  · refine (hsame _).mms_eq.trans (h.sameMm (hchild j hj) fun hcurrent ↦ ?_).mms_eq
    by_cases hmode : k.mode = .user
    · exact hkeeps hmode hcurrent
    · exact hquiet hmode
  · by_cases heq : some j = child
    · obtain ⟨-, hmode, hmms, hpgd⟩ := hmade j heq.symm
      exact Or.inr ⟨hmode, (hsame _).mms_eq.trans hmms, fun hasks ↦ (hsame _).pgd_eq.trans (hpgd hasks)⟩
    · exact absurd ((h.live_iff heq).1 (hlive j hj)) hdead

theorem Left.spaces (h : Left event child k k₁) (hmode : k.mode = .user) (hsame : ∀ q, SameMm (k₁.ctxs q) (k'.ctxs q))
    (hlive : ∀ j, Live k'.ctxs j → Live k₁.ctxs j) : Spaces event k k' := by
  refine h.toHolds.spaces (fun hnot ↦ absurd hmode hnot) (fun j hj ↦ ?_) hsame hlive
  obtain ⟨-, -, hspawned, -⟩ := h.cut j hj
  exact ⟨hspawned.vacant j hj, hmode, hspawned.mms_eq j hj, fun hasks ↦ absurd hasks h.no_clone⟩

theorem Table.leaves_spaces (h : Table k) (hmode : k.mode = .user) (hleaves : Leaves event k k') :
    Spaces event k k' := by
  cases hleaves with
  | @exit k₁ child left =>
    apply left.spaces hmode (sameMm_doExit k₁)
    exact fun j hj ↦ ((retire_live k₁ j).1 ((h.exit_live hmode left j).1 hj)).2
  | stop _ left => exact left.spaces hmode (fun q ↦ .refl _) fun j ↦ id

theorem Table.turn_spaces (h : Table k) (hmode : k.mode = .user) (hturn : Turn event k k') : Spaces event k k' := by
  cases hturn with
  | work _ works =>
    apply works.toHolds.spaces (fun hnot ↦ absurd hmode hnot) _ (fun q ↦ .refl _) fun j ↦ id
    exact fun j hj ↦ absurd hj.symm (Option.some_ne_none j)
  | fork asked _ holds spawned =>
    refine holds.spaces (fun hnot ↦ absurd hmode hnot) (fun j hj ↦ ?_) (fun q ↦ .refl _) fun j ↦ id
    exact ⟨spawned.vacant j hj, hmode, spawned.mms_eq j hj, fun hclone ↦ Syscall.noConfusion (asked.inj hclone)⟩
  | clone _ holds spawned _ _ _ _ shared =>
    refine holds.spaces (fun hnot ↦ absurd hmode hnot) (fun j hj ↦ ?_) (fun q ↦ .refl _) fun j ↦ id
    exact ⟨spawned.vacant j hj, hmode, spawned.mms_eq j hj, fun _ ↦ shared j hj⟩
  | sleep =>
    refine ⟨fun j _ ↦ (sameMm_doSleep k _).pgd_eq, fun j _ _ ↦ (sameMm_doSleep k _).mms_eq, fun j hdead hj ↦ ?_⟩
    exact absurd ((h.sleep_live hmode j).1 hj) hdead
  | leave leaves => exact h.leaves_spaces hmode leaves

theorem keepsSegments_tick (k : Kernel) : KeepsSegments .tick k :=
  ⟨fun ⟨⟨_, heq⟩, _⟩ ↦ Event.noConfusion heq, fun ⟨⟨_, heq⟩, _⟩ ↦ Event.noConfusion heq⟩

/-- Counting the sleepers comes before everything else in a tick. -/
theorem Spaces.of_accountSleep (h : Spaces .tick k.accountSleep k') : Spaces .tick k k' := by
  have hsame := sameMm_accountSleep k
  refine ⟨fun j hj ↦ ?_, fun j hj _ ↦ ?_, fun j hdead hj ↦ ?_⟩
  · exact (h.pgd_eq j ((accountSleep_live k j).2 hj)).trans (hsame _).pgd_eq
  · exact (h.mms_eq j ((accountSleep_live k j).2 hj) fun _ _ ↦ keepsSegments_tick _).trans (hsame _).mms_eq
  · rcases h.made j (fun hlive ↦ hdead ((accountSleep_live k j).1 hlive)) hj with hinit | ⟨hmode, hmms, -⟩
    · exact Or.inl hinit
    · refine Or.inr ⟨hmode, hmms.trans (hsame k.current).mms_eq, fun ⟨⟨_, heq⟩, _⟩ ↦ ?_⟩
      exact Event.noConfusion heq

theorem ContextOk.of_exec {ctx : ExecContext} {old : MmSeg → MmSegment}
    (h : ctx.mms = execSegments (initSegments old)) : ContextOk ctx := by
  refine ⟨fun seg ↦ ?_, ?_, ?_, ?_, ?_⟩
  · rw [h]
    cases seg <;> rfl
  · rw [h]
    rfl
  · rw [h]
    exact (by decide : rodataStart ≤ rodataStart ∧ rodataStart < dataStart ∧ rodataStart % pageSize = 0)
  · rw [h]
    exact (by decide : dataStart ≤ dataStart + pageSize ∧ dataStart + pageSize < stackStart - maxStackSize ∧
      (dataStart + pageSize) % pageSize = 0)
  · rw [h]
    rfl

/-- What every event leaves of the address spaces. -/
theorem Table.spaces (h : Table k) (event : Event) : Spaces event k (Kernel.step event k) := by
  have hmoves := h.moves event
  generalize Kernel.step event k = k' at *
  cases hmoves with
  | rest no_user => exact ⟨fun _ _ ↦ rfl, fun _ _ _ ↦ rfl, fun j hdead hj ↦ absurd hj hdead⟩
  | @launch _ i record mode slot launched =>
    have hempty := (h.empty mode).2
    refine ⟨fun j hj ↦ absurd hj (hempty j), fun j hj ↦ absurd hj (hempty j), fun j hdead hj ↦ Or.inl ⟨mode, ?_⟩⟩
    by_cases heq : some j = some i
    · obtain ⟨old, hmms⟩ := launched.mms_eq
      rw [launched.ctxs_eq, heq, Function.update_self]
      exact .of_exec hmms
    · unfold Live at hj
      rw [launched.ctxs_eq, Function.update_of_ne heq] at hj
      exact absurd hj hdead
  | turn mode _ turn => exact h.turn_spaces mode turn
  | leave mode tick _ leaves =>
    subst tick
    exact ((h.accountSleep (by rw [mode]; decide)).1.leaves_spaces mode leaves).of_accountSleep
  | @tick k₁ mode tick _ works swapper =>
    subst tick
    obtain ⟨htable, hmode⟩ := h.ticked mode works swapper
    have hshell : k₁.mode ≠ .shell := by rcases hmode with heq | heq <;> rw [heq] <;> decide
    apply Spaces.of_accountSleep
    apply works.toHolds.spaces (fun _ ↦ keepsSegments_tick _) (fun j hj ↦ absurd hj.symm (Option.some_ne_none j))
      (sameMm_reschedule (htable.placed hshell).cr3_eq)
    exact fun j ↦ (htable.reschedule_live hshell j).1

/-- The same context runs, and every record is in the state it was in. -/
structure SameStates (k k' : Kernel) : Prop where
  current_eq : k'.current = k.current
  state_eq : ∀ q, (k'.ctxs q).state = (k.ctxs q).state

theorem SameStates.trans (first : SameStates k k₁) (second : SameStates k₁ k') : SameStates k k' :=
  ⟨second.current_eq.trans first.current_eq, fun q ↦ (second.state_eq q).trans (first.state_eq q)⟩

theorem sameStates_updateCtx (p : CtxPtr) {f : ExecContext → ExecContext} (hf : ∀ ctx, (f ctx).state = ctx.state)
    (k : Kernel) : SameStates k (k.updateCtx p f) := by
  refine ⟨rfl, fun q ↦ ?_⟩
  rw [updateCtx_ctxs]
  split
  · exact hf _
  · rfl

theorem sameStates_setNextFree (seg : MmSeg) (nextFree : ℕ) (k : Kernel) : SameStates k (setNextFree seg nextFree k) :=
  sameStates_updateCtx k.current (f := fun ctx ↦ { ctx with mms := setNext ctx.mms seg nextFree }) (fun _ ↦ rfl) k

theorem sameStates_saveRegs (k : Kernel) : SameStates k k.saveRegs :=
  ⟨rfl, (sameStates_updateCtx k.current (f := fun ctx ↦ ctx.saveRegs k.regs) (fun _ ↦ rfl) k).state_eq⟩

theorem saveRegs_mms (k : Kernel) : k.saveRegs.ctx.mms = k.ctx.mms := by
  have hself : k.saveRegs.ctx = k.ctx.saveRegs k.regs := k.updateCtx_self k.current fun ctx ↦ ctx.saveRegs k.regs
  rw [hself]
  rfl

/-- A process that calls `expand`. -/
theorem step_expand (hmode : k.mode = .user) (hcall : k.syscallRequested = some .expand) (peek : ℕ → ℕ) :
    SameStates k (step (.syscall peek) k) ∧
      ((∃ seg, Grows k.ctx k.regs.rsi k.regs.rdx seg ∧
        (step (.syscall peek) k).regs.rax = (k.ctx.mms seg).nextFree ∧
        (step (.syscall peek) k).ctx.mms =
          setNext k.ctx.mms seg (((k.ctx.mms seg).nextFree + k.regs.rsi <<< pageShift) % 2 ^ 64)) ∨
      (∀ seg, ¬ Grows k.ctx k.regs.rsi k.regs.rdx seg) ∧ (step (.syscall peek) k).regs.rax = 0 ∧
        (step (.syscall peek) k).ctx.mms = k.ctx.mms) := by
  have hsaved := saveRegs_mms k
  have hsaves := sameStates_saveRegs k
  rw [step_user hmode]
  apply Spec.final (P := fun k' : Kernel ↦ SameStates k k' ∧
    ((∃ seg, Grows k.ctx k.regs.rsi k.regs.rdx seg ∧ k'.regs.rax = (k.ctx.mms seg).nextFree ∧
      k'.ctx.mms = setNext k.ctx.mms seg (((k.ctx.mms seg).nextFree + k.regs.rsi <<< pageShift) % 2 ^ 64)) ∨
    (∀ seg, ¬ Grows k.ctx k.regs.rsi k.regs.rdx seg) ∧ k'.regs.rax = 0 ∧ k'.ctx.mms = k.ctx.mms))
  change Spec (doSyscall peek) k _ _
  unfold doSyscall
  apply Spec.read_bind
  apply Spec.update_bind
  rw [hcall]
  refine ((doExpand_spec k.regs.rsi k.regs.rdx k.saveRegs).mono (fun _ _ ↦ id) fun _ ↦ False.elim).bind ?_
  rintro result k' (⟨seg, hgrows, hresult, rfl⟩ | ⟨hnot, rfl, rfl⟩)
  · have hstates := hsaves.trans (sameStates_setNextFree seg
      (((k.saveRegs.ctx.mms seg).nextFree + k.regs.rsi <<< pageShift) % 2 ^ 64) k.saveRegs)
    have hmms := congrArg ExecContext.mms (setNextFree_ctx seg
      (((k.saveRegs.ctx.mms seg).nextFree + k.regs.rsi <<< pageShift) % 2 ^ 64) k.saveRegs)
    rw [hsaved] at hstates hresult hmms ⊢
    exact Spec.update ⟨⟨hstates.current_eq, hstates.state_eq⟩, Or.inl ⟨seg, hgrows.congr hsaved.symm, hresult, hmms⟩⟩
  · exact Spec.update ⟨⟨rfl, hsaves.state_eq⟩, Or.inr ⟨fun seg hgrows ↦ hnot seg (hgrows.congr hsaved), rfl, hsaved⟩⟩

/-- A process that calls `shrink`. -/
theorem step_shrink (hmode : k.mode = .user) (hcall : k.syscallRequested = some .shrink) (peek : ℕ → ℕ) :
    SameStates k (step (.syscall peek) k) ∧
      ((∃ seg, Shrinks k.ctx k.regs.rsi k.regs.rdx seg ∧
        (step (.syscall peek) k).regs.rax = ((k.ctx.mms seg).nextFree + 2 ^ 64 - k.regs.rsi <<< pageShift) % 2 ^ 64 ∧
        (step (.syscall peek) k).ctx.mms = setNext k.ctx.mms seg (step (.syscall peek) k).regs.rax) ∨
      (∀ seg, ¬ Shrinks k.ctx k.regs.rsi k.regs.rdx seg) ∧ (step (.syscall peek) k).regs.rax = 0 ∧
        (step (.syscall peek) k).ctx.mms = k.ctx.mms) := by
  have hsaved := saveRegs_mms k
  have hsaves := sameStates_saveRegs k
  rw [step_user hmode]
  apply Spec.final (P := fun k' : Kernel ↦ SameStates k k' ∧
    ((∃ seg, Shrinks k.ctx k.regs.rsi k.regs.rdx seg ∧
      k'.regs.rax = ((k.ctx.mms seg).nextFree + 2 ^ 64 - k.regs.rsi <<< pageShift) % 2 ^ 64 ∧
      k'.ctx.mms = setNext k.ctx.mms seg k'.regs.rax) ∨
    (∀ seg, ¬ Shrinks k.ctx k.regs.rsi k.regs.rdx seg) ∧ k'.regs.rax = 0 ∧ k'.ctx.mms = k.ctx.mms))
  change Spec (doSyscall peek) k _ _
  unfold doSyscall
  apply Spec.read_bind
  apply Spec.update_bind
  rw [hcall]
  refine ((doShrink_spec k.regs.rsi k.regs.rdx k.saveRegs).mono (fun _ _ ↦ id) fun _ ↦ False.elim).bind ?_
  rintro result k' (⟨seg, hshrinks, hresult, rfl⟩ | ⟨hnot, rfl, rfl⟩)
  · have hstates := hsaves.trans (sameStates_setNextFree seg result k.saveRegs)
    have hmms := congrArg ExecContext.mms (setNextFree_ctx seg result k.saveRegs)
    rw [hsaved] at hresult hmms
    exact Spec.update
      ⟨⟨hstates.current_eq, hstates.state_eq⟩, Or.inl ⟨seg, hshrinks.congr hsaved.symm, hresult, hmms⟩⟩
  · exact Spec.update ⟨⟨rfl, hsaves.state_eq⟩, Or.inr
      ⟨fun seg hshrinks ↦ hnot seg (hshrinks.congr hsaved), rfl, hsaved⟩⟩

theorem asks_of_not_keepsSegments (h : ¬ KeepsSegments event k) :
    ∃ peek, event = .syscall peek ∧ (k.syscallRequested = some .expand ∨ k.syscallRequested = some .shrink) := by
  by_cases hexpand : Asks event k .expand
  · obtain ⟨⟨peek, heq⟩, hcall⟩ := hexpand
    exact ⟨peek, heq, Or.inl hcall⟩
  · obtain ⟨⟨peek, heq⟩, hcall⟩ := not_not.1 fun hshrink ↦ h ⟨hexpand, hshrink⟩
    exact ⟨peek, heq, Or.inr hcall⟩

/-- The processes have the segments of `create_context`, with their own `next_free` in them. -/
def ContextsOk (k : Kernel) : Prop := ∀ j, Live k.ctxs j → ContextOk (k.ctxs (some j))

theorem ContextsOk.current (h : ContextsOk k) (htable : Table k) (hmode : k.mode = .user) : ContextOk k.ctx := by
  obtain ⟨i, -, hlive, hctx⟩ := htable.current_user hmode
  rw [hctx]
  exact h i hlive

/-- A call that moves a bound leaves the caller on the processor. -/
theorem sameStates_resize (hmode : k.mode = .user) (hmoves : ¬ KeepsSegments event k) :
    SameStates k (Kernel.step event k) := by
  obtain ⟨peek, rfl, hcall | hcall⟩ := asks_of_not_keepsSegments hmoves
  · exact (step_expand hmode hcall peek).1
  · exact (step_shrink hmode hcall peek).1

theorem ContextsOk.step (h : ContextsOk k) (htable : Table k) (event : Event) : ContextsOk (Kernel.step event k) := by
  have hspaces := htable.spaces event
  intro j hj
  by_cases hlive : Live k.ctxs j
  · by_cases hkeeps : k.mode = .user → some j = k.current → KeepsSegments event k
    · exact (h j hlive).of_mms (hspaces.mms_eq j hlive hkeeps)
    · push Not at hkeeps
      obtain ⟨hmode, hcurrent, hmoves⟩ := hkeeps
      have hok := h.current htable hmode
      have hself : (Kernel.step event k).ctxs (some j) = (Kernel.step event k).ctx := by
        rw [Kernel.ctx, (sameStates_resize hmode hmoves).current_eq, hcurrent]
      rw [hself]
      obtain ⟨peek, rfl, hcall | hcall⟩ := asks_of_not_keepsSegments hmoves
      · rcases (step_expand hmode hcall peek).2 with ⟨seg, hgrows, -, hmms⟩ | ⟨-, -, hmms⟩
        · exact hok.grow hgrows hmms
        · exact hok.of_mms hmms
      · rcases (step_shrink hmode hcall peek).2 with ⟨seg, hshrinks, heq, hmms⟩ | ⟨-, -, hmms⟩
        · exact hok.shrink hshrinks heq hmms
        · exact hok.of_mms hmms
  · rcases hspaces.made j hlive hj with ⟨-, hok⟩ | ⟨hmode, hmms, -⟩
    · exact hok
    · exact (h.current htable hmode).of_mms hmms

end GemOS
