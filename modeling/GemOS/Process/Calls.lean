import GemOS.Process.Accesses

/-!
# What a system call changes

A system call that returns to its caller and makes no process serves memory accesses (`write`, `configure`), moves
`next_free` of a segment (`expand`, `shrink`), sets a handler or the alarm of the caller (`signal`, `alarm`), or changes
nothing. `Answers` lists these cases. What the later modules say of such a call is read off the list.
-/

namespace GemOS

open Foundation Memory

/-- The checks of `do_expand` on a segment. -/
structure Grows (ctx : ExecContext) (size flags : ℕ) (seg : MmSeg) : Prop where
  size_le : size ≤ maxExpandPages
  segment_eq : expandSegment flags = some seg
  fits : ((ctx.mms seg).nextFree + size <<< pageShift) % 2 ^ 64 ≤ (ctx.mms seg).stop

/-- The checks of `do_shrink` on a segment. -/
structure Shrinks (ctx : ExecContext) (size flags : ℕ) (seg : MmSeg) : Prop where
  size_le : size ≤ maxExpandPages
  segment_eq : expandSegment flags = some seg
  fits : (ctx.mms seg).start ≤ ((ctx.mms seg).nextFree + 2 ^ 64 - size <<< pageShift) % 2 ^ 64

/-- The segments when `next_free` of one of them is set. -/
def setNext (mms : MmSeg → MmSegment) (seg : MmSeg) (nextFree : ℕ) : MmSeg → MmSegment :=
  Function.update mms seg { mms seg with nextFree := nextFree }

section Bounds

variable {ctx ctx' : ExecContext} {size flags : ℕ} {seg : MmSeg}

/-- `do_expand` and `do_shrink` work on RODATA or DATA. -/
theorem expandSegment_cases (h : expandSegment flags = some seg) :
    (flags % 2 ^ 32 = mapRd ∧ seg = .rodata) ∨ (flags % 2 ^ 32 = mapWr ∧ seg = .data) := by
  unfold expandSegment at h
  split at h
  · exact Or.inl ⟨‹_›, (Option.some.inj h).symm⟩
  · split at h
    · exact Or.inr ⟨‹_›, (Option.some.inj h).symm⟩
    · exact absurd h (by simp)

theorem Grows.growing (h : Grows ctx size flags seg) : seg = .rodata ∨ seg = .data :=
  (expandSegment_cases h.segment_eq).imp And.right And.right

theorem Shrinks.growing (h : Shrinks ctx size flags seg) : seg = .rodata ∨ seg = .data :=
  (expandSegment_cases h.segment_eq).imp And.right And.right

theorem Grows.congr (h : Grows ctx size flags seg) (hmms : ctx'.mms = ctx.mms) : Grows ctx' size flags seg :=
  ⟨h.size_le, h.segment_eq, hmms.symm ▸ h.fits⟩

theorem Shrinks.congr (h : Shrinks ctx size flags seg) (hmms : ctx'.mms = ctx.mms) : Shrinks ctx' size flags seg :=
  ⟨h.size_le, h.segment_eq, hmms.symm ▸ h.fits⟩

end Bounds

namespace Kernel

variable {k : Kernel}

theorem setNextFree_ctx (seg : MmSeg) (nextFree : ℕ) (k : Kernel) :
    (setNextFree seg nextFree k).ctx = { k.ctx with mms := setNext k.ctx.mms seg nextFree } :=
  k.updateCtx_self k.current fun ctx ↦ { ctx with mms := setNext ctx.mms seg nextFree }

/-- `next_free` moved down, and the pages above it unmapped. -/
def shrinkTo (seg : MmSeg) (shrunk size : ℕ) (k : Kernel) : Kernel :=
  { setNextFree seg shrunk k with mem := unmapPages k.ctx.pgd (pagesFrom shrunk 0 size) k.mem }

/-- `expand` moves `next_free` up and returns the old one, or returns 0 and changes nothing. -/
theorem doExpand_spec (size flags : ℕ) (k : Kernel) :
    Spec (doExpand size flags) k
      (fun result k' ↦
        (∃ seg, Grows k.ctx size flags seg ∧ result = (k.ctx.mms seg).nextFree ∧
          k' = setNextFree seg (((k.ctx.mms seg).nextFree + size <<< pageShift) % 2 ^ 64) k) ∨
        (∀ seg, ¬ Grows k.ctx size flags seg) ∧ result = 0 ∧ k' = k)
      fun _ ↦ False := by
  unfold doExpand
  apply Spec.read_bind
  apply Spec.ite
  · intro hsize
    exact Spec.pure (Or.inr ⟨fun seg hgrows ↦ absurd hgrows.size_le (not_le.2 hsize), rfl, rfl⟩)
  intro hsize
  cases hseg : expandSegment flags with
  | none =>
    refine Spec.pure (Or.inr ⟨fun seg hgrows ↦ ?_, rfl, rfl⟩)
    exact Option.some_ne_none seg (hgrows.segment_eq.symm.trans hseg)
  | some seg =>
    apply Spec.ite
    · intro hlarge
      refine Spec.pure (Or.inr ⟨fun other hgrows ↦ ?_, rfl, rfl⟩)
      obtain rfl := Option.some.inj (hseg.symm.trans hgrows.segment_eq)
      exact absurd hgrows.fits (not_le.2 hlarge)
    · intro hfits
      exact Spec.update_bind (Spec.pure (Or.inl ⟨seg, ⟨not_lt.1 hsize, hseg, not_lt.1 hfits⟩, rfl, rfl⟩))

/-- `shrink` moves `next_free` down and returns the new one, or returns 0 and changes nothing. -/
theorem doShrink_spec (size flags : ℕ) (k : Kernel) :
    Spec (doShrink size flags) k
      (fun result k' ↦
        (∃ seg, Shrinks k.ctx size flags seg ∧
          result = ((k.ctx.mms seg).nextFree + 2 ^ 64 - size <<< pageShift) % 2 ^ 64 ∧
          k' = shrinkTo seg result size k) ∨
        (∀ seg, ¬ Shrinks k.ctx size flags seg) ∧ result = 0 ∧ k' = k)
      fun _ ↦ False := by
  unfold doShrink
  apply Spec.read_bind
  apply Spec.ite
  · intro hsize
    exact Spec.pure (Or.inr ⟨fun seg hshrinks ↦ absurd hshrinks.size_le (not_le.2 hsize), rfl, rfl⟩)
  intro hsize
  cases hseg : expandSegment flags with
  | none =>
    refine Spec.pure (Or.inr ⟨fun seg hshrinks ↦ ?_, rfl, rfl⟩)
    exact Option.some_ne_none seg (hshrinks.segment_eq.symm.trans hseg)
  | some seg =>
    apply Spec.ite
    · intro hlow
      refine Spec.pure (Or.inr ⟨fun other hshrinks ↦ ?_, rfl, rfl⟩)
      obtain rfl := Option.some.inj (hseg.symm.trans hshrinks.segment_eq)
      exact absurd hshrinks.fits (not_le.2 hlow)
    · intro hfits
      apply Spec.update_bind
      refine Spec.update_bind (Spec.pure (Or.inl ⟨seg, ⟨not_lt.1 hsize, hseg, not_lt.1 hfits⟩, rfl, ?_⟩))
      unfold shrinkTo
      rw [setNextFree_ctx]
      rfl

/-- How a system call that returns to its caller and makes no process leaves the kernel. -/
inductive Answers (param1 param2 : ℕ) (k : Kernel) : Option Syscall → Kernel → Prop
  | tend {call : Option Syscall} {k' : Kernel} (tends : Tends k k') : Answers param1 param2 k call k'
  | expand {seg : MmSeg} (grows : Grows k.ctx param1 param2 seg) :
      Answers param1 param2 k (some .expand)
        (setNextFree seg (((k.ctx.mms seg).nextFree + param1 <<< pageShift) % 2 ^ 64) k)
  | shrink {seg : MmSeg} {shrunk : ℕ} (shrinks : Shrinks k.ctx param1 param2 seg)
      (shrunk_eq : shrunk = ((k.ctx.mms seg).nextFree + 2 ^ 64 - param1 <<< pageShift) % 2 ^ 64) :
      Answers param1 param2 k (some .shrink) (shrinkTo seg shrunk param1 k)
  | signal {signal : Signal} (registered : signalOf param1 = some signal) :
      Answers param1 param2 k (some .signal) (k.updateCtx k.current fun ctx ↦
        { ctx with sighandlers := Function.update ctx.sighandlers signal param2 })
  | alarm : Answers param1 param2 k (some .alarm) (k.updateCtx k.current fun ctx ↦
      { ctx with alarmConfigTime := param1 % 2 ^ 32, ticksToAlarm := param1 % 2 ^ 32 })

/-- The calls that return to their caller and make no process. -/
def Simple (call : Option Syscall) : Prop :=
  call ≠ some .exit ∧ call ≠ some .sleep ∧ call ≠ some .clone ∧ call ≠ some .fork

instance (call : Option Syscall) : Decidable (Simple call) := by
  unfold Simple
  infer_instance

theorem simple_or (call : Option Syscall) :
    Simple call ∨ call = some .exit ∨ call = some .sleep ∨ call = some .clone ∨ call = some .fork := by
  rcases call with _ | call
  · decide
  · cases call <;> decide

/-- Such a call answers, or ends the caller on an access to its memory. -/
theorem dispatch_answers (peek : ℕ → ℕ) (param1 param2 : ℕ) {call : Option Syscall} (hsimple : Simple call) :
    Spec (dispatch peek param1 param2 call) k (fun _ k' ↦ Answers param1 param2 k call k') (Quits ∅ k) := by
  have htending : ∀ {p : Prog Kernel ℕ}, Tending p →
      Spec p k (fun _ k' ↦ Answers param1 param2 k call k') (Quits ∅ k) :=
    fun hp ↦ (hp.spec k).mono (fun _ _ htends ↦ .tend htends) fun _ ↦ id
  rcases call with _ | call
  · exact htending (.pure _)
  cases call with
  | exit => exact absurd rfl hsimple.1
  | getpid => exact htending (.reading fun k ↦ .pure _)
  | write => exact htending (tending_doWrite peek param1 param2)
  | expand =>
    refine (doExpand_spec param1 param2 k).mono ?_ fun _ ↦ False.elim
    rintro result k' (⟨seg, hgrows, -, rfl⟩ | ⟨-, -, rfl⟩)
    · exact .expand hgrows
    · exact .tend (.refl k')
  | shrink =>
    refine (doShrink_spec param1 param2 k).mono ?_ fun _ ↦ False.elim
    rintro result k' (⟨seg, hshrinks, hresult, rfl⟩ | ⟨-, -, rfl⟩)
    · exact .shrink hshrinks hresult
    · exact .tend (.refl k')
  | alarm =>
    change Spec (doAlarm param1) k _ _
    unfold doAlarm
    exact Spec.ite (fun _ ↦ Spec.pure (.tend (.refl k))) fun _ ↦ Spec.update_bind (Spec.pure .alarm)
  | sleep => exact absurd rfl hsimple.2.1
  | signal =>
    change Spec (doSignal param1 param2) k _ _
    unfold doSignal
    cases hsignal : signalOf param1 with
    | none => exact Spec.pure (.tend (.refl k))
    | some signal => exact Spec.update_bind (Spec.pure (.signal hsignal))
  | clone => exact absurd rfl hsimple.2.2.1
  | fork => exact absurd rfl hsimple.2.2.2
  | stats => exact htending (.pure 0)
  | configure => exact htending ((tending_configure peek param1 osConfigsSize).bind fun _ ↦ .pure 0)

end Kernel

end GemOS
