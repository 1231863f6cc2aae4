import GemOS.Process.Seats

/-!
# Reuse of a slot

`create_context` and `exec_init` set a part of the record of the slot they take; the rest is what the last process in
the slot left. Only the swapper's slot is cleared at boot, and an exit changes nothing but the state.
-/

namespace GemOS

open Foundation Memory

namespace ExecContext

/-- The name as a string. -/
def nameString (ctx : ExecContext) : List ℕ := ((List.range cnameMax).map ctx.name).takeWhile (· ≠ 0)

/-- What a new process can tell of its record: the name, the parent, the segments, and all that has to do with
signals, alarms and sleep. -/
structure Alike (ctx ctx' : ExecContext) : Prop where
  name_eq : ctx'.nameString = ctx.nameString
  ppid_eq : ctx'.ppid = ctx.ppid
  mms_eq : ctx'.mms = ctx.mms
  handlers_eq : ctx'.sighandlers = ctx.sighandlers
  pending_eq : ctx'.pendingSignalBitmap = ctx.pendingSignalBitmap
  sleep_eq : ctx'.ticksToSleep = ctx.ticksToSleep
  alarm_eq : ctx'.ticksToAlarm = ctx.ticksToAlarm
  config_eq : ctx'.alarmConfigTime = ctx.alarmConfigTime

/-- The record left no handler, no alarm, no sleep, no pending signal and no parent, and its name ended at the fourth
byte or had a NUL byte there. -/
structure Spotless (ctx : ExecContext) : Prop where
  name_zero : ctx.name initName.length = 0
  ppid_zero : ctx.ppid = 0
  handlers_zero : ctx.sighandlers = fun _ ↦ 0
  pending_zero : ctx.pendingSignalBitmap = 0
  sleep_zero : ctx.ticksToSleep = 0
  alarm_zero : ctx.ticksToAlarm = 0
  config_zero : ctx.alarmConfigTime = 0

/-- The record that `create_context` and `exec_init` make of an old one. -/
def setUp (i stack pgd : ℕ) (old : ExecContext) : ExecContext :=
  { old with
    pid := i
    state := .running
    type := .user
    usedMem := 0
    pgd := pgd
    osStackPfn := stack
    osRsp := Kernel.stackTop stack
    mms := execSegments (initSegments old.mms)
    name := fun j ↦ initName.getD j (old.name j) }

/-- The first byte that is not set is the one after `init`. -/
theorem nameString_setUp (i stack pgd : ℕ) (old : ExecContext) :
    (setUp i stack pgd old).nameString =
      initName ++ ((List.range' 4 60).map old.name).takeWhile (· ≠ 0) := by
  have hrange : List.range cnameMax = [0, 1, 2, 3] ++ List.range' 4 60 := by decide
  have hrest : (List.range' 4 60).map (setUp i stack pgd old).name = (List.range' 4 60).map old.name := by
    apply List.map_congr_left
    intro j hj
    have hlow := (List.mem_range'_1.1 hj).1
    exact List.getD_eq_default _ _ hlow
  have hfirst : [0, 1, 2, 3].map (setUp i stack pgd old).name = initName := rfl
  rw [nameString, hrange, List.map_append, hrest, hfirst]
  apply List.takeWhile_append_of_pos
  decide

theorem nameString_setUp_iff (i stack pgd stack' pgd' : ℕ) (old : ExecContext) :
    (setUp i stack pgd old).nameString = (setUp i stack' pgd' zero).nameString ↔ old.name initName.length = 0 := by
  have hzero : ((List.range' 4 60).map zero.name).takeWhile (· ≠ 0) = [] := by decide
  have hcons : List.range' 4 60 = 4 :: List.range' 5 59 := by decide
  rw [nameString_setUp, nameString_setUp, hzero, List.append_cancel_left_eq, hcons, List.map_cons]
  change _ ↔ old.name 4 = 0
  by_cases hname : old.name 4 = 0
  · simp [hname]
  · simp [hname]

/-- The two records agree when the old one is spotless, and only then. -/
theorem alike_setUp_iff (i stack pgd stack' pgd' : ℕ) (old : ExecContext) :
    Alike (setUp i stack' pgd' zero) (setUp i stack pgd old) ↔ old.Spotless := by
  constructor
  · intro h
    exact ⟨(nameString_setUp_iff ..).1 h.name_eq, h.ppid_eq, h.handlers_eq, h.pending_eq, h.sleep_eq, h.alarm_eq,
      h.config_eq⟩
  · intro h
    refine ⟨(nameString_setUp_iff ..).2 h.name_zero, h.ppid_zero, ?_, h.handlers_zero, h.pending_zero, h.sleep_zero,
      h.alarm_zero, h.config_zero⟩
    funext seg
    cases seg <;> rfl

end ExecContext

namespace Kernel

/-- The slot `i` as it was before any process ran in it. -/
def unusedSlot (i : Fin maxProcesses) (k : Kernel) : Kernel :=
  { k with ctxs := Function.update k.ctxs (some i) .zero }

variable {k : Kernel}

theorem unusedSlot_self (i : Fin maxProcesses) (k : Kernel) : (k.unusedSlot i).ctxs (some i) = .zero :=
  Function.update_self (some i) _ k.ctxs

/-- The name is written before anything behind it. -/
theorem setNameBytes_initName (ctx : ExecContext) :
    ctx.setNameBytes 0 initName = { ctx with name := fun j ↦ initName.getD j (ctx.name j) } := by
  have hname : (ctx.setNameBytes 0 initName).name = fun j ↦ initName.getD j (ctx.name j) := by
    funext j
    change Function.update (Function.update (Function.update (Function.update ctx.name 0 _) 1 _) 2 _) 3 _ j = _
    by_cases hj : j < 4
    · interval_cases j <;> rfl
    · rw [Function.update_of_ne (by omega), Function.update_of_ne (by omega), Function.update_of_ne (by omega),
        Function.update_of_ne (by omega)]
      exact (List.getD_eq_default _ _ (not_lt.1 hj)).symm
  rw [← hname]
  rfl

theorem getNewCtx_eq {i : Fin maxProcesses} (hslot : k.getNewCtx.1 = some i) :
    k.getNewCtx = (some i, k.updateCtx (some i) fun ctx ↦ { ctx with pid := i, state := .new }) := by
  unfold getNewCtx at hslot ⊢
  split at hslot
  · obtain rfl := Option.some.inj hslot
    rfl
  · exact absurd hslot.symm (Option.some_ne_none i)

/-- The record after `create_context`. -/
theorem createContext_record {i : Fin maxProcesses} (hslot : k.getNewCtx.1 = some i) :
    ∃ stack k₁, k.createContext = (some i, k₁) ∧ k₁.ctxs (some i) =
      { ExecContext.setUp i stack 0 (k.ctxs (some i)) with
        state := .new
        mms := initSegments (k.ctxs (some i)).mms } := by
  unfold createContext
  rw [getNewCtx_eq hslot]
  refine ⟨(osPfnAlloc .osPt k.mem).1, _, rfl, ?_⟩
  rw [updateCtx_self, setNameBytes_initName]
  simp only [updateCtx_self]
  rfl

/-- The record of the slot that the `init` command takes. -/
theorem launch_record {i : Fin maxProcesses} (hslot : k.getNewCtx.1 = some i) (args : InitArgs) (scratch : UserRegs) :
    ∃ stack pgd, (k.launch args scratch).ctxs (some i) = ExecContext.setUp i stack pgd (k.ctxs (some i)) := by
  obtain ⟨stack, k₁, hcreate, hrecord⟩ := createContext_record hslot
  unfold launch execInit
  rw [hcreate]
  simp only
  generalize buildInit (k₁.ctxs (some i)).mms k₁.config k₁.mem = built
  refine ⟨stack, built.1, ?_⟩
  obtain ⟨hctxs, -⟩ := iret_loadCr3 (Kernel.setCurrentCtx _ (some i)) (Or.inr rfl) (initRegs args scratch)
  rw [hctxs, setCurrentCtx_ctxs, if_pos rfl, updateCtx_self]
  simp only [hrecord]
  rfl

theorem getNewCtx_unusedSlot {i : Fin maxProcesses} (hslot : k.getNewCtx.1 = some i) :
    (k.unusedSlot i).getNewCtx.1 = some i := by
  have hself : ((k.unusedSlot i).ctxs (some i)).state = .unused :=
    congrArg ExecContext.state (unusedSlot_self i k)
  have hother : ∀ j ≠ i, (k.unusedSlot i).ctxs (some j) = k.ctxs (some j) := fun j hj ↦
    Function.update_of_ne (fun heq ↦ hj (Option.some.inj heq)) _ _
  have hbefore : ∀ j < i, (k.ctxs (some j)).state ≠ .unused := by
    rcases k.getNewCtx_cases with ⟨i', f, -, hbefore, -, hnew⟩ | ⟨-, hnew⟩
    · rw [hnew] at hslot
      exact Option.some.inj hslot ▸ hbefore
    · rw [hnew] at hslot
      exact absurd hslot.symm (Option.some_ne_none i)
  rcases (k.unusedSlot i).getNewCtx_cases with ⟨j, f, hvacant, hbefore', -, hnew⟩ | ⟨hfull, -⟩
  · rw [hnew]
    rcases lt_trichotomy j i with hlt | heq | hgt
    · rw [hother j hlt.ne] at hvacant
      exact absurd hvacant (hbefore j hlt)
    · rw [heq]
    · exact absurd hself (hbefore' i hgt)
  · exact absurd hself (hfull i)

/-- A handler of the old process is a handler of the new one. -/
theorem not_alike_of_handler {i : Fin maxProcesses} (hslot : k.getNewCtx.1 = some i) (args : InitArgs)
    (scratch : UserRegs) {signal : Signal} (hhandler : (k.ctxs (some i)).sighandlers signal ≠ 0) :
    ¬ ExecContext.Alike (((k.unusedSlot i).launch args scratch).ctxs (some i))
      ((k.launch args scratch).ctxs (some i)) := by
  obtain ⟨stack, pgd, hrecord⟩ := launch_record hslot args scratch
  obtain ⟨stack', pgd', hrecord'⟩ := launch_record (getNewCtx_unusedSlot hslot) args scratch
  intro halike
  have hsame := congrFun halike.handlers_eq signal
  rw [hrecord, hrecord', unusedSlot_self] at hsame
  exact hhandler hsame

/-- Whatever ran in the slot before, the record of the new process is like one made in a slot never used exactly when
the old record is spotless. -/
theorem launch_alike_iff (k : Kernel) {i : Fin maxProcesses} (hslot : k.getNewCtx.1 = some i) (args : InitArgs)
    (scratch : UserRegs) :
    ExecContext.Alike (((k.unusedSlot i).launch args scratch).ctxs (some i)) ((k.launch args scratch).ctxs (some i)) ↔
      (k.ctxs (some i)).Spotless := by
  obtain ⟨stack, pgd, hrecord⟩ := launch_record hslot args scratch
  obtain ⟨stack', pgd', hrecord'⟩ := launch_record (getNewCtx_unusedSlot hslot) args scratch
  rw [hrecord, hrecord', unusedSlot_self]
  exact ExecContext.alike_setUp_iff _ _ _ _ _ _

/-- The slot of the first init. -/
def firstSlot : Fin maxProcesses := ⟨1, by decide⟩

/-- The first init registers an alarm handler and exits. -/
def afterHandler : Kernel :=
  run step blankBoot (launchInit :: (callEvents 8 2 0x100001000 ++ callEvents 1 0 0))

theorem launch_alike_iff_reused :
    ExecContext.Alike (((afterHandler.unusedSlot firstSlot).launch ⟨0, 0, 0, 0, 0⟩ .zero).ctxs (some firstSlot))
        ((afterHandler.launch ⟨0, 0, 0, 0, 0⟩ .zero).ctxs (some firstSlot)) ↔
      (afterHandler.ctxs (some firstSlot)).Spotless :=
  launch_alike_iff afterHandler (by decide +kernel) _ _

/-- The second init starts with that handler. -/
theorem afterHandler_not_alike :
    Reachable afterHandler ∧ afterHandler.mode = .shell ∧ afterHandler.getNewCtx.1 = some firstSlot ∧
      ¬ ExecContext.Alike (((afterHandler.unusedSlot firstSlot).launch ⟨0, 0, 0, 0, 0⟩ .zero).ctxs (some firstSlot))
        ((afterHandler.launch ⟨0, 0, 0, 0, 0⟩ .zero).ctxs (some firstSlot)) := by
  have hslot : afterHandler.getNewCtx.1 = some firstSlot := by decide +kernel
  have hhandler : (afterHandler.ctxs (some firstSlot)).sighandlers .sigalrm = 0x100001000 := by decide +kernel
  refine ⟨reachable_blankBoot _, by decide +kernel, hslot, fun halike ↦ ?_⟩
  exact not_alike_of_handler hslot _ _ (by rw [hhandler]; decide) halike

end Kernel

end GemOS
