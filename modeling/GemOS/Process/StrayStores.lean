import GemOS.Foundation.Layout
import GemOS.Process.Machine

/-!
# Stores in memory of the kernel

`invoke_sync_signal` stores the interrupted instruction pointer below a stack pointer that user code chose. Nothing
keeps that pointer out of the kernel's window, where the word lands in a record of the process table, in a page table,
in a bitmap of the allocator or in a frame of some other process, and the system goes on. User code itself gets there
through its page table, once a frame was handed out twice and the process writes entries of its own. `fullStep`
follows such stores. On every other event it is `step`, so that what holds along the runs of `step` holds along those
runs of `fullStep` that meet no stray store.

A store into other memory of the kernel, such as its text, its variables or the stack it runs on, is not followed, nor
is one that makes a record name another kernel stack or return to other than user code.
-/

namespace GemOS

open Foundation Memory

def maxSignals : ℕ := 3
def maxMmSegs : ℕ := 4

/-- The fields of `struct mm_segment`. -/
def mmSegmentFields : List Field := [.scalar 8, .scalar 8, .scalar 8, .scalar 4]

/-- The fields of `struct user_regs`. -/
def userRegsFields : List Field := List.replicate 20 (.scalar 8)

/-- The fields of `struct exec_context`. -/
def execContextFields : List Field :=
  [.scalar 4, .scalar 4, .scalar 1, .scalar 1, .scalar 2, .scalar 4, .scalar 4, .scalar 8,
    (Field.ofRecord mmSegmentFields).array maxMmSegs, (Field.scalar 1).array cnameMax,
      .ofRecord userRegsFields, .scalar 4,
    (Field.scalar 8).array maxSignals, .scalar 4, .scalar 4, .scalar 4]

/-- The registers lie behind the name, where `do_clone` overwrites them. -/
example : fieldOffsets 0 execContextFields =
    [0, 4, 8, 9, 10, 12, 16, 24, 32, 160, 224, 384, 392, 416, 420, 424] := by decide

theorem recordSize_execContext : recordSize execContextFields = 432 := by decide

/-- An enumeration in memory. -/
def ContextType.ofByte : ℕ → Option ContextType
  | 0 => some .boot
  | 1 => some .os
  | 2 => some .user
  | _ => none

def ProcessState.ofByte : ℕ → Option ProcessState
  | 0 => some .unused
  | 1 => some .new
  | 2 => some .ready
  | 3 => some .running
  | 4 => some .waiting
  | 5 => some .exiting
  | _ => none

/-- Change the register at a place of `struct user_regs`, but for the flags and the segments, which make up what the
frame returns to. -/
def UserRegs.mapWord (f : ℕ → ℕ) (regs : UserRegs) : ℕ → Option UserRegs
  | 0 => some { regs with r15 := f regs.r15 }
  | 1 => some { regs with r14 := f regs.r14 }
  | 2 => some { regs with r13 := f regs.r13 }
  | 3 => some { regs with r12 := f regs.r12 }
  | 4 => some { regs with r11 := f regs.r11 }
  | 5 => some { regs with r10 := f regs.r10 }
  | 6 => some { regs with r9 := f regs.r9 }
  | 7 => some { regs with r8 := f regs.r8 }
  | 8 => some { regs with rbp := f regs.rbp }
  | 9 => some { regs with rdi := f regs.rdi }
  | 10 => some { regs with rsi := f regs.rsi }
  | 11 => some { regs with rdx := f regs.rdx }
  | 12 => some { regs with rcx := f regs.rcx }
  | 13 => some { regs with rbx := f regs.rbx }
  | 14 => some { regs with rax := f regs.rax }
  | 15 => some { regs with entryRip := f regs.entryRip }
  | 18 => some { regs with entryRsp := f regs.entryRsp }
  | _ => none

/-- Store a byte in a saved frame of user code. -/
def UserRegs.setByte (regs : UserRegs) (offset value : ℕ) : Option UserRegs :=
  if regs.entryCs = userCs then regs.mapWord (fun word ↦ setByteOf word (offset % 8) value) (offset / 8) else none

/-- The segment at a place of `mms`. -/
def MmSeg.ofIndex : ℕ → MmSeg
  | 0 => .code
  | 1 => .rodata
  | 2 => .data
  | _ => .stack

/-- The signal at a place of `sighandlers`. -/
def Signal.ofIndex : ℕ → Signal
  | 0 => .sigsegv
  | 1 => .sigfpe
  | _ => .sigalrm

/-- Store a byte in a segment record; the last word is padding. -/
def MmSegment.setByte (mm : MmSegment) (offset value : ℕ) : MmSegment :=
  if offset < 8 then { mm with start := setByteOf mm.start offset value }
  else if offset < 16 then { mm with stop := setByteOf mm.stop (offset - 8) value }
  else if offset < 24 then { mm with nextFree := setByteOf mm.nextFree (offset - 16) value }
  else if offset < 28 then { mm with accessFlags := setByteOf mm.accessFlags (offset - 24) value }
  else mm

/-- Store a byte in a record. What is no context number, no type and no state is not followed, nor is a new kernel
stack. -/
def ExecContext.setByte (ctx : ExecContext) (offset value : ℕ) : Option ExecContext :=
  if offset < 4 then
    let pid := setByteOf ctx.pid offset value
    if pid < maxProcesses then some { ctx with pid := pid } else none
  else if offset < 8 then some { ctx with ppid := setByteOf ctx.ppid (offset - 4) value }
  else if offset = 8 then (ContextType.ofByte value).map fun type ↦ { ctx with type := type }
  else if offset = 9 then (ProcessState.ofByte value).map ctx.setState
  else if offset < 12 then some { ctx with usedMem := setByteOf ctx.usedMem (offset - 10) value }
  else if offset < 16 then some { ctx with pgd := setByteOf ctx.pgd (offset - 12) value }
  else if offset < 20 then none
  else if offset < 24 then some ctx
  else if offset < 32 then none
  else if offset < 160 then
    let seg := MmSeg.ofIndex ((offset - 32) / 32)
    some { ctx with mms := Function.update ctx.mms seg ((ctx.mms seg).setByte ((offset - 32) % 32) value) }
  else if offset < 224 then some { ctx with name := Function.update ctx.name (offset - 160) (value % 256) }
  else if offset < 384 then (ctx.regs.setByte (offset - 224) value).map ctx.saveRegs
  else if offset < 388 then
    some { ctx with pendingSignalBitmap := setByteOf ctx.pendingSignalBitmap (offset - 384) value }
  else if offset < 392 then some ctx
  else if offset < 416 then
    let signo := Signal.ofIndex ((offset - 392) / 8)
    let handler := setByteOf (ctx.sighandlers signo) ((offset - 392) % 8) value
    some { ctx with sighandlers := Function.update ctx.sighandlers signo handler }
  else if offset < 420 then some { ctx with ticksToSleep := setByteOf ctx.ticksToSleep (offset - 416) value }
  else if offset < 424 then some { ctx with alarmConfigTime := setByteOf ctx.alarmConfigTime (offset - 420) value }
  else if offset < 428 then some { ctx with ticksToAlarm := setByteOf ctx.ticksToAlarm (offset - 424) value }
  else some ctx

/-- Store a byte in a bitmap. -/
def PageList.setByte (pgl : PageList) (offset value : ℕ) : PageList :=
  let word := pgl.bitmap (offset / 4)
  let stored := BitVec.ofNat 32 (setByteOf word.toNat (offset % 4) value)
  { pgl with bitmap := Function.update pgl.bitmap (offset / 4) stored }

namespace Kernel

/-- The record that a physical address belongs to, and the offset there. -/
def recordAt (k : Kernel) (addr : ℕ) : Option (CtxPtr × ℕ) :=
  let size := recordSize execContextFields
  let list := k.bootFrames.ctxList * pageSize
  if addr < size then some (none, addr)
  else if list ≤ addr ∧ addr < list + maxProcesses * size then
    some (getCtxByPid ((addr - list) / size), (addr - list) % size)
  else none

/-- The region whose bitmap lies in the frame. -/
def bitmapAt (pfn : ℕ) : Option Region :=
  [Region.osDs, .osPt, .user].find? fun region ↦
    decide (region.base ≤ pfn ∧ pfn < region.base + region.reserved)

/-- A byte is stored in memory of the kernel. -/
def followStore : KernelStore := fun pfn offset value k ↦
  match k.recordAt (pfn * pageSize + offset) with
  | some (p, place) =>
    match (k.ctxs p).setByte place value with
    | some ctx => k.updateCtx p fun _ ↦ ctx
    | none => { k with mode := .corrupt }
  | none =>
    match bitmapAt pfn with
    | some region =>
      let pgl := (k.mem.pglists region).setByte ((pfn - region.base) * pageSize + offset) value
      { k with mem.pglists := Function.update k.mem.pglists region pgl }
    | none =>
      if k.Plain pfn then { k with mem.phys := k.mem.phys.setByte pfn offset value }
      else { k with mode := .corrupt }

/-- One step of the machine. -/
def fullStep : Event → Kernel → Kernel := stepWith followStore

/-- The event stores in memory of the kernel: a signal frame where the page table in use maps memory for the kernel
only, or a byte through a user page that is a frame with structures of the kernel. -/
def StrayStore (event : Event) (k : Kernel) : Prop := k.mode ≠ .corrupt ∧ (step event k).mode = .corrupt

instance (event : Event) (k : Kernel) : Decidable (StrayStore event k) := by
  unfold StrayStore
  infer_instance

/-- No event of the run stores in memory of the kernel. -/
def NoStrayStores (k : Kernel) (events : List Event) : Prop :=
  Along fullStep (fun k event ↦ ¬ StrayStore event k) k events

instance (k : Kernel) (events : List Event) : Decidable (NoStrayStores k events) := by
  unfold NoStrayStores
  infer_instance

/-- The programs of the two machines do the same, up to a stray store. -/
abbrev Alike {α : Type} (p q : Prog Kernel α) : Prop := Retraces (fun k ↦ k.mode = .corrupt) p q

variable {store : KernelStore} {k : Kernel}

theorem putByteWith_eq (store : KernelStore) (mapping : Mapping) (addr value : ℕ) (k : Kernel) :
    putByteWith store mapping addr value k = putByte mapping addr value k ∨
      (putByte mapping addr value k).mode = .corrupt := by
  unfold putByte putByteWith
  split
  · exact Or.inl rfl
  · exact Or.inr rfl

theorem kernelPutWith_eq (store : KernelStore) (phys : PhysMem) (addr value : ℕ) (k : Kernel) :
    kernelPutWith store phys addr value k = kernelPut phys addr value k ∨
      (kernelPut phys addr value k).mode = .corrupt := by
  unfold kernelPut kernelPutWith
  cases hwWalk phys k.cr3 addr with
  | none => exact Or.inl rfl
  | some mapping => exact putByteWith_eq store mapping addr value _

/-- By induction on the bytes. -/
theorem putBytesWith_eq (store : KernelStore) (phys : PhysMem) (addr word count : ℕ) (k : Kernel) :
    putBytesWith store phys addr word count k = putBytes phys addr word count k ∨
      (putBytes phys addr word count k).mode = Mode.corrupt := by
  induction count with
  | zero => exact Or.inl rfl
  | succ count ih =>
    rcases ih with heq | hlost
    · unfold putBytes putBytesWith
      rw [heq]
      exact kernelPutWith_eq store phys _ _ _
    · exact Or.inr (kernelPut_lost phys _ _ hlost)

theorem putWordWith_eq (store : KernelStore) (slot word : ℕ) (k : Kernel) :
    putWordWith store slot word k = putWord slot word k ∨ (putWord slot word k).mode = Mode.corrupt := by
  unfold putWord putWordWith
  exact putBytesWith_eq store k.mem.phys slot word 8 k

theorem settle_lost (hlost : k.mode = .corrupt) : settle k = .gone k := by
  change (if k.mode = .corrupt then Prog.leave id else pure () : Prog Kernel Unit) k = _
  rw [if_pos hlost]
  rfl

/-- Two updates that are the same unless the run ends there. -/
theorem alike_settle {f g : Kernel → Kernel} (h : ∀ k, g k = f k ∨ (f k).mode = .corrupt) :
    Alike (Prog.update f >>= fun _ ↦ settle) (Prog.update g >>= fun _ ↦ settle) := by
  refine ⟨fun k ↦ ?_⟩
  change settle (g k) = settle (f k) ∨ ∃ k', settle (f k) = .gone k' ∧ k'.mode = .corrupt
  rcases h k with heq | hlost
  · exact Or.inl (congrArg settle heq)
  · exact Or.inr ⟨f k, settle_lost hlost, hlost⟩

theorem alike_pushFrame (store : KernelStore) (slot word : ℕ) :
    Alike (pushFrame slot word) (pushFrameWith store slot word) :=
  (Retraces.refl _).bind fun _ ↦ alike_settle (putWordWith_eq store slot word)

theorem alike_invokeSyncSignal (signo : Signal) {deliver deliver' : Prog Kernel Unit} (h : Alike deliver deliver') :
    Alike (invokeSyncSignal signo deliver) (invokeSyncSignal signo deliver') :=
  .read_bind fun _ ↦ .ite (.refl _) (.ite h (.refl _))

theorem alike_deliverUser (store : KernelStore) (signo : Signal) :
    Alike (deliverUser signo) (deliverUserWith store signo) :=
  .read_bind fun _ ↦ (alike_pushFrame store _ _).bind fun _ ↦ .refl _

theorem alike_signalRunning (store : KernelStore) (signo : Signal) :
    Alike (signalRunning signo) (signalRunningWith store signo) :=
  .read_bind fun _ ↦ alike_invokeSyncSignal signo (.ite (alike_deliverUser store signo) (.refl _))

theorem alike_doPageFault {signal signal' : Prog Kernel Unit} (h : Alike signal signal') (cr2 errorCode : ℕ) :
    Alike (doPageFault signal cr2 errorCode) (doPageFault signal' cr2 errorCode) :=
  (Retraces.refl _).bind fun _ ↦ .read_bind fun _ ↦ .ite (.refl _) h

theorem alike_userTouch (store : KernelStore) (addr : ℕ) (write : Bool) {perform perform' : Mapping → Prog Kernel Unit}
    (h : ∀ mapping, Alike (perform mapping) (perform' mapping)) :
    Alike (userTouchWith stopStore addr write perform) (userTouchWith store addr write perform') := by
  have hfault := fun errorCode ↦ alike_doPageFault (alike_signalRunning store .sigsegv) addr errorCode
  refine .read_bind fun k ↦ .ite (.refl _) ?_
  cases hwWalk k.mem.phys k.cr3 addr with
  | none => exact hfault _
  | some mapping => exact .ite (h mapping) (hfault _)

theorem alike_pageFaultGate (store : KernelStore) : Alike pageFaultGate (pageFaultGateWith store) :=
  .read_bind fun _ ↦
    (alike_doPageFault (alike_invokeSyncSignal .sigsegv (alike_pushFrame store _ _)) _ _).bind fun _ ↦ .refl _

theorem alike_accountAlarm (store : KernelStore) : Alike accountAlarm (accountAlarmWith store) := by
  refine .read_bind fun k ↦ .ite (.bind (.refl _) fun _ ↦ .ite ?_ (.refl _)) (.refl _)
  exact (alike_signalRunning store .sigalrm).bind fun _ ↦ .refl _

theorem alike_handleTimerTick (store : KernelStore) : Alike handleTimerTick (handleTimerTickWith store) :=
  (Retraces.refl _).bind fun _ ↦ (alike_accountAlarm store).bind fun _ ↦ .refl _

theorem alike_userProgram (store : KernelStore) (event : Event) :
    Alike (userProgram event) (userProgramWith store event) := by
  cases event with
  | launch | compute | syscall | protection => exact .refl _
  | load addr => exact alike_userTouch store addr false fun _ ↦ .refl _
  | store addr value =>
    exact alike_userTouch store addr true fun mapping ↦ alike_settle (putByteWith_eq store mapping addr value)
  | divide => exact alike_signalRunning store .sigfpe
  | pageFaultGate => exact alike_pageFaultGate store
  | tick => exact alike_handleTimerTick store

/-- Without a stray store the machines make the same step. -/
theorem fullStep_eq {event : Event} (h : ¬ StrayStore event k) : fullStep event k = step event k := by
  have hkept : k.mode ≠ .corrupt → (step event k).mode ≠ .corrupt := fun hmode hlost ↦ h ⟨hmode, hlost⟩
  unfold step fullStep stepWith at *
  cases hmode : k.mode with
  | user =>
    rw [hmode] at hkept
    exact (alike_userProgram followStore event).final (hkept (by decide))
  | swapper =>
    cases event with
    | tick =>
      rw [hmode] at hkept
      exact (alike_handleTimerTick followStore).final (hkept (by decide))
    | _ => rfl
  | _ => cases event <;> rfl

theorem NoStrayStores.agree {events : List Event} (h : NoStrayStores k events) :
    Along fullStep (fun k event ↦ fullStep event k = step event k) k events := h.mono fun _ _ ↦ fullStep_eq

/-- Without stray stores the machines make the same run. -/
theorem NoStrayStores.run_eq {events : List Event} (h : NoStrayStores k events) :
    run fullStep k events = run step k events := run_of_agree h.agree

theorem NoStrayStores.along_iff {C : Kernel → Event → Prop} {events : List Event} (h : NoStrayStores k events) :
    Along fullStep C k events ↔ Along step C k events := along_of_agree h.agree

theorem NoStrayStores.countAlong_eq {C : Event → Kernel → Prop} [∀ event k, Decidable (C event k)] {events : List Event}
    (h : NoStrayStores k events) : countAlong fullStep C k events = countAlong step C k events :=
  countAlong_of_agree h.agree

/-- The alarm of a tick without a stray store. -/
theorem accountAlarm_eq (hmode : k.mode = .user) (h : ¬ StrayStore .tick k) :
    accountAlarmWith followStore k.accountSleep = accountAlarm k.accountSleep := by
  rcases (alike_accountAlarm followStore).retraces k.accountSleep with heq | ⟨k', hgone, hlost⟩
  · exact heq
  · refine absurd ⟨by rw [hmode]; decide, ?_⟩ h
    have hleaves : handleTimerTick k = .gone k' := by
      change Prog.bind accountAlarm _ k.accountSleep = _
      unfold Prog.bind
      rw [hgone]
    rw [step_user hmode]
    change (handleTimerTick.final k).mode = .corrupt
    rw [Prog.final, hleaves]
    exact hlost

/-- A tick that runs to its end stored no stray store. -/
theorem fullStep_tick {k' : Kernel} (hmode : k.mode = .user) (hreturn : handleTimerTick k = .ret () k') :
    fullStep .tick k = step .tick k := by
  unfold step fullStep stepWith
  rw [hmode]
  change (handleTimerTickWith followStore).final k = handleTimerTick.final k
  rw [Prog.final, (alike_handleTimerTick followStore).eq_of_ret hreturn]
  rfl

/-- A system call stores no signal frame. -/
theorem fullStep_syscall (peek : ℕ → ℕ) (k : Kernel) : fullStep (.syscall peek) k = step (.syscall peek) k := by
  unfold step fullStep stepWith
  cases k.mode <;> rfl

end Kernel

theorem run_corrupt {k : Kernel} (hlost : k.mode = .corrupt) (events : List Event) :
    run Kernel.step k events = k := by
  induction events with
  | nil => rfl
  | cons event events ih =>
    have hstays : Kernel.step event k = k :=
      Kernel.step_stopped (by rw [hlost]; decide) (by rw [hlost]; decide) (by rw [hlost]; decide) event
    rw [run_cons, hstays, ih]

/-- The machine that stops at stray stores has met none as long as it goes on; by induction on the run. -/
theorem noStrayStores_of_mode {k : Kernel} {events : List Event} (hmode : (run Kernel.step k events).mode ≠ .corrupt) :
    Kernel.NoStrayStores k events := by
  induction events generalizing k with
  | nil => exact .nil k
  | cons event events ih =>
    rw [run_cons] at hmode
    have hkept : (Kernel.step event k).mode ≠ .corrupt := fun hlost ↦ hmode (by rw [run_corrupt hlost, hlost])
    have hhere : ¬ Kernel.StrayStore event k := fun hframe ↦ hkept hframe.2
    refine .cons hhere ?_
    rw [Kernel.fullStep_eq hhere]
    exact ih hmode

/-- A state that the machine reaches after boot in a run without stray stores. -/
def SafelyReachable (k : Kernel) : Prop :=
  ∃ phys apicBase wp null events, Kernel.NoStrayStores (Kernel.boot phys apicBase wp null) events ∧
    k = run Kernel.fullStep (Kernel.boot phys apicBase wp null) events

theorem SafelyReachable.reachable {k : Kernel} (h : SafelyReachable k) : Reachable k := by
  obtain ⟨phys, apicBase, wp, null, events, hsafe, rfl⟩ := h
  exact ⟨phys, apicBase, wp, null, events, hsafe.run_eq⟩

theorem Reachable.safely {k : Kernel} (h : Reachable k) (hmode : k.mode ≠ .corrupt) : SafelyReachable k := by
  obtain ⟨phys, apicBase, wp, null, events, rfl⟩ := h
  have hsafe := noStrayStores_of_mode hmode
  exact ⟨phys, apicBase, wp, null, events, hsafe, hsafe.run_eq.symm⟩

theorem safelyReachable_blankBoot (events : List Event) (hsafe : Kernel.NoStrayStores blankBoot events) :
    SafelyReachable (run Kernel.fullStep blankBoot events) := ⟨_, _, _, _, events, hsafe, rfl⟩

section Overwriting

/-- The address of a byte in the record of a process. -/
def recordAddr (pid offset : ℕ) : ℕ := 0x2004 * pageSize + pid * recordSize execContextFields + offset

example : blankBoot.bootFrames.ctxList = 0x2004 := by decide +kernel

/-- A process asks for a signal at the next tick, jumps to `rip` with the stack pointer above `addr`, and is
interrupted: `rip` is stored at `addr`. -/
def frameEvents (addr rip : ℕ) : List Event :=
  callEvents 8 2 codeStart ++ callEvents 6 1 0 ++
    [.compute { UserRegs.zero with entryRip := rip, entryRsp := addr + 8 }, .tick]

end Overwriting

end GemOS
