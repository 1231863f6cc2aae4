import GemOS.Process.Schedule

/-!
# Signals, page faults and kernel accesses

`do_page_fault` serves a fault on a page of the DATA, RODATA or STACK segment below `next_free` and
sends `SIGSEGV` otherwise; `invoke_sync_signal` ends the process or rewrites the interrupted frame so
that it continues in the handler. Both are used for frames pushed from user mode and, when the kernel
itself faults on a user-chosen address, for frames pushed from the kernel. In the second case the
instruction pointer is stored over the frame itself, and the return from the interrupt faults.

The kernel reads and writes user memory through the page table in use (`kernelTouch`). A fault it takes
there is served or ends the process, and the access is tried again.
-/

namespace GemOS

open Foundation Memory

/-- The error code of a page fault. -/
def pfError (present write user : Bool) : ℕ :=
  (if present then 0x1 else 0) + (if write then 0x2 else 0) + (if user then 0x4 else 0)

/-- The tests of `do_page_fault` before `install_page_table`. -/
def demandPaged (ctx : ExecContext) (cr2 errorCode : ℕ) : Bool :=
  if errorCode &&& 0x1 ≠ 0 then false
  else if (ctx.mms .data).start ≤ cr2 ∧ cr2 ≤ (ctx.mms .data).stop then
    decide (cr2 < (ctx.mms .data).nextFree)
  else if (ctx.mms .rodata).start ≤ cr2 ∧ cr2 ≤ (ctx.mms .rodata).stop then
    decide (cr2 < (ctx.mms .rodata).nextFree ∧ errorCode &&& 0x2 = 0)
  else if (ctx.mms .stack).start ≤ cr2 ∧ cr2 ≤ (ctx.mms .stack).stop then
    decide (cr2 < (ctx.mms .stack).nextFree)
  else false

namespace Kernel

/-- `do_gp`, entered with the boot page table. -/
def doGp (k : Kernel) : Kernel := { k with cr3 := swapperPgd }.doExit

/-- `invoke_sync_signal`, with the code that rewrites the frame. -/
def invokeSyncSignal (signo : Signal) (deliver : Prog Kernel Unit) : Prog Kernel Unit := do
  let k ← Prog.read
  if k.ctx.sighandlers signo = 0 ∧ signo ≠ .sigalrm then Prog.leave doExit
  else if k.ctx.sighandlers signo ≠ 0 then deliver
  else pure ()

/-- Rewrite a frame pushed from kernel mode. The word below the interrupted stack pointer is the stack
segment of the frame itself: the return from the interrupt loads the instruction pointer for it, which is
a protection fault. -/
def deliverKernel : Prog Kernel Unit := Prog.leave doGp

/-- A page fault is counted, and its address is in `CR2`. -/
def notePageFault (cr2 : ℕ) (k : Kernel) : Kernel :=
  { k with cr2 := cr2, stats.pageFaults := k.stats.pageFaults + 1 }

/-- `do_page_fault`, with the signal for a fault that is not served. -/
def doPageFault (signal : Prog Kernel Unit) (cr2 errorCode : ℕ) : Prog Kernel Unit := do
  Prog.update (notePageFault cr2)
  let k ← Prog.read
  if demandPaged k.ctx cr2 errorCode then
    Prog.update fun k ↦ { k with mem := installPageTable k.ctx.pgd cr2 errorCode k.mem }
  else signal

/-- A page fault of the kernel itself. -/
def kernelPageFault (cr2 errorCode : ℕ) : Prog Kernel Unit :=
  doPageFault (invokeSyncSignal .sigsegv deliverKernel) cr2 errorCode

/-- Rounds of a kernel access that faults. -/
def touchRounds : ℕ := 3

/-- Make the byte at `addr` accessible to the kernel. -/
def kernelTouch (addr : ℕ) (write : Bool) : ℕ → Prog Kernel Unit
  | 0 => Prog.leave fun k ↦ { k with mode := .hung }
  | rounds + 1 => do
    let k ← Prog.read
    if ¬ Canonical addr then Prog.leave doGp
    else
      match hwWalk k.mem.phys k.cr3 addr with
      | some mapping =>
        if mapping.KernelMay k.wp write then pure ()
        else do
          kernelPageFault addr (pfError true write false)
          kernelTouch addr write rounds
      | none => do
        kernelPageFault addr (pfError false write false)
        kernelTouch addr write rounds

/-- Record an access through a user-chosen address, translated in the memory `phys`. -/
def record (phys : PhysMem) (addr : ℕ) (write : Bool) (k : Kernel) : Kernel :=
  { k with
    accesses := ⟨addr, write, decide (UserAccessible phys k.cr3 addr write)⟩ :: k.accesses }

end Kernel

/-- The byte at an offset of a frame. -/
def PhysMem.byteAt (phys : PhysMem) (pfn offset : ℕ) : ℕ := byteOf (phys pfn (offset / 8)) (offset % 8)

def PhysMem.setByte (phys : PhysMem) (pfn offset value : ℕ) : PhysMem :=
  phys.write pfn (offset / 8) (setByteOf (phys pfn (offset / 8)) (offset % 8) value)

theorem PhysMem.byteAt_setByte (phys : PhysMem) (pfn offset value pfn' offset' : ℕ) :
    (phys.setByte pfn offset value).byteAt pfn' offset' =
      if pfn' = pfn ∧ offset' = offset then value % 256 else phys.byteAt pfn' offset' := by
  unfold byteAt setByte PhysMem.write
  by_cases hword : pfn' = pfn ∧ offset' / 8 = offset / 8
  · rw [if_pos hword, byteOf_setByteOf, hword.1, hword.2]
    have hoffset : offset' % 8 = offset % 8 ↔ offset' = offset := by omega
    simp only [hoffset, true_and]
  · rw [if_neg hword, if_neg fun heq ↦ hword ⟨heq.1, by rw [heq.2]⟩]

namespace Kernel

/-- What lies in the frame is in `phys`: it belongs to the user region, or to the page-table region and holds none of
the structures set up at boot, nor the stack that the kernel runs on. -/
def Plain (k : Kernel) (pfn : ℕ) : Prop :=
  Region.user.Usable pfn ∨
    Region.osPt.Usable pfn ∧
      pfn ∉ [k.bootFrames.tssPage, k.bootFrames.irqStack, k.bootFrames.idtTable, k.bootFrames.ctxList,
        (k.ctxs swapper).osStackPfn, k.rsp0 / pageSize - 1]

instance (k : Kernel) (pfn : ℕ) : Decidable (k.Plain pfn) := by
  unfold Plain
  infer_instance

/-- Load a byte; memory of the kernel itself, which the model does not hold as frames, is given by
`peek`. -/
def kernelLoad (peek : ℕ → ℕ) (addr : ℕ) : Prog Kernel ℕ := do
  kernelTouch addr false touchRounds
  Prog.update fun k ↦ k.record k.mem.phys addr false
  let k ← Prog.read
  match hwWalk k.mem.phys k.cr3 addr with
  | some mapping =>
    pure (if mapping.user ∧ k.Plain mapping.pfn then k.mem.phys.byteAt mapping.pfn (addr % pageSize) else peek addr)
  | none => pure 0

/-- The `i`-th byte from `addr` on, where the address space wraps. -/
def addrAt (addr i : ℕ) : ℕ := (addr + i) % 2 ^ 64

/-- Make `count` bytes accessible for writing. -/
def touchAll (addr : ℕ) : ℕ → Prog Kernel Unit
  | 0 => pure ()
  | count + 1 => do
    touchAll addr count
    kernelTouch (addrAt addr count) true touchRounds

/-- Make a word accessible for writing. -/
@[irreducible] def touchWord (addr : ℕ) : Prog Kernel Unit := touchAll addr 8

/-- What becomes of a byte that is stored where the page table in use maps memory for the kernel only, or a frame
that holds structures of the kernel: at an offset of a frame, a value. -/
abbrev KernelStore := ℕ → ℕ → ℕ → Kernel → Kernel

/-- The run is followed up to such a store. -/
def stopStore : KernelStore := fun _ _ _ k ↦ { k with mode := .corrupt }

/-- Store a byte through a mapping. -/
def putByteWith (store : KernelStore) (mapping : Mapping) (addr value : ℕ) (k : Kernel) : Kernel :=
  if mapping.user ∧ k.Plain mapping.pfn then
    { k with mem.phys := k.mem.phys.setByte mapping.pfn (addr % pageSize) value }
  else store mapping.pfn (addr % pageSize) value k

/-- Store a byte that is accessible. The address is translated in `phys`, the memory before the word that the
byte belongs to is stored. -/
def kernelPutWith (store : KernelStore) (phys : PhysMem) (addr value : ℕ) (k : Kernel) : Kernel :=
  match hwWalk phys k.cr3 addr with
  | some mapping => putByteWith store mapping addr value (k.record phys addr true)
  | none => k

/-- Store the lower `count` bytes of a word. -/
def putBytesWith (store : KernelStore) (phys : PhysMem) (addr word : ℕ) : ℕ → Kernel → Kernel
  | 0, k => k
  | count + 1, k =>
    kernelPutWith store phys (addrAt addr count) (byteOf word count) (putBytesWith store phys addr word count k)

@[irreducible] def putWordWith (store : KernelStore) (addr word : ℕ) (k : Kernel) : Kernel :=
  putBytesWith store k.mem.phys addr word 8 k

/-- The stack slot of a signal frame. -/
def signalSlot (regs : UserRegs) : ℕ := (regs.entryRsp + 2 ^ 64 - 8) % 2 ^ 64

/-- A run that is not followed any further ends. -/
def settle : Prog Kernel Unit := do
  let k ← Prog.read
  if k.mode = .corrupt then Prog.leave id else pure ()

/-- Store a word in the stack slot of a signal frame. -/
def pushFrameWith (store : KernelStore) (slot word : ℕ) : Prog Kernel Unit := do
  touchWord slot
  Prog.update (putWordWith store slot word)
  settle

/-- Rewrite a frame pushed from user mode: store the old instruction pointer below the user stack
pointer, then continue in the handler. -/
def deliverUserWith (store : KernelStore) (signo : Signal) : Prog Kernel Unit := do
  let k ← Prog.read
  pushFrameWith store (signalSlot k.regs) k.regs.entryRip
  Prog.update fun k₁ ↦
    { k₁ with regs := { k₁.regs with entryRsp := signalSlot k.regs, entryRip := k₁.ctx.sighandlers signo } }

/-- A handler of the swapper, which has none, would run with the kernel's code segment. -/
def deliverSwapper : Prog Kernel Unit := Prog.leave fun k ↦ { k with mode := .ring0 }

/-- A signal to the code that runs: a user process, or the swapper. -/
def signalRunningWith (store : KernelStore) (signo : Signal) : Prog Kernel Unit := do
  let k ← Prog.read
  invokeSyncSignal signo (if k.mode = .user then deliverUserWith store signo else deliverSwapper)

/-- `do_div_by_zero`. -/
def doDivByZeroWith (store : KernelStore) : Prog Kernel Unit := signalRunningWith store .sigfpe

/-- A page fault of user code. -/
def userPageFaultWith (store : KernelStore) (cr2 errorCode : ℕ) : Prog Kernel Unit :=
  doPageFault (signalRunningWith store .sigsegv) cr2 errorCode

/-- The frame that `handle_page_fault` finds when no error code lies below it: each field is one word up. -/
def gateFrame (regs : UserRegs) : UserRegs :=
  { regs with
    entryRip := regs.entryCs
    entryCs := regs.entryRflags
    entryRflags := regs.entryRsp
    entryRsp := regs.entrySs }

/-- `int $0xe` of user code. No error code is pushed: `handle_page_fault` takes the instruction pointer for
it, `do_page_fault` reads the `CR2` of an earlier fault, and the return from the interrupt loads the flags
for the code segment, which is a protection fault. -/
def pageFaultGateWith (store : KernelStore) : Prog Kernel Unit := do
  let k ← Prog.read
  let frame := gateFrame k.regs
  doPageFault (invokeSyncSignal .sigsegv (pushFrameWith store (signalSlot frame) frame.entryRip)) k.cr2
    k.regs.entryRip
  Prog.leave doGp

/-- An access of user code: performed, or a fault. -/
def userTouchWith (store : KernelStore) (addr : ℕ) (write : Bool) (perform : Mapping → Prog Kernel Unit) :
    Prog Kernel Unit := do
  let k ← Prog.read
  if ¬ Canonical addr then Prog.leave doGp
  else
    match hwWalk k.mem.phys k.cr3 addr with
    | some mapping =>
      if mapping.UserMay write then perform mapping
      else userPageFaultWith store addr (pfError true write true)
    | none => userPageFaultWith store addr (pfError false write true)

def userLoadWith (store : KernelStore) (addr : ℕ) : Prog Kernel Unit :=
  userTouchWith store addr false fun _ ↦ pure ()

def userStoreWith (store : KernelStore) (addr value : ℕ) : Prog Kernel Unit :=
  userTouchWith store addr true fun mapping ↦ do
    Prog.update (putByteWith store mapping addr value)
    settle

/-! The same programs, followed up to a store into memory of the kernel. -/

abbrev putByte (mapping : Mapping) (addr value : ℕ) : Kernel → Kernel := putByteWith stopStore mapping addr value
abbrev kernelPut (phys : PhysMem) (addr value : ℕ) : Kernel → Kernel := kernelPutWith stopStore phys addr value
abbrev putBytes (phys : PhysMem) (addr word : ℕ) : ℕ → Kernel → Kernel := putBytesWith stopStore phys addr word
abbrev putWord (addr word : ℕ) : Kernel → Kernel := putWordWith stopStore addr word
abbrev pushFrame (slot word : ℕ) : Prog Kernel Unit := pushFrameWith stopStore slot word
abbrev deliverUser (signo : Signal) : Prog Kernel Unit := deliverUserWith stopStore signo
abbrev signalRunning (signo : Signal) : Prog Kernel Unit := signalRunningWith stopStore signo
abbrev userPageFault (cr2 errorCode : ℕ) : Prog Kernel Unit := userPageFaultWith stopStore cr2 errorCode
abbrev pageFaultGate : Prog Kernel Unit := pageFaultGateWith stopStore
abbrev userLoad (addr : ℕ) : Prog Kernel Unit := userLoadWith stopStore addr
abbrev userStore (addr value : ℕ) : Prog Kernel Unit := userStoreWith stopStore addr value

/-- What was lost stays lost. -/
theorem putByte_lost {k : Kernel} (mapping : Mapping) (addr value : ℕ) (hlost : k.mode = .corrupt) :
    (putByte mapping addr value k).mode = .corrupt := by
  unfold putByte putByteWith
  split
  · exact hlost
  · rfl

theorem kernelPut_lost {k : Kernel} (phys : PhysMem) (addr value : ℕ) (hlost : k.mode = .corrupt) :
    (kernelPut phys addr value k).mode = .corrupt := by
  unfold kernelPut kernelPutWith
  cases hwWalk phys k.cr3 addr with
  | none => exact hlost
  | some mapping =>
    have hrecorded : (k.record phys addr true).mode = .corrupt := hlost
    exact putByte_lost mapping addr value hrecorded

end Kernel

end GemOS
