import GemOS.Process.Fault

/-!
# Creating processes

`do_fork` copies the context record, shares the CODE and RODATA frames with the child, copies the DATA
and STACK pages it finds, and adds the kernel mappings; `do_clone` makes a context over the same page
table. Pages are copied through the identity window, with the parent's page table in use: a frame
above the window is mapped there by no table, lies below the APIC page, and faults.
-/

namespace GemOS

open Foundation Memory

/-- The pages `start, start + PAGE_SIZE, …` below `stop`. -/
def pagesBelow (start stop : ℕ) : List ℕ := pagesFrom start 0 ((stop - start + pageSize - 1) / pageSize)

/-- The pages `stop - PAGE_SIZE, stop - 2 * PAGE_SIZE, …` down to `start`. -/
def pagesDownTo (start stop : ℕ) : List ℕ :=
  (List.range' 1 ((stop - start) / pageSize)).map fun n ↦ stop - n * pageSize

/-- One round of the CODE and RODATA loops of `copy_mm`: the child gets the parent's frame. -/
def sharePage (parentPgd childPgd : ℕ) (seg : MmSegment) (vaddr : ℕ) (m : Memory) : Memory :=
  match getUserPte m.phys parentPgd vaddr with
  | none => m
  | some (pte, index) =>
    (installPtable childPgd seg vaddr (((m.phys pte index &&& flagMask) >>> pageShift) % 2 ^ 32) m).2

def sharePages (parentPgd childPgd : ℕ) (seg : MmSegment) : List ℕ → Memory → Memory
  | [], m => m
  | vaddr :: vaddrs, m => sharePages parentPgd childPgd seg vaddrs (sharePage parentPgd childPgd seg vaddr m)

/-- The identity window of a process table maps the frame. -/
def inWindow (pfn : ℕ) : Prop := pfn < osPtMaps * 512

instance (pfn : ℕ) : Decidable (inWindow pfn) := by
  unfold inWindow
  infer_instance

namespace Kernel

/-- The page copy of `copy_mm`, between physical addresses; the source is read first. -/
def copyFrame (dst src : ℕ) : Prog Kernel Unit := do
  if ¬ inWindow src then
    kernelPageFault (src <<< pageShift) (pfError false false false)
    Prog.leave fun k ↦ { k with mode := .hung }
  else if ¬ inWindow dst then
    kernelPageFault (dst <<< pageShift) (pfError false true false)
    Prog.leave fun k ↦ { k with mode := .hung }
  else Prog.update fun k ↦ { k with mem.phys := k.mem.phys.copy dst src }

/-- `install_ptable` without a given frame. -/
def installBlank (pgd : ℕ) (seg : MmSegment) (vaddr : ℕ) (k : Kernel) : ℕ × Kernel :=
  ((installPtable pgd seg vaddr 0 k.mem).1, { k with mem := (installPtable pgd seg vaddr 0 k.mem).2 })

/-- One round of the DATA and STACK loops of `copy_mm`: the child gets a copy. -/
def copyPage (childPgd : ℕ) (seg : MmSegment) (vaddr : ℕ) : Prog Kernel Unit := do
  let k ← Prog.read
  match getUserPte k.mem.phys k.ctx.pgd vaddr with
  | none => pure ()
  | some (pte, index) =>
    let pfn ← Prog.call (installBlank childPgd seg vaddr)
    let k₁ ← Prog.read
    copyFrame pfn ((k₁.mem.phys pte index &&& flagMask) >>> pageShift)

def copyPages (childPgd : ℕ) (seg : MmSegment) : List ℕ → Prog Kernel Unit
  | [] => pure ()
  | vaddr :: vaddrs => do
    copyPage childPgd seg vaddr
    copyPages childPgd seg vaddrs

/-- The pages of the CODE and RODATA segments of the current process, for the child. -/
def shareSegments (childPgd : ℕ) (k : Kernel) : Kernel :=
  let code := k.ctx.mms .code
  let rodata := k.ctx.mms .rodata
  { k with
    mem := sharePages k.ctx.pgd childPgd rodata (pagesBelow rodata.start rodata.nextFree)
      (sharePages k.ctx.pgd childPgd code (pagesBelow code.start code.nextFree) k.mem) }

/-- `copy_mm` from the current process to `child`. -/
def copyMm (child : CtxPtr) : Prog Kernel Unit := do
  let pgd ← Prog.call (pfnAlloc .osPt)
  Prog.update fun k ↦
    { k.updateCtx child fun ctx ↦ { ctx with pgd := pgd } with mem := k.mem.zeroFrame pgd }
  Prog.update (shareSegments pgd)
  let k ← Prog.read
  copyPages pgd (k.ctx.mms .data) (pagesBelow (k.ctx.mms .data).start (k.ctx.mms .data).nextFree)
  copyPages pgd (k.ctx.mms .stack) (pagesDownTo (k.ctx.mms .stack).nextFree (k.ctx.mms .stack).stop)
  Prog.update fun k ↦ { k with mem := installOsPts pgd k.config k.mem }

/-- `setup_child_context`. -/
def setupChildContext (child : CtxPtr) : Prog Kernel Unit := do
  let stack ← Prog.call (pfnAlloc .osPt)
  Prog.update fun k ↦
    { k.updateCtx child fun ctx ↦
        { ctx with osStackPfn := stack, osRsp := stackTop stack, state := .ready } with
      stats.numProcesses := (k.stats.numProcesses + 1) % 2 ^ 64 }

/-- The copy of the context record in `do_fork`. -/
def copyRecord (child : CtxPtr) (k : Kernel) : Kernel :=
  k.updateCtx child fun old ↦ { k.ctx with pid := old.pid, ppid := k.ctx.pid }

/-- `do_fork`. -/
def doFork : Prog Kernel ℕ := do
  let child ← Prog.call getNewCtx
  let k ← Prog.read
  Prog.update (copyRecord child)
  copyMm child
  setupChildContext child
  pure (k.ctxs child).pid

/-- The record that `do_clone` writes over an old one. -/
def cloneRecord (ctx : ExecContext) (stack thFunc userStack : ℕ) (old : ExecContext) : ExecContext :=
  { old with
    type := ctx.type
    state := .ready
    usedMem := ctx.usedMem
    pgd := ctx.pgd
    osStackPfn := stack
    osRsp := stackTop stack
    mms := ctx.mms
    regs := { ctx.regs with entryRip := thFunc, entryRsp := userStack, rbp := userStack }
    pendingSignalBitmap := ctx.pendingSignalBitmap
    ticksToAlarm := ctx.ticksToAlarm
    ticksToSleep := ctx.ticksToSleep
    alarmConfigTime := ctx.alarmConfigTime
    sighandlers := ctx.sighandlers }

/-- The bytes `do_clone` writes to the name: the prefix of the parent's, a number, and a NUL. -/
def cloneName (ctx : ExecContext) : List ℕ :=
  (List.range ctx.nameLength).map ctx.name ++ decimalBytes (ctx.pid + 1) ++ [0]

/-- `do_clone`. -/
def doClone (thFunc userStack : ℕ) : Prog Kernel ℕ := do
  let child ← Prog.call getNewCtx
  let stack ← Prog.call (pfnAlloc .osPt)
  Prog.update fun k ↦
    k.updateCtx child fun old ↦
      (cloneRecord k.ctx stack thFunc userStack old).setNameBytes 0 (cloneName k.ctx)
  pure 0

end Kernel

end GemOS
