import GemOS.Process.Fork

/-!
# System calls

`do_syscall` saves the registers in the context and dispatches on the number in `rdi`; the parameters
are `rsi` and `rdx`, the result goes to `rax`. A call that ends in another context does not return here.
-/

namespace GemOS

open Foundation Memory

def maxWriteLen : ℕ := 1024
def maxExpandPages : ℕ := 1024

def mapRd : ℕ := 0x0
def mapWr : ℕ := 0x1

/-- The system calls. -/
inductive Syscall where
  | exit
  | getpid
  | write
  | expand
  | shrink
  | alarm
  | sleep
  | signal
  | clone
  | fork
  | stats
  | configure
  deriving DecidableEq, Repr

/-- The `SYSCALL_` numbers. -/
def Syscall.ofNumber : ℕ → Option Syscall
  | 1 => some exit
  | 2 => some getpid
  | 3 => some write
  | 4 => some expand
  | 5 => some shrink
  | 6 => some alarm
  | 7 => some sleep
  | 8 => some signal
  | 9 => some clone
  | 10 => some fork
  | 11 => some stats
  | 12 => some configure
  | _ => none

/-- The result `-1`. -/
def minusOne : ℕ := 2 ^ 64 - 1

/-- The segment that `do_expand` and `do_shrink` work on, from the low half of the parameter. -/
def expandSegment (flags : ℕ) : Option MmSeg :=
  if flags % 2 ^ 32 = mapRd then some .rodata
  else if flags % 2 ^ 32 = mapWr then some .data
  else none

/-- The registered number of a signal. -/
def signalOf (signo : ℕ) : Option Signal :=
  match signo % 2 ^ 32 with
  | 0 => some .sigsegv
  | 1 => some .sigfpe
  | 2 => some .sigalrm
  | _ => none

/-- A word of `struct os_configs` with one byte replaced, by byte offset in the structure. -/
def OsConfigs.setByte (config : OsConfigs) (offset value : ℕ) : OsConfigs :=
  match offset / 8 with
  | 0 => { config with globalMapping := setByteOf config.globalMapping (offset % 8) value }
  | 1 => { config with apicTickInterval := setByteOf config.apicTickInterval (offset % 8) value }
  | 2 => { config with debug := setByteOf config.debug (offset % 8) value }
  | _ => { config with advGlobal := setByteOf config.advGlobal (offset % 8) value }

def osConfigsSize : ℕ := 32

namespace Kernel

/-- Set `next_free` of a segment of the current process. -/
def setNextFree (seg : MmSeg) (nextFree : ℕ) (k : Kernel) : Kernel :=
  k.updateCtx k.current fun ctx ↦
    { ctx with mms := Function.update ctx.mms seg { ctx.mms seg with nextFree := nextFree } }

/-- The bytes of a user buffer, in order, each with its access. -/
def loadBytes (peek : ℕ → ℕ) (addr : ℕ) : ℕ → Prog Kernel (List ℕ)
  | 0 => pure []
  | count + 1 => do
    let bytes ← loadBytes peek addr count
    let byte ← kernelLoad peek (addrAt addr count)
    pure (bytes ++ [byte])

/-- The checks of `do_write`. -/
def writable (k : Kernel) (address length : ℕ) : Bool :=
  decide (length ≤ maxWriteLen) && (getUserPte k.mem.phys k.ctx.pgd address).isSome &&
    (decide (address >>> pageShift = addrAt address length >>> pageShift) ||
      (getUserPte k.mem.phys k.ctx.pgd (addrAt address length)).isSome)

/-- `do_write`; the console stops at the first NUL byte. -/
def doWrite (peek : ℕ → ℕ) (address length : ℕ) : Prog Kernel ℕ := do
  let k ← Prog.read
  if k.writable address length then
    let bytes ← loadBytes peek address length
    Prog.update fun k ↦ { k with console := bytes.takeWhile (· ≠ 0) :: k.console }
    pure length
  else pure minusOne

/-- `do_expand`. -/
def doExpand (size flags : ℕ) : Prog Kernel ℕ := do
  let k ← Prog.read
  if size > maxExpandPages then pure 0
  else
    match expandSegment flags with
    | none => pure 0
    | some seg =>
      let segment := k.ctx.mms seg
      let grown := (segment.nextFree + size <<< pageShift) % 2 ^ 64
      if grown > segment.stop then pure 0
      else
        Prog.update (setNextFree seg grown)
        pure segment.nextFree

/-- The loop of `do_shrink`. -/
def unmapPages (pgd : ℕ) (addrs : List ℕ) (m : Memory) : Memory :=
  addrs.foldl (fun m addr ↦ (doUnmapUser pgd addr m).2) m

/-- `do_shrink`. -/
def doShrink (size flags : ℕ) : Prog Kernel ℕ := do
  let k ← Prog.read
  if size > maxExpandPages then pure 0
  else
    match expandSegment flags with
    | none => pure 0
    | some seg =>
      let segment := k.ctx.mms seg
      let shrunk := (segment.nextFree + 2 ^ 64 - size <<< pageShift) % 2 ^ 64
      if shrunk < segment.start then pure 0
      else
        Prog.update (setNextFree seg shrunk)
        Prog.update fun k ↦ { k with mem := unmapPages k.ctx.pgd (pagesFrom shrunk 0 size) k.mem }
        pure shrunk

/-- `do_sleep`. -/
def doSleep (ticks : ℕ) (k : Kernel) : Kernel :=
  let k₁ := k.updateCtx k.current fun ctx ↦ ctx.sleepFor ticks
  k₁.schedule (pickNextContext k₁.ctxs k.current)

/-- `do_signal`. -/
def doSignal (signo handler : ℕ) : Prog Kernel ℕ :=
  match signalOf signo with
  | none => pure minusOne
  | some signal => do
    Prog.update fun k ↦
      k.updateCtx k.current fun ctx ↦
        { ctx with sighandlers := Function.update ctx.sighandlers signal handler }
    pure 0

/-- `do_alarm`. -/
def doAlarm (ticks : ℕ) : Prog Kernel ℕ := do
  if ticks % 2 ^ 32 = 0 then pure minusOne
  else
    Prog.update fun k ↦
      k.updateCtx k.current fun ctx ↦
        { ctx with alarmConfigTime := ticks % 2 ^ 32, ticksToAlarm := ticks % 2 ^ 32 }
    pure 0

/-- The copy of `SYSCALL_CONFIGURE`, byte by byte. -/
def configure (peek : ℕ → ℕ) (addr : ℕ) : ℕ → Prog Kernel Unit
  | 0 => pure ()
  | count + 1 => do
    configure peek addr count
    let byte ← kernelLoad peek (addrAt addr count)
    Prog.update fun k ↦ { k with config := k.config.setByte count byte }

/-- The registers saved on entry to a system call. -/
def saveRegs (k : Kernel) : Kernel :=
  { k.updateCtx k.current fun ctx ↦ ctx.saveRegs k.regs with
    stats.syscalls := k.stats.syscalls + 1 }

/-- The dispatch of `do_syscall`. -/
def dispatch (peek : ℕ → ℕ) (param1 param2 : ℕ) : Option Syscall → Prog Kernel ℕ
  | some .exit => Prog.leave doExit
  | some .getpid => do
    let k ← Prog.read
    pure k.ctx.pid
  | some .write => doWrite peek param1 param2
  | some .expand => doExpand param1 param2
  | some .shrink => doShrink param1 param2
  | some .alarm => doAlarm param1
  | some .sleep => Prog.leave (doSleep param1)
  | some .signal => doSignal param1 param2
  | some .clone => doClone param1 param2
  | some .fork => doFork
  | some .stats => pure 0
  | some .configure => do
    configure peek param1 osConfigsSize
    pure 0
  | none => pure minusOne

/-- The system call that the registers ask for. -/
def syscallRequested (k : Kernel) : Option Syscall := Syscall.ofNumber (k.regs.rdi % 2 ^ 32)

/-- `do_syscall` and the return to the caller. -/
def doSyscall (peek : ℕ → ℕ) : Prog Kernel Unit := do
  let k ← Prog.read
  Prog.update saveRegs
  let result ← dispatch peek k.regs.rsi k.regs.rdx k.syscallRequested
  Prog.update fun k ↦ { k with regs := { k.regs with rax := result } }

end Kernel

end GemOS
