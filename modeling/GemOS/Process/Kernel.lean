import GemOS.Foundation.Leaving
import GemOS.Process.Context

/-!
# The kernel state

One processor runs the shell, a user process or the swapper; between two events the kernel itself is
not running. `regs` are the registers of the code that runs, which an entry into the kernel pushes as
the interrupted frame and the return restores. The kernel stacks themselves are not part of the state:
what the source keeps there across calls is the frame.

Four modes end the part of a run that the model follows: a handler of the swapper, which would run at
kernel privilege, a store of the kernel into memory of its own that is not followed, a triple fault on
loading a page table without the kernel window, and a kernel access that faults over and over.
`accesses` and `dispatches` record what no function reads: the accesses the kernel made through addresses
chosen by a user, and the contexts that the scheduler made current.
-/

namespace GemOS

open Foundation Memory

/-- `struct os_stats`. -/
structure OsStats where
  swapperInvocations : ℕ
  contextSwitches : ℕ
  lwContextSwitches : ℕ
  ticks : ℕ
  pageFaults : ℕ
  syscalls : ℕ
  usedMemory : ℕ
  numProcesses : ℕ
  deriving DecidableEq

inductive Mode where
  | shell
  | user
  | swapper
  /-- A handler runs with the kernel's code segment. -/
  | ring0
  /-- The kernel stored into memory of its own that is not followed. -/
  | corrupt
  /-- The processor loaded a page table that does not map the kernel. -/
  | dead
  /-- A kernel access faults without end. -/
  | hung
  deriving DecidableEq, Repr

/-- A byte the kernel read or wrote through a user-chosen address; `permitted` when user mode could
have made the same access through the page table in use. -/
structure UserAccess where
  addr : ℕ
  write : Bool
  permitted : Bool
  deriving DecidableEq

/-- Frames taken once at boot for the TSS, the interrupt stack, the IDT and the process table. -/
structure BootFrames where
  tssPage : ℕ
  irqStack : ℕ
  idtTable : ℕ
  ctxList : ℕ
  deriving DecidableEq

/-- A context was chosen and made current: its state when it was chosen, and whether any process was ready
then. -/
structure Dispatch where
  next : CtxPtr
  state : ProcessState
  ready : Bool
  deriving DecidableEq

structure Kernel where
  mem : Memory
  ctxs : CtxPtr → ExecContext
  current : CtxPtr
  config : OsConfigs
  stats : OsStats
  bootFrames : BootFrames
  /-- Registers of the running code. -/
  regs : UserRegs
  /-- Frame of the page table in `CR3`. -/
  cr3 : ℕ
  /-- The `rsp0` field of the TSS. -/
  rsp0 : ℕ
  /-- The write-protect bit of `CR0`. -/
  wp : Bool
  /-- The address of the last page fault. -/
  cr2 : ℕ
  mode : Mode
  console : List (List ℕ)
  accesses : List UserAccess
  dispatches : List Dispatch

/-- Kernel states are compared by their memories. -/
instance : Preorder Kernel := Preorder.lift Kernel.mem

def kernelCs : ℕ := 0x8
def userCs : ℕ := 0x23
def userSs : ℕ := 0x2b

/-- Frame of the page table set up at boot, `CR3 = 0x70000`. -/
def swapperPgd : ℕ := 0x70

/-- An address of the kernel's text. -/
def kernelText : ℕ := 0x100000

namespace Kernel

/-- What nothing changes after boot. -/
def fixed (k : Kernel) : BootFrames × Bool := (k.bootFrames, k.wp)

/-- The record of the current context. -/
def ctx (k : Kernel) : ExecContext := k.ctxs k.current

def updateCtx (k : Kernel) (p : CtxPtr) (f : ExecContext → ExecContext) : Kernel :=
  { k with ctxs := Function.update k.ctxs p (f (k.ctxs p)) }

def setState (k : Kernel) (p : CtxPtr) (state : ProcessState) : Kernel :=
  k.updateCtx p fun ctx ↦ ctx.setState state

/-- `get_new_ctx`: the first unused slot, marked `NEW` with its number as pid, or `NULL`. -/
def getNewCtx (k : Kernel) : CtxPtr × Kernel :=
  match (List.finRange maxProcesses).find? fun i ↦ (k.ctxs (some i)).state = .unused with
  | some i => (some i, k.updateCtx (some i) fun ctx ↦ { ctx with pid := i, state := .new })
  | none => (none, k)

/-- `set_tss_stack_ptr`. -/
def setTssStackPtr (k : Kernel) (p : CtxPtr) : Kernel :=
  { k with rsp0 := ((k.ctxs p).osStackPfn + 1) <<< pageShift }

/-- `osmap(pfn + 1)`, the top of a kernel stack. -/
def stackTop (pfn : ℕ) : ℕ := (pfn + 1) <<< pageShift

/-- Allocate a frame. -/
def pfnAlloc (region : Region) (k : Kernel) : ℕ × Kernel :=
  ((osPfnAlloc region k.mem).1, { k with mem := (osPfnAlloc region k.mem).2 })

/-- Load `CR3`, when the new table maps the kernel's text. -/
def loadCr3 (k : Kernel) (pgd : ℕ) : Kernel :=
  if pgd = swapperPgd ∨ (hwWalk k.mem.phys pgd kernelText).isSome then { k with cr3 := pgd }
  else { k with cr3 := pgd, mode := .dead }

/-- Return from an interrupt to the given frame. -/
def iret (k : Kernel) (frame : UserRegs) : Kernel :=
  { k with
    regs := frame
    mode :=
      if k.mode = .dead then .dead
      else if frame.entryCs = userCs then .user
      else .swapper }

/-- `set_tss_stack_ptr`, `set_current_ctx` and the state `RUNNING`. -/
def setCurrentCtx (k : Kernel) (p : CtxPtr) : Kernel :=
  ({ k.setTssStackPtr p with current := p }).setState p .running

/-- Some process is ready. -/
def anyReady (k : Kernel) : Bool :=
  (List.range' 1 (maxProcesses - 1)).any fun pid ↦ decide ((k.ctxs (getCtxByPid pid)).state = .ready)

def logDispatch (k : Kernel) (p : CtxPtr) : Kernel :=
  { k with dispatches := ⟨p, (k.ctxs p).state, k.anyReady⟩ :: k.dispatches }

/-- Make a chosen context current: the common end of `schedule` and `handle_timer_tick`. -/
def makeCurrent (k : Kernel) (p : CtxPtr) : Kernel := (k.logDispatch p).setCurrentCtx p

@[simp] theorem updateCtx_mem (k : Kernel) (p : CtxPtr) (f : ExecContext → ExecContext) :
    (k.updateCtx p f).mem = k.mem := rfl

@[simp] theorem updateCtx_current (k : Kernel) (p : CtxPtr) (f : ExecContext → ExecContext) :
    (k.updateCtx p f).current = k.current := rfl

theorem updateCtx_self (k : Kernel) (p : CtxPtr) (f : ExecContext → ExecContext) :
    (k.updateCtx p f).ctxs p = f (k.ctxs p) := Function.update_self ..

theorem updateCtx_of_ne (k : Kernel) {p q : CtxPtr} (f : ExecContext → ExecContext) (h : q ≠ p) :
    (k.updateCtx p f).ctxs q = k.ctxs q := Function.update_of_ne h ..

/-- A change of one record, read off the slots. -/
theorem updateCtx_ctxs (k : Kernel) (p : CtxPtr) (f : ExecContext → ExecContext) (q : CtxPtr) :
    (k.updateCtx p f).ctxs q = if q = p then f (k.ctxs q) else k.ctxs q := by
  split
  · rename_i h
    rw [h, updateCtx_self]
  · rename_i h
    exact updateCtx_of_ne k f h

theorem setState_ctxs (k : Kernel) (p : CtxPtr) (state : ProcessState) (q : CtxPtr) :
    (k.setState p state).ctxs q = if q = p then (k.ctxs q).setState state else k.ctxs q :=
  updateCtx_ctxs k p (fun ctx ↦ ctx.setState state) q

theorem setCurrentCtx_ctxs (k : Kernel) (p q : CtxPtr) :
    (k.setCurrentCtx p).ctxs q = if q = p then (k.ctxs q).setState .running else k.ctxs q :=
  setState_ctxs _ p .running q

theorem makeCurrent_ctxs (k : Kernel) (p q : CtxPtr) :
    (k.makeCurrent p).ctxs q = if q = p then (k.ctxs q).setState .running else k.ctxs q :=
  setState_ctxs _ p .running q

theorem makeCurrent_self (k : Kernel) (p : CtxPtr) :
    (k.makeCurrent p).ctxs p = (k.ctxs p).setState .running := by rw [makeCurrent_ctxs, if_pos rfl]

theorem loadCr3_makeCurrent (k : Kernel) (p : CtxPtr) (pgd : ℕ) :
    (k.loadCr3 pgd).makeCurrent p = (k.makeCurrent p).loadCr3 pgd := by
  by_cases hload : pgd = swapperPgd ∨ (hwWalk k.mem.phys pgd kernelText).isSome = true
  · have hleft : k.loadCr3 pgd = { k with cr3 := pgd } := if_pos hload
    have hright : (k.makeCurrent p).loadCr3 pgd = { k.makeCurrent p with cr3 := pgd } := if_pos hload
    rw [hleft, hright]
    rfl
  · have hleft : k.loadCr3 pgd = { k with cr3 := pgd, mode := .dead } := if_neg hload
    have hright : (k.makeCurrent p).loadCr3 pgd = { k.makeCurrent p with cr3 := pgd, mode := .dead } :=
      if_neg hload
    rw [hleft, hright]
    rfl

end Kernel

end GemOS
