import GemOS.Foundation.Runs
import GemOS.Process.Launch

/-!
# The machine

The events that can happen while the shell, a user process or the swapper runs, the step each of them
makes, and the state after boot. User code is arbitrary: between two entries into the kernel it sets its
registers as it likes and accesses memory through its page table.

`stepWith` takes as a parameter what a store into memory of the kernel does. `step` is followed up to such
a store.
-/

namespace GemOS

open Foundation Memory

inductive Event where
  /-- The `init` command. -/
  | launch (args : InitArgs) (scratch : UserRegs)
  /-- User code computes; the segment registers stay. -/
  | compute (regs : UserRegs)
  | load (addr : ℕ)
  | store (addr value : ℕ)
  /-- `int 0x80`; `peek` gives the bytes of kernel memory, should the call read there. -/
  | syscall (peek : ℕ → ℕ)
  | divide
  /-- A privileged instruction. -/
  | protection
  /-- `int $0xe`, through the page-fault gate. -/
  | pageFaultGate
  | tick

instance (event : Event) : Decidable (event = .tick) :=
  match event with
  | .tick => isTrue rfl
  | .launch _ _ | .compute _ | .load _ | .store _ _ | .syscall _ | .divide | .protection | .pageFaultGate =>
    isFalse Event.noConfusion

namespace Kernel

/-- User code sets its registers. -/
def compute (regs : UserRegs) (k : Kernel) : Kernel :=
  { k with regs := { regs with entryCs := k.regs.entryCs, entrySs := k.regs.entrySs } }

/-- The program that a user process sets off. -/
def userProgramWith (store : KernelStore) : Event → Prog Kernel Unit
  | .launch _ _ => pure ()
  | .compute regs => Prog.update (compute regs)
  | .load addr => userLoadWith store addr
  | .store addr value => userStoreWith store addr value
  | .syscall peek => doSyscall peek
  | .divide => doDivByZeroWith store
  | .protection => Prog.leave doGp
  | .pageFaultGate => pageFaultGateWith store
  | .tick => handleTimerTickWith store

/-- One step of the machine. -/
def stepWith (store : KernelStore) (event : Event) (k : Kernel) : Kernel :=
  match k.mode, event with
  | .shell, .launch args scratch => k.launch args scratch
  | .user, event => (userProgramWith store event).final k
  | .swapper, .tick => (handleTimerTickWith store).final k
  | _, _ => k

abbrev userProgram : Event → Prog Kernel Unit := userProgramWith stopStore

/-- One step of the machine that stops at a store into memory of the kernel. -/
def step : Event → Kernel → Kernel := stepWith stopStore

theorem stepWith_user {store : KernelStore} {k : Kernel} (h : k.mode = .user) (event : Event) :
    stepWith store event k = (userProgramWith store event).final k := by
  unfold stepWith
  rw [h]

theorem step_user {k : Kernel} (h : k.mode = .user) (event : Event) :
    step event k = (userProgram event).final k := stepWith_user h event

theorem step_swapper {k : Kernel} (h : k.mode = .swapper) (event : Event) :
    event ≠ .tick ∧ step event k = k ∨ event = .tick ∧ step event k = handleTimerTick.final k := by
  unfold step stepWith
  rw [h]
  cases event with
  | tick => exact Or.inr ⟨rfl, rfl⟩
  | _ => exact Or.inl ⟨Event.noConfusion, rfl⟩

theorem step_shell {k : Kernel} (h : k.mode = .shell) (event : Event) :
    step event k = k ∨ ∃ args scratch, event = .launch args scratch ∧ step event k = k.launch args scratch := by
  unfold step stepWith
  rw [h]
  cases event with
  | launch args scratch => exact Or.inr ⟨args, scratch, rfl, rfl⟩
  | _ => exact Or.inl rfl

theorem step_stopped {k : Kernel} (hshell : k.mode ≠ .shell) (huser : k.mode ≠ .user)
    (hswapper : k.mode ≠ .swapper) (event : Event) : step event k = k := by
  unfold step stepWith
  cases hmode : k.mode with
  | shell => exact absurd hmode hshell
  | user => exact absurd hmode huser
  | swapper => exact absurd hmode hswapper
  | _ => rfl

/-- `count` frames taken at boot, the last one. -/
def allocMany (region : Region) : ℕ → Memory → Memory
  | 0, m => m
  | count + 1, m => (osPfnAlloc region (allocMany region count m)).2

/-- Frames of the data-structure region taken for the object caches and the kernel's own records. -/
def osDsFrames : ℕ := 108

/-- The frames taken from the page-table region at boot, and memory. -/
def bootAlloc (m : Memory) : BootFrames × ℕ × Memory :=
  let tss := osPfnAlloc .osPt (allocMany .osDs osDsFrames m)
  let irq := osPfnAlloc .osPt tss.2
  let idt := osPfnAlloc .osPt irq.2
  let list := osPfnAlloc .osPt idt.2
  let stack := osPfnAlloc .osPt list.2
  (⟨tss.1, irq.1, idt.1, list.1⟩, stack.1, stack.2)

/-- The swapper's record after `init_swapper`. -/
def swapperRecord (stack : ℕ) : ExecContext :=
  { ExecContext.zero with
    state := .ready
    pgd := swapperPgd
    name := fun j ↦ [0x73, 0x77, 0x61, 0x70, 0x70, 0x65, 0x72].getD j 0
    osStackPfn := stack
    osRsp := stackTop stack
    regs := { UserRegs.zero with entryCs := kernelCs, entryRsp := stackTop stack } }

/-- The process table after `init_swapper`, and what lies at address 0. -/
def bootCtxs (stack : ℕ) (null : ExecContext) : CtxPtr → ExecContext
  | none => null
  | some i => if i.val = 0 then swapperRecord stack else .zero

/-- The kernel at the first shell prompt. -/
def boot (phys : PhysMem) (apicBase : ApicBase) (wp : Bool) (null : ExecContext) : Kernel where
  mem := (bootAlloc (.init phys apicBase)).2.2
  ctxs := bootCtxs (bootAlloc (.init phys apicBase)).2.1 null
  current := none
  config := ⟨0, 32, 0, 0⟩
  stats := ⟨0, 0, 0, 0, 0, 0, 0, 0⟩
  bootFrames := (bootAlloc (.init phys apicBase)).1
  regs := .zero
  cr3 := swapperPgd
  rsp0 := 0
  wp := wp
  cr2 := 0
  mode := .shell
  console := []
  accesses := []
  dispatches := []

end Kernel

/-- A state that some machine reaches after boot. -/
def Reachable (k : Kernel) : Prop :=
  ∃ phys apicBase wp null events, k = run Kernel.step (Kernel.boot phys apicBase wp null) events

theorem Reachable.run {k : Kernel} (h : Reachable k) (events : List Event) :
    Reachable (run Kernel.step k events) := by
  obtain ⟨phys, apicBase, wp, null, before, rfl⟩ := h
  exact ⟨phys, apicBase, wp, null, before ++ events, (run_append _ _ _).symm⟩

theorem Reachable.boot (phys : PhysMem) (apicBase : ApicBase) (wp : Bool) (null : ExecContext) :
    Reachable (Kernel.boot phys apicBase wp null) := ⟨phys, apicBase, wp, null, [], rfl⟩

/-- A machine with blank memory, for runs that are computed. -/
def blankBoot : Kernel := Kernel.boot (fun _ _ ↦ 0) .reset true .zero

theorem reachable_blankBoot (events : List Event) : Reachable (run Kernel.step blankBoot events) :=
  (Reachable.boot _ _ _ _).run events

def launchInit : Event := .launch ⟨0, 0, 0, 0, 0⟩ .zero

/-- User code asks for a system call. -/
def callEvents (number param1 param2 : ℕ) : List Event :=
  [.compute { UserRegs.zero with rdi := number, rsi := param1, rdx := param2 }, .syscall fun _ ↦ 0]

end GemOS
