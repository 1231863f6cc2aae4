import GemOS.Process.Tick

/-!
# Launching init

The shell makes a context with `create_context` and starts it with `exec_init`, which builds the page
table of the process, copies the binary into its CODE frames and enters user mode. All of this runs on
the page table set up at boot.
-/

namespace GemOS

open Foundation Memory

/-- `struct init_args`. -/
structure InitArgs where
  rdi : ℕ
  rsi : ℕ
  rcx : ℕ
  rdx : ℕ
  r8 : ℕ
  deriving DecidableEq

/-- The segments set up by `create_context`; only RODATA gets its `next_free` there. -/
def initSegments (old : MmSeg → MmSegment) : MmSeg → MmSegment
  | .code => ⟨codeStart, rodataStart - 1, (old .code).nextFree, mmRd ||| mmEx⟩
  | .rodata => ⟨rodataStart, dataStart - 1, rodataStart, mmRd⟩
  | .data => ⟨dataStart, stackStart - maxStackSize - 1, (old .data).nextFree, mmRd ||| mmWr⟩
  | .stack => ⟨stackStart - maxStackSize, stackStart, (old .stack).nextFree, mmRd ||| mmWr⟩

/-- The segments after `exec_init`. -/
def execSegments (mms : MmSeg → MmSegment) : MmSeg → MmSegment
  | .code => { mms .code with nextFree := (mms .code).start + codePages <<< pageShift }
  | .rodata => mms .rodata
  | .data => { mms .data with nextFree := (mms .data).start + pageSize }
  | .stack => { mms .stack with nextFree := (mms .stack).stop - pageSize }

/-- The name that the shell passes to `create_context`. -/
def initName : List ℕ := [0x69, 0x6e, 0x69, 0x74]

/-- First frame of the binary of init in the kernel image. -/
def initImage : ℕ := 0x200

/-- Copy `count` frames. -/
def copyFrames (dst src : ℕ) : ℕ → PhysMem → PhysMem
  | 0, phys => phys
  | count + 1, phys => (copyFrames dst src count phys).copy (dst + count) (src + count)

/-- The page table that `exec_init` builds: the frame of its root, the first CODE frame, and memory. -/
def buildInit (mms : MmSeg → MmSegment) (config : OsConfigs) (m : Memory) : ℕ × ℕ × Memory :=
  let pgd := osPfnAlloc .osPt m
  let text := installPtableMulti pgd.1 (mms .code).start codePages false (pgd.2.zeroFrame pgd.1)
  let data := installPtable pgd.1 (mms .data) 0 0 text.2
  let stack := installPtable pgd.1 { mms .stack with start := (mms .stack).stop - pageSize } 0 0 data.2
  (pgd.1, text.1, installOsPts pgd.1 config stack.2)

namespace Kernel

/-- `create_context` for init. -/
def createContext (k : Kernel) : CtxPtr × Kernel :=
  let fresh := k.getNewCtx
  let stack := osPfnAlloc .osPt fresh.2.mem
  (fresh.1,
    { fresh.2 with mem := stack.2 }.updateCtx fresh.1 fun ctx ↦
      { ctx with
        state := .new
        type := .user
        usedMem := 0
        pgd := 0
        osStackPfn := stack.1
        osRsp := stackTop stack.1
        mms := initSegments ctx.mms }.setNameBytes 0 initName)

/-- The registers at the first instruction of init. -/
def initRegs (args : InitArgs) (scratch : UserRegs) : UserRegs :=
  { scratch with
    rdi := args.rdi
    rsi := args.rsi
    rcx := args.rcx
    rdx := args.rdx
    r8 := args.r8
    entryRip := codeStart
    entryCs := userCs
    entryRflags := scratch.entryRflags ||| 0x200
    entryRsp := stackStart
    entrySs := userSs }

/-- `exec_init`; `scratch` are the registers it does not set. -/
def execInit (p : CtxPtr) (args : InitArgs) (scratch : UserRegs) (k : Kernel) : Kernel :=
  let built := buildInit (k.ctxs p).mms k.config k.mem
  let k₁ := { k with
    mem := { built.2.2 with phys := copyFrames built.2.1 initImage codePages built.2.2.phys }
    stats.numProcesses := (k.stats.numProcesses + 1) % 2 ^ 64 }
  let k₂ := k₁.updateCtx p fun ctx ↦ { ctx with pgd := built.1, mms := execSegments ctx.mms }
  ((k₂.setCurrentCtx p).loadCr3 built.1).iret (initRegs args scratch)

/-- The `init` command of the shell. -/
def launch (args : InitArgs) (scratch : UserRegs) (k : Kernel) : Kernel :=
  k.createContext.2.execInit k.createContext.1 args scratch

end Kernel

end GemOS
