import GemOS.Paging.Trace
import Mathlib.Data.Fin.Basic
import Mathlib.Tactic

/-!
# Execution contexts

The records of the process table. A context pointer is a slot of the table or `NULL`, which the kernel
dereferences when the table is full; the record at address 0 is kept like the others. Names are bytes,
because `do_clone` writes past them into the register area.
-/

namespace GemOS

def cnameMax : ℕ := 64
def maxProcesses : ℕ := 16

/-- Context types. -/
inductive ContextType where
  | boot
  | os
  | user
  deriving DecidableEq, Repr

/-- `enum signals`. -/
inductive Signal where
  | sigsegv
  | sigfpe
  | sigalrm
  deriving DecidableEq, Repr

/-- `enum process_state`. -/
inductive ProcessState where
  | unused
  | new
  | ready
  | running
  | waiting
  | exiting
  deriving DecidableEq, Repr

/-- `struct user_regs`. -/
structure UserRegs where
  r15 : ℕ
  r14 : ℕ
  r13 : ℕ
  r12 : ℕ
  r11 : ℕ
  r10 : ℕ
  r9 : ℕ
  r8 : ℕ
  rbp : ℕ
  rdi : ℕ
  rsi : ℕ
  rdx : ℕ
  rcx : ℕ
  rbx : ℕ
  rax : ℕ
  entryRip : ℕ
  entryCs : ℕ
  entryRflags : ℕ
  entryRsp : ℕ
  entrySs : ℕ
  deriving DecidableEq

/-- All registers zero. -/
def UserRegs.zero : UserRegs :=
  ⟨0, 0, 0, 0, 0, 0, 0, 0, 0, 0, 0, 0, 0, 0, 0, 0, 0, 0, 0, 0⟩

/-- `struct exec_context`. -/
structure ExecContext where
  pid : ℕ
  ppid : ℕ
  type : ContextType
  state : ProcessState
  usedMem : ℕ
  pgd : ℕ
  osStackPfn : ℕ
  osRsp : ℕ
  mms : MmSeg → MmSegment
  name : ℕ → ℕ
  regs : UserRegs
  pendingSignalBitmap : ℕ
  sighandlers : Signal → ℕ
  ticksToSleep : ℕ
  alarmConfigTime : ℕ
  ticksToAlarm : ℕ

/-- A record of zeros, as in a cleared page. -/
def ExecContext.zero : ExecContext where
  pid := 0
  ppid := 0
  type := .boot
  state := .unused
  usedMem := 0
  pgd := 0
  osStackPfn := 0
  osRsp := 0
  mms _ := ⟨0, 0, 0, 0⟩
  name _ := 0
  regs := .zero
  pendingSignalBitmap := 0
  sighandlers _ := 0
  ticksToSleep := 0
  alarmConfigTime := 0
  ticksToAlarm := 0

def ExecContext.setState (ctx : ExecContext) (state : ProcessState) : ExecContext :=
  { ctx with state := state }

def ExecContext.saveRegs (ctx : ExecContext) (regs : UserRegs) : ExecContext := { ctx with regs := regs }

/-- The record of a context that goes to sleep. -/
def ExecContext.sleepFor (ctx : ExecContext) (ticks : ℕ) : ExecContext :=
  { ctx with ticksToSleep := ticks % 2 ^ 32, state := .waiting }

/-- A pointer to a context: a slot of `ctx_list`, or `NULL`. -/
abbrev CtxPtr := Option (Fin maxProcesses)

/-- `get_ctx_by_pid`. -/
def getCtxByPid (pid : ℕ) : CtxPtr := if h : pid < maxProcesses then some ⟨pid, h⟩ else none

/-- The swapper's slot. -/
def swapper : CtxPtr := getCtxByPid 0

/-- A user process is in slot `i`. -/
def Live (ctxs : CtxPtr → ExecContext) (i : Fin maxProcesses) : Prop :=
  i.val ≠ 0 ∧ (ctxs (some i)).state ≠ .unused

theorem swapper_eq : swapper = some ⟨0, by decide⟩ := rfl

theorem Live.ne_swapper {ctxs : CtxPtr → ExecContext} {i : Fin maxProcesses} (h : Live ctxs i) : some i ≠ swapper := by
  rw [swapper_eq]
  intro heq
  exact h.1 (congrArg Fin.val (Option.some.inj heq))

/-- Byte `j` of a little-endian word. -/
def byteOf (word j : ℕ) : ℕ := (word >>> (8 * j)) % 256

/-- The word with byte `j` replaced. -/
def setByteOf (word j value : ℕ) : ℕ :=
  word - (byteOf word j <<< (8 * j)) + ((value % 256) <<< (8 * j))

/-- A byte of a word that is put together from what lies above byte `j`, byte `j` and what lies below. -/
theorem byteOf_join (high low j i : ℕ) {byte : ℕ} (hbyte : byte < 256) (hlow : low < 2 ^ (8 * j)) :
    byteOf (high * (256 * 2 ^ (8 * j)) + byte * 2 ^ (8 * j) + low) i =
      if i < j then byteOf low i else if i = j then byte else byteOf high (i - (j + 1)) := by
  unfold byteOf
  simp only [Nat.shiftRight_eq_div_pow]
  have hpow : ∀ n, 0 < 2 ^ (8 * n) := fun n ↦ by positivity
  split_ifs with hlt heq
  · obtain ⟨d, rfl⟩ := Nat.exists_eq_add_of_lt hlt
    have hsplit : high * (256 * 2 ^ (8 * (i + d + 1))) + byte * 2 ^ (8 * (i + d + 1)) + low =
        low + 2 ^ (8 * i) * (256 * (2 ^ (8 * d) * (high * 256 + byte))) := by ring
    rw [hsplit, Nat.add_mul_div_left _ _ (hpow i), Nat.add_mul_mod_self_left]
  · subst heq
    have hsplit : high * (256 * 2 ^ (8 * i)) + byte * 2 ^ (8 * i) + low =
        low + 2 ^ (8 * i) * (byte + 256 * high) := by ring
    rw [hsplit, Nat.add_mul_div_left _ _ (hpow i), Nat.div_eq_of_lt hlow, Nat.zero_add,
      Nat.add_mul_mod_self_left, Nat.mod_eq_of_lt hbyte]
  · obtain ⟨d, rfl⟩ : ∃ d, i = j + 1 + d := ⟨i - (j + 1), by omega⟩
    have hsplit : 2 ^ (8 * (j + 1 + d)) = 256 * 2 ^ (8 * j) * 2 ^ (8 * d) := by ring
    have hrest : byte * 2 ^ (8 * j) + low < 256 * 2 ^ (8 * j) := by
      have hle := Nat.mul_le_mul_right (2 ^ (8 * j)) (Nat.succ_le_of_lt hbyte)
      rw [Nat.succ_mul] at hle
      omega
    have hpos : 0 < 256 * 2 ^ (8 * j) := Nat.mul_pos (by decide) (hpow j)
    rw [hsplit, ← Nat.div_div_eq_div_mul, Nat.add_assoc, Nat.mul_comm high, Nat.mul_add_div hpos,
      Nat.div_eq_of_lt hrest, Nat.add_zero, Nat.add_sub_cancel_left]

theorem word_eq_join (word j : ℕ) :
    word = word / (256 * 2 ^ (8 * j)) * (256 * 2 ^ (8 * j)) + byteOf word j * 2 ^ (8 * j) + word % 2 ^ (8 * j) := by
  unfold byteOf
  rw [Nat.shiftRight_eq_div_pow, Nat.mul_comm 256, ← Nat.div_div_eq_div_mul]
  have hword := Nat.div_add_mod word (2 ^ (8 * j))
  have hhigh := Nat.div_add_mod (word / 2 ^ (8 * j)) 256
  calc
    word = 2 ^ (8 * j) * (word / 2 ^ (8 * j)) + word % 2 ^ (8 * j) := hword.symm
    _ = 2 ^ (8 * j) * (256 * (word / 2 ^ (8 * j) / 256) + word / 2 ^ (8 * j) % 256) + word % 2 ^ (8 * j) := by
      rw [hhigh]
    _ = _ := by ring

/-- Reading a byte of a word in which one was stored. -/
theorem byteOf_setByteOf (word j value i : ℕ) :
    byteOf (setByteOf word j value) i = if i = j then value % 256 else byteOf word i := by
  have hword := word_eq_join word j
  have hlow : word % 2 ^ (8 * j) < 2 ^ (8 * j) := Nat.mod_lt _ (by positivity)
  have hbyte : byteOf word j < 256 := Nat.mod_lt _ (by decide)
  have hset : setByteOf word j value =
      word / (256 * 2 ^ (8 * j)) * (256 * 2 ^ (8 * j)) + value % 256 * 2 ^ (8 * j) + word % 2 ^ (8 * j) := by
    unfold setByteOf
    rw [Nat.shiftLeft_eq, Nat.shiftLeft_eq]
    omega
  rw [hset, byteOf_join _ _ _ _ (Nat.mod_lt _ (by decide)) hlow]
  split_ifs with hlt heq heq
  · omega
  · conv_rhs => rw [hword, byteOf_join _ _ _ _ hbyte hlow, if_pos hlt]
  · rfl
  · conv_rhs => rw [hword, byteOf_join _ _ _ _ hbyte hlow, if_neg hlt, if_neg heq]

/-- Store a byte at `name + j`; behind the name lies the first word of the register area. -/
def ExecContext.setNameByte (ctx : ExecContext) (j value : ℕ) : ExecContext :=
  if j < cnameMax then { ctx with name := Function.update ctx.name j (value % 256) }
  else { ctx with regs := { ctx.regs with r15 := setByteOf ctx.regs.r15 (j - cnameMax) value } }

/-- The name consists of bytes. -/
def ExecContext.NameBytes (ctx : ExecContext) : Prop := ∀ j, ctx.name j < 256

/-- Store bytes from `name + j` on. -/
def ExecContext.setNameBytes (ctx : ExecContext) : ℕ → List ℕ → ExecContext
  | _, [] => ctx
  | j, value :: values => (ctx.setNameByte j value).setNameBytes (j + 1) values

theorem ExecContext.setNameByte_bytes {ctx : ExecContext} (h : ctx.NameBytes) (j value : ℕ) :
    (ctx.setNameByte j value).NameBytes := by
  unfold setNameByte
  split
  · intro i
    change Function.update ctx.name j (value % 256) i < 256
    by_cases hi : i = j
    · rw [hi, Function.update_self]
      exact Nat.mod_lt _ (by decide)
    · rw [Function.update_of_ne hi]
      exact h i
  · exact h

theorem ExecContext.setNameBytes_bytes {ctx : ExecContext} (h : ctx.NameBytes) (j : ℕ) (values : List ℕ) :
    (ctx.setNameBytes j values).NameBytes := by
  induction values generalizing ctx j with
  | nil => exact h
  | cons value values ih => exact ih (setNameByte_bytes h j value) (j + 1)

/-- The length of the name's prefix without a NUL byte, at most `CNAME_MAX`. -/
def ExecContext.nameLength (ctx : ExecContext) : ℕ :=
  ((List.range cnameMax).takeWhile fun j ↦ decide (ctx.name j ≠ 0)).length

/-- Decimal digits as `sprintf` writes them for a context number. -/
def decimalBytes (n : ℕ) : List ℕ := (Nat.toDigits 10 n).map Char.toNat

end GemOS
