import GemOS.Process.Seats
import GemOS.Shell.Numerals
import Mathlib.Data.List.TakeWhile

/-!
# Names of threads

`do_clone` gives the new thread the name of its maker with a number behind it, through a formatter call without a
bound, after it has filled in the registers, which lie behind the name. The name grows by a digit or two with every
generation. As long as it ends inside its field nothing but the name changes; the first generation whose name does
not end there has its digits or its NUL byte in the registers.
-/

namespace GemOS

open Foundation Memory Kernel

namespace ExecContext

/-- The name ends inside its field. -/
def Terminated (ctx : ExecContext) : Prop := ∃ j < cnameMax, ctx.name j = 0

def withName (ctx : ExecContext) (name : ℕ → ℕ) : ExecContext := { ctx with name := name }

/-- The records agree in everything but the name. -/
def SameButName (ctx ctx' : ExecContext) : Prop := ctx'.withName ctx.name = ctx

variable {ctx : ExecContext}

theorem setNameByte_name (ctx : ExecContext) (j value i : ℕ) (hi : i < cnameMax) :
    (ctx.setNameByte j value).name i = if i = j then value % 256 else ctx.name i := by
  unfold setNameByte
  by_cases hj : j < cnameMax
  · rw [if_pos hj]
    exact Function.update_apply ..
  · rw [if_neg hj, if_neg (by omega)]

/-- The bytes written to the field, and those left as they were. -/
theorem setNameBytes_name (ctx : ExecContext) (j : ℕ) (bytes : List ℕ) (i : ℕ) (hi : i < cnameMax) :
    (ctx.setNameBytes j bytes).name i =
      if j ≤ i ∧ i < j + bytes.length then bytes.getD (i - j) 0 % 256 else ctx.name i := by
  induction bytes generalizing ctx j with
  | nil => exact (if_neg (by simp)).symm
  | cons byte bytes ih =>
    rw [setNameBytes, ih, setNameByte_name ctx j byte i hi, List.length_cons]
    by_cases hbefore : i < j
    · rw [if_neg (by omega), if_neg (by omega), if_neg (by omega)]
    · by_cases heq : i = j
      · subst heq
        rw [if_neg (by omega), if_pos rfl, if_pos (by omega), Nat.sub_self, List.getD_cons_zero]
      · have hsub : i - j = i - (j + 1) + 1 := by omega
        rw [if_neg heq, hsub, List.getD_cons_succ]
        by_cases hinside : j + 1 ≤ i ∧ i < j + 1 + bytes.length
        · rw [if_pos hinside, if_pos (by omega)]
        · rw [if_neg hinside, if_neg (by omega)]

theorem setNameByte_same (ctx : ExecContext) {j : ℕ} (hj : j < cnameMax) (value : ℕ) :
    SameButName ctx (ctx.setNameByte j value) := by
  unfold SameButName setNameByte
  rw [if_pos hj]
  rfl

/-- Bytes that fit into the field change the name alone. -/
theorem setNameBytes_same (ctx : ExecContext) (j : ℕ) (bytes : List ℕ) (hfits : j + bytes.length ≤ cnameMax) :
    SameButName ctx (ctx.setNameBytes j bytes) := by
  induction bytes generalizing ctx j with
  | nil => rfl
  | cons byte bytes ih =>
    rw [List.length_cons] at hfits
    have hrest := ih (ctx.setNameByte j byte) (j + 1) (by omega)
    have hfirst := setNameByte_same ctx (j := j) (by omega) byte
    unfold SameButName at *
    rw [setNameBytes]
    calc
      ((ctx.setNameByte j byte).setNameBytes (j + 1) bytes).withName ctx.name =
          (((ctx.setNameByte j byte).setNameBytes (j + 1) bytes).withName (ctx.setNameByte j byte).name).withName
            ctx.name := rfl
      _ = (ctx.setNameByte j byte).withName ctx.name := by rw [hrest]
      _ = ctx := hfirst

/-- No byte of the prefix is the NUL byte. -/
theorem name_ne_zero {j : ℕ} (hj : j < ctx.nameLength) : ctx.name j ≠ 0 := by
  have htake := List.takeWhile_prefix (l := List.range cnameMax) fun j ↦ decide (ctx.name j ≠ 0)
  have hget := htake.getElem (i := j) hj
  rw [List.getElem_range] at hget
  have hmem : j ∈ (List.range cnameMax).takeWhile fun j ↦ decide (ctx.name j ≠ 0) := by
    have hmem := List.getElem_mem (h := hj)
    rwa [hget] at hmem
  have hholds := List.mem_takeWhile_imp hmem
  exact of_decide_eq_true hholds

end ExecContext

theorem decimalBytes_digit {n byte : ℕ} (h : byte ∈ decimalBytes n) : byte ≠ 0 ∧ byte < 256 := by
  obtain ⟨c, hc, rfl⟩ := List.mem_map.1 h
  have hdigit := Nat.isDigit_of_mem_toDigits (by decide) (by decide) hc
  have hbounds : 48 ≤ c.toNat ∧ c.toNat ≤ 57 := by
    rw [Char.isDigit, Bool.and_eq_true, decide_eq_true_eq, decide_eq_true_eq] at hdigit
    exact ⟨hdigit.1, hdigit.2⟩
  omega

/-- Behind the prefix of the old name stands what `sprintf(new_ctx->name + ctr, "%d", ctx->pid + 1)` writes. -/
theorem cloneName_sprintf (ctx : ExecContext) (hpid : ctx.pid + 1 < 2 ^ 31) (mem out : ℕ → UInt8) (fuel : ℕ) :
    let printed := Shell.sprintf mem (Shell.cString 0 (cText "%d"))
      (fun _ ↦ BitVec.ofNat 64 (ctx.pid + 1)) out (fuel + 3)
    cloneName ctx = (List.range ctx.nameLength).map ctx.name ++
      ((List.range (printed.out + 1)).map printed.buf).map UInt8.toNat := by
  have harg : Shell.argInt (BitVec.ofNat 64 (ctx.pid + 1)) = (ctx.pid + 1 : ℕ) := by
    rw [Shell.argInt, BitVec.setWidth_ofNat_of_le (by norm_num), BitVec.toInt_ofNat']
    exact Int.bmod_eq_of_le (by omega) (by push_cast; omega)
  have htext : (Shell.vprintf mem (Shell.cString 0 (cText "%d")) (fun _ ↦ BitVec.ofNat 64 (ctx.pid + 1)) out
      (fuel + 3)).text = Shell.intText (Shell.argInt (BitVec.ofNat 64 (ctx.pid + 1))) :=
    Shell.vprintf_text (by decide) (by decide)
  intro printed
  rw [Shell.sprintf_text, htext, harg, List.map_append, ← Shell.toDigits_intText (Nat.succ_ne_zero _) hpid, cloneName,
    List.append_assoc]
  rfl

/-- The bytes before the NUL byte. -/
def threadName (ctx : ExecContext) : List ℕ := (List.range ctx.nameLength).map ctx.name ++ decimalBytes (ctx.pid + 1)

theorem threadName_length (ctx : ExecContext) :
    (threadName ctx).length = ctx.nameLength + (decimalBytes (ctx.pid + 1)).length := by
  rw [threadName, List.length_append, List.length_map, List.length_range]

theorem threadName_byte {ctx : ExecContext} (hbytes : ctx.NameBytes) {byte : ℕ} (h : byte ∈ threadName ctx) :
    byte ≠ 0 ∧ byte < 256 := by
  rcases List.mem_append.1 h with hold | hdigit
  · obtain ⟨j, hj, rfl⟩ := List.mem_map.1 hold
    exact ⟨ExecContext.name_ne_zero (List.mem_range.1 hj), hbytes j⟩
  · exact decimalBytes_digit hdigit

theorem cloneName_length (ctx : ExecContext) : (cloneName ctx).length = (threadName ctx).length + 1 := by
  have hname : cloneName ctx = threadName ctx ++ [0] := rfl
  rw [hname, List.length_append]
  rfl

/-- The name of the thread ends inside its field exactly when it is short enough: no other byte is the NUL byte. -/
theorem terminated_iff {ctx : ExecContext} (hbytes : ctx.NameBytes) (record : ExecContext) :
    (record.setNameBytes 0 (cloneName ctx)).Terminated ↔
      ctx.nameLength + (decimalBytes (ctx.pid + 1)).length < cnameMax := by
  have hname : cloneName ctx = threadName ctx ++ [0] := rfl
  have hlength := cloneName_length ctx
  rw [← threadName_length]
  constructor
  · rintro ⟨j, hj, hzero⟩
    by_contra hlong
    have hshort : j < (threadName ctx).length := by omega
    rw [ExecContext.setNameBytes_name _ _ _ _ hj, if_pos (by omega), hname, Nat.sub_zero,
      List.getD_append _ _ _ _ hshort, List.getD_eq_getElem _ _ hshort] at hzero
    have hbyte := threadName_byte hbytes (List.getElem_mem hshort)
    rw [Nat.mod_eq_of_lt hbyte.2] at hzero
    exact hbyte.1 hzero
  · intro hfits
    refine ⟨(threadName ctx).length, hfits, ?_⟩
    rw [ExecContext.setNameBytes_name _ _ _ _ hfits, if_pos (by omega), hname, Nat.sub_zero,
      List.getD_append_right _ _ _ _ le_rfl, Nat.sub_self]
    rfl

/-- A name that is short enough changes nothing else. -/
theorem sameButName_of_fits {ctx : ExecContext}
    (hfits : ctx.nameLength + (decimalBytes (ctx.pid + 1)).length < cnameMax) (record : ExecContext) :
    record.SameButName (record.setNameBytes 0 (cloneName ctx)) := by
  apply ExecContext.setNameBytes_same
  rw [cloneName_length, threadName_length]
  omega

variable {k k' : Kernel} {A : Keeping} {child : CtxPtr} {event : Event}

/-- Every name of the table is made of bytes. -/
def NamesOk (k : Kernel) : Prop := ∀ i, (k.ctxs (some i)).NameBytes

theorem NamesOk.of_names (h : NamesOk k) (hsame : ∀ i, (k'.ctxs (some i)).name = (k.ctxs (some i)).name) :
    NamesOk k' := fun i j ↦ hsame i ▸ h i j

theorem NamesOk.dispatched {next : CtxPtr} (h : NamesOk k) (hdispatched : Dispatched next k k') : NamesOk k' := by
  apply h.of_names
  intro i
  rw [hdispatched.ctxs_eq]
  split <;> rfl

theorem NamesOk.doExit (h : NamesOk k) : NamesOk k.doExit := by
  have hretired : NamesOk k.retire := h.of_names fun i ↦ by
    rw [retire_ctxs]
    split <;> rfl
  rcases doExit_cases k with ⟨-, hdispatched⟩ | ⟨-, hcleanup⟩
  · exact hretired.dispatched hdispatched
  · apply hretired.of_names
    intro i
    rw [hcleanup, doCleanup_ctxs]
    split <;> rfl

theorem NamesOk.updateCtx (h : NamesOk k) (p : CtxPtr) {f : ExecContext → ExecContext}
    (hf : ∀ ctx, (f ctx).name = ctx.name) : NamesOk (k.updateCtx p f) := by
  apply h.of_names
  intro i
  rw [updateCtx_ctxs]
  split
  · exact hf _
  · rfl

theorem NamesOk.doSleep (h : NamesOk k) : NamesOk (k.saveRegs.doSleep k.regs.rsi) := by
  refine NamesOk.dispatched (k := k.slept) (h.of_names fun i ↦ ?_) (dispatched_doSleep k)
  rw [slept_ctxs]
  split <;> rfl

theorem NamesOk.ctx (h : NamesOk k) {i : Fin maxProcesses} (hcurrent : k.current = some i) : k.ctx.NameBytes := by
  rw [Kernel.ctx, hcurrent]
  exact h i

/-- A name changes where a record is made. -/
theorem NamesOk.holds (h : NamesOk k) (hholds : Holds A child k k')
    (hmade : ∀ j, child = some j → (k.ctxs (some j)).NameBytes → (k'.ctxs (some j)).NameBytes) : NamesOk k' := by
  intro j
  by_cases hj : child = some j
  · exact hmade j hj (h j)
  · exact fun i ↦ hholds.nameOf_eq (Ne.symm hj) ▸ h j i

theorem NamesOk.leaves (h : NamesOk k) (hcaller : k.ctx.NameBytes) (hleaves : Leaves event k k') : NamesOk k' := by
  have hleft : ∀ {child k₁}, Left event child k k₁ → NamesOk k₁ := fun hleft ↦
    h.holds hleft.toHolds fun j hj ↦ (hleft.cut j hj).2.2.1.name_bytes j hj hcaller
  cases hleaves with
  | exit left => exact (hleft left).doExit
  | stop _ left _ =>
    have hstopped : NamesOk (k'.withMode k.mode) := hleft left
    exact hstopped

theorem NamesOk.reschedule (h : NamesOk k) (hcr3 : k.cr3 = k.ctx.pgd) : NamesOk k.reschedule := by
  have hready : NamesOk k.readied := h.of_names fun i ↦ by
    rw [readied_ctxs]
    split <;> rfl
  rcases reschedule_cases hcr3 with ⟨-, hsame⟩ | ⟨-, hdispatched⟩
  · rwa [hsame]
  · refine NamesOk.dispatched (k := k.preempted) (h.of_names fun i ↦ ?_) hdispatched
    rw [preempted_ctxs]
    split <;> rfl

theorem countSleep_name (ctx : ExecContext) : ctx.countSleep.name = ctx.name := by
  unfold ExecContext.countSleep
  split_ifs <;> rfl

theorem NamesOk.launch (h : NamesOk k) (args : InitArgs) (scratch : UserRegs) : NamesOk (k.launch args scratch) := by
  have hcreated : NamesOk k.createContext.2 := by
    intro i
    unfold Kernel.createContext
    simp only [updateCtx_ctxs]
    have hold : (k.getNewCtx.2.ctxs (some i)).NameBytes := fun j ↦ getNewCtx_name k (some i) ▸ h i j
    split
    · apply ExecContext.setNameBytes_bytes
      exact hold
    · exact hold
  unfold Kernel.launch Kernel.execInit
  generalize k.createContext.2 = k₁ at *
  generalize k.createContext.1 = p at *
  simp only
  generalize buildInit (k₁.ctxs p).mms k₁.config k₁.mem = built
  obtain ⟨hctxs, -⟩ := iret_loadCr3 (Kernel.setCurrentCtx _ p) (Or.inr rfl) (initRegs args scratch)
  intro i
  rw [hctxs, setCurrentCtx_ctxs]
  have hset : NamesOk (k₁.updateCtx p fun ctx ↦ { ctx with pgd := built.1, mms := execSegments ctx.mms }) :=
    hcreated.updateCtx p fun _ ↦ rfl
  split
  · exact hset i
  · exact hset i

/-- The names stay bytes in every run. -/
theorem Table.names_step (h : Table k) (hnames : NamesOk k) (event : Event) : NamesOk (Kernel.step event k) := by
  have hcounted : NamesOk k.accountSleep := hnames.of_names fun i ↦ countSleep_name _
  by_cases hshell : k.mode = .shell
  · rcases step_shell hshell event with hstay | ⟨args, scratch, -, hlaunch⟩
    · rwa [hstay]
    · rw [hlaunch]
      exact hnames.launch args scratch
  obtain ⟨i, hcurrent⟩ := (h.placed hshell).current_some
  have hcaller := hnames.ctx hcurrent
  have hmoves := h.moves event
  generalize Kernel.step event k = k' at *
  cases hmoves with
  | rest => exact hnames
  | launch mode => exact absurd mode hshell
  | turn _ _ turn =>
    cases turn with
    | work _ works => exact hnames.holds works.toHolds fun j hj ↦ absurd hj.symm (Option.some_ne_none j)
    | fork _ _ holds spawned => exact hnames.holds holds fun j hj ↦ spawned.name_bytes j hj hcaller
    | clone _ holds spawned => exact hnames.holds holds fun j hj ↦ spawned.name_bytes j hj hcaller
    | sleep => exact hnames.doSleep
    | leave leaves => exact hnames.leaves hcaller leaves
  | leave _ _ _ leaves => exact hcounted.leaves (hcounted.ctx hcurrent) leaves
  | tick mode _ _ works swapper =>
    obtain ⟨htable, hmode⟩ := h.ticked mode works swapper
    have hplaced := htable.placed (by rcases hmode with heq | heq <;> rw [heq] <;> decide)
    refine (hcounted.holds works.toHolds fun j hj ↦ ?_).reschedule hplaced.cr3_eq
    exact absurd hj.symm (Option.some_ne_none j)

theorem namesOk_boot (phys : PhysMem) (apicBase : ApicBase) (wp : Bool) (null : ExecContext) :
    NamesOk (Kernel.boot phys apicBase wp null) := by
  intro i j
  change ((if i.val = 0 then swapperRecord _ else .zero : ExecContext).name j) < 256
  split
  · change [0x73, 0x77, 0x61, 0x70, 0x70, 0x65, 0x72].getD j 0 < 256
    rcases lt_or_ge j 7 with hj | hj
    · interval_cases j <;> decide
    · rw [List.getD_eq_default _ _ hj]
      decide
  · exact (by decide : 0 < 256)

/-- The record that `do_clone` fills in before it forms the name: that of the caller over the old one of the slot. -/
def threadRecord (k : Kernel) (stack : ℕ) : ExecContext :=
  cloneRecord (k.ctx.saveRegs k.regs) stack k.regs.rsi k.regs.rdx (k.getNewCtx.2.ctxs k.getNewCtx.1)

/-- A clone gives its thread a name that ends inside the field, and leaves the rest of the record as it was filled in. -/
def NamesThread (k : Kernel) (event : Event) : Prop :=
  k.mode = .user → Asks event k .clone →
    ((step event k).ctxs k.getNewCtx.1).Terminated ∧
      ∃ stack, (threadRecord k stack).SameButName ((step event k).ctxs k.getNewCtx.1)

/-- The name of the caller and the digits behind it are shorter than the field. -/
def NameFits (k : Kernel) (event : Event) : Prop :=
  k.mode = .user → Asks event k .clone → k.ctx.nameLength + (decimalBytes (k.ctx.pid + 1)).length < cnameMax

theorem getNewCtx_saveRegs (k : Kernel) :
    k.saveRegs.getNewCtx.1 = k.getNewCtx.1 ∧
      ∀ p, p ≠ k.current → k.saveRegs.getNewCtx.2.ctxs p = k.getNewCtx.2.ctxs p := by
  have hrecord : ∀ p, k.saveRegs.ctxs p = if p = k.current then (k.ctxs p).saveRegs k.regs else k.ctxs p :=
    k.updateCtx_ctxs k.current fun ctx ↦ ctx.saveRegs k.regs
  have hstate : ∀ p, (k.saveRegs.ctxs p).state = (k.ctxs p).state := fun p ↦ by
    rw [hrecord]
    split <;> rfl
  unfold Kernel.getNewCtx
  simp only [hstate]
  split
  · refine ⟨rfl, fun p hp ↦ ?_⟩
    simp only [updateCtx_ctxs, hrecord, if_neg hp]
  · exact ⟨rfl, fun p hp ↦ by rw [hrecord, if_neg hp]⟩

/-- The record of the thread after the clone. -/
theorem Table.step_clone (h : Table k) (hmode : k.mode = .user) {event : Event} (hasks : Asks event k .clone) :
    ∃ stack, (Kernel.step event k).ctxs k.getNewCtx.1 = (threadRecord k stack).setNameBytes 0 (cloneName k.ctx) := by
  obtain ⟨i, hi, hlive, hctx⟩ := h.current_user hmode
  obtain ⟨hchild, hothers⟩ := getNewCtx_saveRegs k
  obtain ⟨record, hborn, -, hslot, -⟩ := k.saveRegs.getNewCtx_born
  have hself : k.saveRegs.ctx = k.ctx.saveRegs k.regs := k.updateCtx_self k.current fun ctx ↦ ctx.saveRegs k.regs
  have hne : k.saveRegs.current ≠ k.saveRegs.getNewCtx.1 := by
    refine current_ne_child (i := i) hi ?_ fun j hj ↦ (hslot j hj).2
    rw [hself]
    exact hctx ▸ hlive.2
  have hold := hothers _ hne.symm
  have hcaller : k.saveRegs.getNewCtx.2.ctx = k.ctx.saveRegs k.regs := (hborn.ctx_eq hne).trans hself
  obtain ⟨⟨peek, rfl⟩, hcall⟩ := hasks
  refine ⟨(osPfnAlloc .osPt k.saveRegs.getNewCtx.2.mem).1, ?_⟩
  rw [step_user hmode, threadRecord, ← hchild, ← hold]
  have hclone : ∀ {made}, Spec (doClone k.regs.rsi k.regs.rdx) k.saveRegs
      (fun _ k' ↦ k'.ctxs k.saveRegs.getNewCtx.1 = made) (fun k' ↦ k'.ctxs k.saveRegs.getNewCtx.1 = made) →
      ((userProgram (.syscall peek)).final k).ctxs k.saveRegs.getNewCtx.1 = made := by
    intro made hspec
    apply Spec.final (P := fun k' : Kernel ↦ k'.ctxs k.saveRegs.getNewCtx.1 = made)
    apply Spec.read_bind
    apply Spec.update_bind
    rw [hcall]
    exact Spec.bind hspec fun _ _ hmade ↦ Spec.update hmade
  apply hclone
  apply Spec.call_bind
  apply Spec.call_bind
  apply Spec.update_bind
  apply Spec.pure
  generalize k.saveRegs.getNewCtx.1 = child at *
  generalize k.saveRegs.getNewCtx.2 = k₁ at *
  rw [updateCtx_self]
  change (cloneRecord k₁.ctx _ _ _ (k₁.ctxs child)).setNameBytes 0 (cloneName k₁.ctx) = _
  rw [hcaller]
  rfl

/-- In a run, every clone gives its thread a name that ends inside the field and leaves the registers and the rest of
the record as they were filled in, exactly when in every clone the name of the caller and the new digits are shorter
than the field. -/
theorem names_iff (phys : PhysMem) (apicBase : ApicBase) (wp : Bool) (null : ExecContext) (events : List Event) :
    Along Kernel.step NamesThread (boot phys apicBase wp null) events ↔
      Along Kernel.step NameFits (boot phys apicBase wp null) events := by
  apply along_congr (I := fun k ↦ Table k ∧ NamesOk k) events ⟨table_boot phys apicBase wp null, namesOk_boot _ _ _ _⟩
  · rintro k event ⟨htable, hnames⟩
    refine forall_congr' fun hmode ↦ forall_congr' fun hasks ↦ ?_
    obtain ⟨stack, hrecord⟩ := htable.step_clone hmode hasks
    obtain ⟨i, hi, -, hctx⟩ := htable.current_user hmode
    have hbytes : k.ctx.NameBytes := hctx ▸ hnames i
    have hends := terminated_iff hbytes (threadRecord k stack)
    rw [hrecord]
    exact ⟨fun hnames ↦ hends.1 hnames.1, fun hfits ↦ ⟨hends.2 hfits, stack, sameButName_of_fits hfits _⟩⟩
  · exact fun k event hk _ ↦ ⟨hk.1.after event, hk.1.names_step hk.2 event⟩

instance (ctx : ExecContext) : Decidable ctx.Terminated := by
  unfold ExecContext.Terminated
  infer_instance

def cloneThen (number param : ℕ) : List Event := callEvents 9 codeStart stackStart ++ callEvents number param 0

/-- Thirteen generations whose makers sleep, twenty more whose makers exit, and a context that asks for one more. -/
def lastOfChain : Kernel :=
  run step blankBoot (launchInit :: ((List.replicate 13 (cloneThen 7 1000)).flatten ++
    (List.replicate 20 (cloneThen 1 0)).flatten ++
      [.compute { UserRegs.zero with r15 := 2 ^ 64 - 1, rdi := 9, rsi := codeStart, rdx := stackStart }]))

/-- The thread of the thirty-fourth generation has no NUL byte in its name, and the one behind it in `r15`. -/
theorem lastOfChain_unnamed :
    Reachable lastOfChain ∧ lastOfChain.mode = .user ∧ Asks (.syscall fun _ ↦ 0) lastOfChain .clone ∧
      ¬ ((step (.syscall fun _ ↦ 0) lastOfChain).ctxs lastOfChain.getNewCtx.1).Terminated ∧
      lastOfChain.regs.r15 = 2 ^ 64 - 1 ∧
      ((step (.syscall fun _ ↦ 0) lastOfChain).ctxs lastOfChain.getNewCtx.1).regs.r15 = 2 ^ 64 - 256 ∧
      ¬ NamesThread lastOfChain (.syscall fun _ ↦ 0) := by
  -- one evaluation of the run for all that is read off it
  have hrun : lastOfChain.mode = .user ∧ lastOfChain.syscallRequested = some .clone ∧
      ¬ ((step (.syscall fun _ ↦ 0) lastOfChain).ctxs lastOfChain.getNewCtx.1).Terminated ∧
      lastOfChain.regs.r15 = 2 ^ 64 - 1 ∧
      ((step (.syscall fun _ ↦ 0) lastOfChain).ctxs lastOfChain.getNewCtx.1).regs.r15 = 2 ^ 64 - 256 := by
    decide +kernel
  obtain ⟨hmode, hcall, hends, hbefore, hafter⟩ := hrun
  have hasks : Asks (.syscall fun _ ↦ 0) lastOfChain .clone := ⟨⟨_, rfl⟩, hcall⟩
  exact ⟨reachable_blankBoot _, hmode, hasks, hends, hbefore, hafter, fun hnames ↦ hends (hnames hmode hasks).1⟩

end GemOS
