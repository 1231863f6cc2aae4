import GemOS.Process.AccessEffects

/-!
# The accesses of the kernel and of user code

Page faults, the bytes that the kernel reads and writes through addresses chosen by a user, signal frames
and the accesses of user code itself, each shown to do only what `AccessEffects` lists.
-/

namespace GemOS

open Foundation Memory

namespace Kernel

variable {stored : Set ℕ}

theorem still_notePageFault (cr2 : ℕ) (k : Kernel) : Still k (k.notePageFault cr2) :=
  ⟨⟨rfl, rfl, rfl, rfl, rfl, rfl, rfl, rfl, rfl, rfl⟩, rfl⟩

/-- A fault is served, or the signal for it is sent. -/
theorem doPageFault_spec {signal : Prog Kernel Unit} {k : Kernel} {cr2 errorCode : ℕ} {Q : Unit → Kernel → Prop}
    {E : Kernel → Prop}
    (hserve : demandPaged k.ctx cr2 errorCode = true → Q ()
      { k.notePageFault cr2 with mem := installPageTable k.ctx.pgd cr2 errorCode k.mem })
    (hsignal : Spec signal (k.notePageFault cr2) Q E) : Spec (doPageFault signal cr2 errorCode) k Q E := by
  unfold doPageFault
  apply Spec.update_bind
  apply Spec.read_bind
  exact Spec.ite (fun hdemand ↦ Spec.update (hserve hdemand)) fun _ ↦ hsignal

/-- A signal ends the process, is delivered, or is dropped. -/
theorem invokeSyncSignal_spec {deliver : Prog Kernel Unit} {k : Kernel} {Q : Unit → Kernel → Prop}
    {E : Kernel → Prop} (signo : Signal) (hexit : E k.doExit)
    (hdeliver : k.ctx.sighandlers signo ≠ 0 → Spec deliver k Q E) (hdrop : Q () k) :
    Spec (invokeSyncSignal signo deliver) k Q E := by
  unfold invokeSyncSignal
  apply Spec.read_bind
  refine Spec.ite (fun _ ↦ hexit) fun _ ↦ ?_
  exact Spec.ite hdeliver fun _ ↦ Spec.pure hdrop

theorem serving_doPageFault {signal : Prog Kernel Unit} (h : Serving signal) (cr2 errorCode : ℕ) :
    Serving (doPageFault signal cr2 errorCode) := by
  refine ⟨fun k ↦ ?_⟩
  have hnoted : Serves k (k.notePageFault cr2) := .of_quiet (still_notePageFault cr2 k).toQuiet
  refine doPageFault_spec (fun hdemand ↦ .fault hnoted cr2 errorCode hdemand) ?_
  exact (h.spec _).mono (fun _ _ ↦ hnoted.trans) fun _ ↦ .after hnoted

theorem serving_invokeSyncSignal {deliver : Prog Kernel Unit} (h : Serving deliver) (signo : Signal) :
    Serving (invokeSyncSignal signo deliver) :=
  ⟨fun k ↦ invokeSyncSignal_spec signo (.exit (.refl k)) (fun _ ↦ h.spec k) (.refl k)⟩

/-- A fault on a page that is not mapped is served, or the signal for it is sent. -/
theorem doPageFault_tends {signal : Prog Kernel Unit} {k : Kernel} {cr2 errorCode : ℕ} {Q : Unit → Kernel → Prop}
    (hunmapped : demandPaged k.ctx cr2 errorCode = true → hwWalk k.mem.phys k.cr3 cr2 = none)
    (hserve : ∀ k', Tends k k' → Q () k') (hsignal : Spec signal (k.notePageFault cr2) Q (Quits stored k)) :
    Spec (doPageFault signal cr2 errorCode) k Q (Quits stored k) :=
  doPageFault_spec (fun hdemand ↦ hserve _
    (.fault (.of_still (still_notePageFault cr2 k)) cr2 errorCode hdemand (hunmapped hdemand))) hsignal

/-- A protection violation is no fault on a page that is not mapped. -/
theorem not_demandPaged_present (ctx : ExecContext) (cr2 : ℕ) (write user : Bool) :
    demandPaged ctx cr2 (pfError true write user) = false := by
  unfold demandPaged
  rw [if_pos]
  cases write <;> cases user <;> decide

theorem tending_deliverKernel : Tending deliverKernel := .leave fun k ↦ .protection (.refl k)

theorem tending_deliverSwapper : Tending deliverSwapper :=
  .leave fun k ↦ .stop (.tend (.refl k)) trivial ⟨⟨rfl, rfl, rfl, rfl, rfl, rfl, rfl, rfl, rfl, rfl⟩, rfl⟩
    fun hlost ↦ Mode.noConfusion hlost

theorem serving_kernelPageFault (cr2 errorCode : ℕ) : Serving (kernelPageFault cr2 errorCode) :=
  serving_doPageFault (serving_invokeSyncSignal tending_deliverKernel.serving _) cr2 errorCode

theorem kernelPageFault_tends {k : Kernel} {cr2 errorCode : ℕ}
    (hunmapped : demandPaged k.ctx cr2 errorCode = true → hwWalk k.mem.phys k.cr3 cr2 = none) :
    Spec (kernelPageFault cr2 errorCode) k (fun _ ↦ Tends k) (Quits ∅ k) := by
  have hnoted : Tends k (k.notePageFault cr2) := .of_still (still_notePageFault cr2 k)
  refine doPageFault_tends hunmapped (fun _ ↦ id) ?_
  refine invokeSyncSignal_spec .sigsegv (.exit hnoted) (fun _ ↦ ?_) hnoted
  exact (tending_deliverKernel.spec _).mono (fun _ _ ↦ hnoted.trans) fun _ ↦ .after hnoted

/-- Making a byte accessible, by induction on the rounds. -/
theorem kernelTouch_tends (addr : ℕ) (write : Bool) (rounds : ℕ) (k : Kernel) :
    Spec (kernelTouch addr write rounds) k (fun _ k' ↦ Tends k k' ∧ (write = true → Touched k k' addr))
      (Quits ∅ k) := by
  induction rounds generalizing k with
  | zero =>
    exact Spec.leave (.stop (.tend (.refl k)) trivial ⟨⟨rfl, rfl, rfl, rfl, rfl, rfl, rfl, rfl, rfl, rfl⟩, rfl⟩
      fun hlost ↦ Mode.noConfusion hlost)
  | succ rounds ih =>
    have hagain : ∀ errorCode, (demandPaged k.ctx addr errorCode = true → hwWalk k.mem.phys k.cr3 addr = none) →
        Spec (kernelPageFault addr errorCode >>= fun _ ↦ kernelTouch addr write rounds) k
          (fun _ k' ↦ Tends k k' ∧ (write = true → Touched k k' addr)) (Quits ∅ k) := by
      intro errorCode hunmapped
      refine (kernelPageFault_tends hunmapped).bind fun _ k₁ hfirst ↦ (ih k₁).mono ?_ fun _ ↦ .after hfirst
      rintro _ k' ⟨hrest, htouched⟩
      exact ⟨hfirst.trans hrest, fun hwrite ↦ (htouched hwrite).mono hfirst (.refl k')⟩
    unfold kernelTouch
    apply Spec.read_bind
    split
    · exact Quits.protection (.refl k)
    · rename_i hcanonical
      cases hwalk : hwWalk k.mem.phys k.cr3 addr with
      | none => exact hagain _ fun _ ↦ hwalk
      | some mapping =>
        simp only
        split
        · rename_i hmay
          refine Spec.pure ⟨.refl k, fun hwrite ↦ ⟨not_not.1 hcanonical, k, mapping, .refl k, .refl k, hwalk, ?_⟩⟩
          exact hwrite ▸ hmay
        · refine hagain _ fun hdemand ↦ ?_
          rw [not_demandPaged_present] at hdemand
          exact Bool.noConfusion hdemand

theorem tending_kernelTouch (addr : ℕ) (write : Bool) (rounds : ℕ) : Tending (kernelTouch addr write rounds) :=
  ⟨fun k ↦ (kernelTouch_tends addr write rounds k).mono (fun _ _ ↦ And.left) fun _ ↦ id⟩

theorem quiet_record (phys : PhysMem) (addr : ℕ) (write : Bool) (k : Kernel) : Quiet k (k.record phys addr write) :=
  ⟨rfl, rfl, rfl, rfl, rfl, rfl, rfl, rfl, rfl, rfl⟩

theorem tending_kernelLoad (peek : ℕ → ℕ) (addr : ℕ) : Tending (kernelLoad peek addr) := by
  refine (tending_kernelTouch addr false touchRounds).bind fun _ ↦
    (Conforms.update fun k ↦ .of_still ⟨quiet_record k.mem.phys addr false k, rfl⟩).bind fun _ ↦
      Conforms.read_bind fun k ↦ ?_
  cases hwWalk k.mem.phys k.cr3 addr with
  | none => exact Tends.refl k
  | some mapping => exact Tends.refl k

theorem tending_loadBytes (peek : ℕ → ℕ) (addr count : ℕ) : Tending (loadBytes peek addr count) := by
  induction count with
  | zero => exact .pure []
  | succ count ih => exact ih.bind fun _ ↦ (tending_kernelLoad peek _).bind fun _ ↦ .pure _

theorem tending_doWrite (peek : ℕ → ℕ) (address length : ℕ) : Tending (doWrite peek address length) := by
  refine Conforms.read_bind fun k ↦ ?_
  split
  · refine (Conforms.bind (tending_loadBytes peek address length) fun bytes ↦ ?_).spec k
    exact Conforms.bind (.update fun k ↦ .of_still ⟨⟨rfl, rfl, rfl, rfl, rfl, rfl, rfl, rfl, rfl, rfl⟩, rfl⟩) fun _ ↦
      .pure _
  · exact Tends.refl k

theorem tending_configure (peek : ℕ → ℕ) (addr count : ℕ) : Tending (configure peek addr count) := by
  induction count with
  | zero => exact .pure ()
  | succ count ih =>
    exact ih.bind fun _ ↦ (tending_kernelLoad peek _).bind fun _ ↦
      .update fun k ↦ .of_still ⟨⟨rfl, rfl, rfl, rfl, rfl, rfl, rfl, rfl, rfl, rfl⟩, rfl⟩

/-- Each of the bytes was touched. -/
theorem touchAll_tends (addr count : ℕ) (k : Kernel) :
    Spec (touchAll addr count) k (fun _ k' ↦ Tends k k' ∧ ∀ i < count, Touched k k' (addrAt addr i)) (Quits ∅ k) := by
  induction count with
  | zero => exact Spec.pure ⟨.refl k, fun i hi ↦ absurd hi (Nat.not_lt_zero i)⟩
  | succ count ih =>
    unfold touchAll
    refine ih.bind fun _ k₁ hfirst ↦ (kernelTouch_tends _ true touchRounds k₁).mono ?_ fun _ ↦ .after hfirst.1
    rintro _ k' ⟨hlast, htouched⟩
    refine ⟨hfirst.1.trans hlast, fun i hi ↦ ?_⟩
    rcases Nat.lt_succ_iff_lt_or_eq.1 hi with hlt | rfl
    · exact (hfirst.2 i hlt).mono (.refl k) hlast
    · exact (htouched rfl).mono hfirst.1 (.refl k')

theorem touchWord_tends (addr : ℕ) (k : Kernel) :
    Spec (touchWord addr) k (fun _ k' ↦ Tends k k' ∧ ∀ i < 8, Touched k k' (addrAt addr i)) (Quits ∅ k) := by
  unfold touchWord
  exact touchAll_tends addr 8 k

/-- Stores change memory and the list of accesses, and one that strays ends the run. -/
structure Puts (stored : Set ℕ) (k k' : Kernel) : Prop where
  still : Still { k with mem.phys := k'.mem.phys } (k'.withMode k.mode)
  mode_eq : k'.mode = k.mode ∨ k'.mode = .corrupt ∧ ∃ addr ∈ stored, Strays k k' addr

namespace Puts

theorem refl (k : Kernel) : Puts stored k k := ⟨.refl k, Or.inl rfl⟩

theorem plain_iff {k k' : Kernel} (h : Puts stored k k') (pfn : ℕ) : k'.Plain pfn ↔ k.Plain pfn := by
  have hframes : k'.bootFrames = k.bootFrames := congrArg Prod.fst h.still.fixed_eq
  have hctxs : k'.ctxs = k.ctxs := h.still.ctxs_eq
  have hrsp0 : k'.rsp0 = k.rsp0 := h.still.rsp0_eq
  unfold Plain
  rw [hframes, hctxs, hrsp0]

theorem putByte {k k' : Kernel} (h : Puts stored k k') {addr : ℕ} {mapping : Mapping} (hmem : addr ∈ stored)
    (hwalk : hwWalk k.mem.phys k.cr3 addr = some mapping) (value : ℕ) :
      Puts stored k (putByte mapping addr value k') := by
  have hsame : k'.mem = { k.mem with phys := k'.mem.phys } := h.still.mem_eq
  unfold Kernel.putByte putByteWith
  split
  · refine ⟨⟨⟨?_, h.still.ctxs_eq, h.still.current_eq, h.still.mode_eq, h.still.cr3_eq, h.still.rsp0_eq, h.still.cs_eq,
      h.still.processes_eq, h.still.dispatches_eq, h.still.fixed_eq⟩, h.still.rsp_eq⟩, h.mode_eq⟩
    exact congrArg (fun m : Memory ↦ { m with phys := k'.mem.phys.setByte mapping.pfn (addr % pageSize) value }) hsame
  · rename_i hstrays
    have htrace : k'.mem.trace = k.mem.trace := by rw [hsame]
    exact ⟨⟨⟨hsame, h.still.ctxs_eq, h.still.current_eq, rfl, h.still.cr3_eq, h.still.rsp0_eq, h.still.cs_eq,
      h.still.processes_eq, h.still.dispatches_eq, h.still.fixed_eq⟩, h.still.rsp_eq⟩,
      Or.inr ⟨rfl, addr, hmem, k, mapping, .refl k, htrace, hwalk, fun hplain ↦
        hstrays ⟨hplain.1, (h.plain_iff _).2 hplain.2⟩⟩⟩

theorem record {k k' : Kernel} (h : Puts stored k k') (phys : PhysMem) (addr : ℕ) (write : Bool) :
    Puts stored k (k'.record phys addr write) :=
  ⟨⟨⟨h.still.mem_eq, h.still.ctxs_eq, h.still.current_eq, h.still.mode_eq, h.still.cr3_eq,
    h.still.rsp0_eq, h.still.cs_eq,
    h.still.processes_eq, h.still.dispatches_eq, h.still.fixed_eq⟩, h.still.rsp_eq⟩, h.mode_eq⟩

theorem kernelPut {k k' : Kernel} (h : Puts stored k k') {addr : ℕ} (hmem : addr ∈ stored) (value : ℕ) :
    Puts stored k (kernelPut k.mem.phys addr value k') := by
  have hcr3 : k'.cr3 = k.cr3 := h.still.cr3_eq
  unfold Kernel.kernelPut kernelPutWith
  rw [hcr3]
  cases hwalk : hwWalk k.mem.phys k.cr3 addr with
  | none => exact h
  | some mapping => exact (h.record k.mem.phys addr true).putByte hmem hwalk value

end Puts

theorem putBytes_puts {addr count : ℕ} (hmem : ∀ i < count, addrAt addr i ∈ stored) (word : ℕ) (k : Kernel) :
    Puts stored k (putBytes k.mem.phys addr word count k) := by
  induction count with
  | zero => exact .refl k
  | succ count ih =>
    have hbefore := ih fun i hi ↦ hmem i (hi.trans (Nat.lt_succ_self count))
    exact hbefore.kernelPut (hmem count (Nat.lt_succ_self count)) _

theorem putWord_puts {addr : ℕ} (hmem : ∀ i < 8, addrAt addr i ∈ stored) (word : ℕ) (k : Kernel) :
    Puts stored k (putWord addr word k) := by
  unfold putWord putWordWith
  exact putBytes_puts hmem word k

namespace Writes

theorem refl (k k₁ : Kernel) : Writes stored k k₁ k₁.mem.phys :=
  ⟨fun _ hne ↦ absurd rfl hne, fun _ _ hne ↦ absurd rfl hne⟩

/-- A byte that was touched is stored. -/
theorem putByte {k k₁ k' : Kernel} (h : Writes stored k k₁ k'.mem.phys) {addr : ℕ}
    {mapping : Mapping} (hmem : addr ∈ stored)
    (htouched : Touched k k₁ addr) (hwalk : hwWalk k₁.mem.phys k₁.cr3 addr = some mapping) (value : ℕ) :
    Writes stored k k₁ (putByte mapping addr value k').mem.phys := by
  unfold Kernel.putByte putByteWith
  split
  · rename_i hplain
    refine ⟨fun frame hframe ↦ ?_, fun frame offset hbyte ↦ ?_⟩
    · by_cases hpfn : frame = mapping.pfn
      · exact ⟨addr, mapping, htouched, hwalk, hplain.1, hpfn.symm⟩
      · exact h.frames frame fun heq ↦ hframe ((setByte_of_ne hpfn).trans heq)
    · change (k'.mem.phys.setByte mapping.pfn (addr % pageSize) value).byteAt frame offset ≠ _ at hbyte
      rw [PhysMem.byteAt_setByte] at hbyte
      split at hbyte
      · rename_i hhere
        exact ⟨addr, mapping, hmem, htouched, hwalk, hplain.1, hhere.1.symm, hhere.2.symm⟩
      · exact h.bytes frame offset hbyte
  · exact h

theorem kernelPut {k k₁ k' : Kernel} (h : Writes stored k k₁ k'.mem.phys) (hcr3 : k'.cr3 = k₁.cr3) {addr : ℕ}
    (hmem : addr ∈ stored) (htouched : Touched k k₁ addr) (value : ℕ) :
    Writes stored k k₁ (kernelPut k₁.mem.phys addr value k').mem.phys := by
  unfold Kernel.kernelPut kernelPutWith
  rw [hcr3]
  cases hwalk : hwWalk k₁.mem.phys k₁.cr3 addr with
  | none => exact h
  | some mapping =>
    have hrecorded : Writes stored k k₁ (k'.record k₁.mem.phys addr true).mem.phys := h
    exact hrecorded.putByte hmem htouched hwalk value

end Writes

theorem putWord_writes {k k₁ : Kernel} {addr : ℕ} (hmem : ∀ i < 8, addrAt addr i ∈ stored)
    (htouched : ∀ i < 8, Touched k k₁ (addrAt addr i)) (word : ℕ) :
      Writes stored k k₁ (putWord addr word k₁).mem.phys := by
  have hbytes : ∀ count ≤ 8, Writes stored k k₁ (putBytes k₁.mem.phys addr word count k₁).mem.phys := by
    intro count hcount
    induction count with
    | zero => exact .refl k k₁
    | succ count ih =>
      have hsub : ∀ i < count, addrAt addr i ∈ stored := fun i hi ↦ hmem i (by omega)
      exact (ih (by omega)).kernelPut (putBytes_puts hsub word k₁).still.cr3_eq (hmem count (by omega))
        (htouched count (by omega)) (byteOf word count)
  unfold putWord putWordWith
  exact hbytes 8 le_rfl

/-- After a store the run goes on, or it is lost. -/
theorem update_settle_spec {k k₁ : Kernel} {f : Kernel → Kernel} (htends : Tends k k₁) (hputs : Puts stored k₁ (f k₁))
    (hwrites : Writes stored k k₁ (f k₁).mem.phys) :
    Spec (Prog.update f >>= fun _ ↦ settle) k₁ (fun _ k' ↦ Still { k₁ with mem.phys := (f k₁).mem.phys } k')
      (Quits stored k) := by
  unfold settle
  apply Spec.update_bind
  apply Spec.read_bind
  generalize f k₁ = k₂ at *
  refine Spec.ite (fun hlost ↦ ?_) fun hlost ↦ ?_
  · have hstore : Attends stored k (k₂.withMode k₁.mode) := .store htends hwrites hputs.still.toQuiet
    refine Spec.leave (Quits.stop hstore ?_ ⟨⟨rfl, rfl, rfl, rfl, rfl, rfl, rfl, rfl, rfl, rfl⟩, rfl⟩ fun _ hmode ↦ ?_)
    · rw [id, hlost]
      trivial
    · rcases hputs.mode_eq with hsame | ⟨-, addr, hmem, hstrays⟩
      · exact absurd (htends.mode_eq.symm.trans (hsame.symm.trans hlost)) hmode
      · exact ⟨addr, hmem, hstrays.after htends⟩
  · have hmode : k₂.mode = k₁.mode := hputs.mode_eq.resolve_right fun hstrays ↦ hlost hstrays.1
    have hsame : k₂.withMode k₁.mode = k₂ := by rw [← hmode, withMode_self]
    exact Spec.pure (hsame ▸ hputs.still)

/-- A word that is pushed goes to bytes that were touched. -/
theorem pushFrame_spec {slot : ℕ} (hslot : ∀ i < 8, addrAt slot i ∈ stored) (word : ℕ) (k : Kernel) :
    Spec (pushFrame slot word) k
      (fun _ k' ↦ ∃ k₁ phys, Tends k k₁ ∧ Writes stored k k₁ phys ∧ Still { k₁ with mem.phys := phys } k')
      (Quits stored k) := by
  unfold pushFrame pushFrameWith
  refine ((touchWord_tends slot k).mono (fun _ _ ↦ id) fun _ hquits ↦ hquits.mono (Set.empty_subset _)).bind ?_
  rintro _ k₁ ⟨htends, htouched⟩
  have hwrites : Writes stored k k₁ (putWordWith stopStore slot word k₁).mem.phys := putWord_writes hslot htouched word
  exact (update_settle_spec htends (putWord_puts hslot word k₁) hwrites).mono
    (fun _ _ hstill ↦ ⟨k₁, _, htends, hwrites, hstill⟩) fun _ ↦ id

/-- The signal frame goes to bytes that were touched. -/
theorem deliverUser_attends (signo : Signal) (k : Kernel) (hhandler : k.ctx.sighandlers signo ≠ 0) :
    Spec (deliverUser signo) k (fun _ ↦ Attends (signalFrame signo k) k) (Quits (signalFrame signo k) k) := by
  unfold deliverUser deliverUserWith
  apply Spec.read_bind
  have hslot : ∀ i < 8, addrAt (signalSlot k.regs) i ∈ signalFrame signo k := fun i hi ↦ ⟨hhandler, i, hi, rfl⟩
  refine (pushFrame_spec hslot k.regs.entryRip k).bind ?_
  rintro _ k' ⟨k₁, phys, htends, hwrites, hstill⟩
  exact Spec.update (.store htends hwrites ⟨hstill.mem_eq, hstill.ctxs_eq, hstill.current_eq, hstill.mode_eq,
    hstill.cr3_eq, hstill.rsp0_eq, hstill.cs_eq, hstill.processes_eq, hstill.dispatches_eq, hstill.fixed_eq⟩)

theorem signalRunning_attends (signo : Signal) (k : Kernel) :
    Spec (signalRunning signo) k (fun _ ↦ Attends (signalFrame signo k) k) (Quits (signalFrame signo k) k) := by
  unfold signalRunning signalRunningWith
  apply Spec.read_bind
  refine invokeSyncSignal_spec signo (.exit (.refl k)) (fun hhandler ↦ ?_) (.tend (.refl k))
  split
  · exact deliverUser_attends signo k hhandler
  · exact (tending_deliverSwapper.spec k).mono (fun _ _ ↦ .tend) fun _ hquits ↦ hquits.mono (Set.empty_subset _)

theorem userPageFault_attends {k : Kernel} {cr2 errorCode : ℕ}
    (hunmapped : demandPaged k.ctx cr2 errorCode = true → hwWalk k.mem.phys k.cr3 cr2 = none) :
    Spec (userPageFault cr2 errorCode) k (fun _ ↦ Attends (signalFrame .sigsegv k) k)
      (Quits (signalFrame .sigsegv k) k) := by
  have hstill := still_notePageFault cr2 k
  have hsignal := signalRunning_attends .sigsegv (k.notePageFault cr2)
  rw [hstill.signalFrame_eq] at hsignal
  exact doPageFault_tends hunmapped (fun _ ↦ .tend)
    (hsignal.mono (fun _ _ ↦ .after (.of_still hstill)) fun _ ↦ .after (.of_still hstill))

/-- An access of user code is performed as its page table permits, or faults. -/
theorem userTouch_attends (addr : ℕ) (write : Bool) {perform : Mapping → Prog Kernel Unit} (k : Kernel)
    (hsub : signalFrame .sigsegv k ⊆ stored)
    (hperform : ∀ mapping, Canonical addr → hwWalk k.mem.phys k.cr3 addr = some mapping → mapping.UserMay write →
      Spec (perform mapping) k (fun _ ↦ Attends stored k) (Quits stored k)) :
    Spec (userTouchWith stopStore addr write perform) k (fun _ ↦ Attends stored k) (Quits stored k) := by
  have hfault : ∀ {errorCode}, (demandPaged k.ctx addr errorCode = true → hwWalk k.mem.phys k.cr3 addr = none) →
      Spec (userPageFault addr errorCode) k (fun _ ↦ Attends stored k) (Quits stored k) := fun hunmapped ↦
    (userPageFault_attends hunmapped).mono (fun _ _ hattends ↦ hattends.mono hsub) fun _ hquits ↦ hquits.mono hsub
  unfold userTouchWith
  apply Spec.read_bind
  split
  · exact Quits.protection (.refl k)
  · rename_i hcanonical
    cases hwalk : hwWalk k.mem.phys k.cr3 addr with
    | none => exact hfault fun _ ↦ hwalk
    | some mapping =>
      refine Spec.ite (fun hmay ↦ hperform mapping (not_not.1 hcanonical) hwalk hmay) fun _ ↦ hfault fun hdemand ↦ ?_
      rw [not_demandPaged_present] at hdemand
      exact Bool.noConfusion hdemand

theorem userLoad_attends (addr : ℕ) (k : Kernel) :
    Spec (userLoad addr) k (fun _ ↦ Attends (signalFrame .sigsegv k) k) (Quits (signalFrame .sigsegv k) k) :=
  userTouch_attends addr false k subset_rfl fun _ _ _ _ ↦ Spec.pure (.tend (.refl k))

theorem userStore_attends (addr value : ℕ) (k : Kernel) :
    Spec (userStore addr value) k (fun _ ↦ Attends (insert addr (signalFrame .sigsegv k)) k)
      (Quits (insert addr (signalFrame .sigsegv k)) k) := by
  refine userTouch_attends addr true k (Set.subset_insert _ _) fun mapping hcanonical hwalk hmay ↦ ?_
  have htouched : Touched k k addr := ⟨hcanonical, k, mapping, .refl k, .refl k, hwalk, fun _ _ ↦ hmay.2 rfl⟩
  have hmem : addr ∈ insert addr (signalFrame .sigsegv k) := Set.mem_insert _ _
  have hwrites := (Writes.refl k k).putByte hmem htouched hwalk value
  exact (update_settle_spec (.refl k) ((Puts.refl k).putByte hmem hwalk value) hwrites).mono
    (fun _ _ hstill ↦ .store (.refl k) hwrites hstill.toQuiet) fun _ ↦ id

theorem serving_signalRunning (signo : Signal) : Serving (signalRunning signo) :=
  Serving.of_attends (signalRunning_attends signo)

theorem serving_userLoad (addr : ℕ) : Serving (userLoad addr) := Serving.of_attends (userLoad_attends addr)

theorem serving_userStore (addr value : ℕ) : Serving (userStore addr value) :=
  Serving.of_attends (userStore_attends addr value)

theorem serving_pageFaultGate : Serving pageFaultGate := by
  have hpush : ∀ slot word, Serving (pushFrame slot word) := fun slot word ↦
    ⟨fun k ↦ (pushFrame_spec (fun _ _ ↦ Set.mem_univ _) word k).mono
      (fun _ k' ⟨_, _, htends, hwrites, hstill⟩ ↦ (Serves.store htends.serves hwrites.writesUser).quiet hstill.toQuiet)
      fun _ ↦ Quits.departs⟩
  refine Conforms.read_bind fun k ↦ Conforms.spec (.bind ?_ fun _ ↦ .leave fun k ↦ .protection (.refl k)) k
  exact serving_doPageFault (serving_invokeSyncSignal (hpush _ _) _) _ _

/-- A page of `copy_mm` is copied, or the copy faults. -/
theorem copyFrame_spec (dst src : ℕ) (k : Kernel) :
    Spec (copyFrame dst src) k
      (fun _ k' ↦ inWindow src ∧ inWindow dst ∧ k' = { k with mem.phys := k.mem.phys.copy dst src })
      fun k' ↦ (¬ inWindow src ∨ ¬ inWindow dst) ∧ Departs k k' := by
  have hfault : ∀ cr2 errorCode, Spec (kernelPageFault cr2 errorCode >>= fun _ ↦
      Prog.leave fun k ↦ { k with mode := .hung }) k
        (fun (_ : Unit) k' ↦ inWindow src ∧ inWindow dst ∧ k' = { k with mem.phys := k.mem.phys.copy dst src })
        (Departs k) := fun cr2 errorCode ↦
    Spec.bind ((serving_kernelPageFault cr2 errorCode).spec k) fun _ _ hserves ↦
      Spec.leave (Departs.stop hserves trivial ⟨rfl, rfl, rfl, rfl, rfl, rfl, rfl, rfl, rfl, rfl⟩)
  unfold copyFrame
  refine Spec.ite (fun hsrc ↦ ?_) fun hsrc ↦ Spec.ite (fun hdst ↦ ?_) fun hdst ↦ ?_
  · exact (hfault _ _).mono (fun _ _ ↦ id) fun _ ↦ And.intro (Or.inl hsrc)
  · exact (hfault _ _).mono (fun _ _ ↦ id) fun _ ↦ And.intro (Or.inr hdst)
  · exact Spec.update ⟨not_not.1 hsrc, not_not.1 hdst, rfl⟩

/-- A page copy outside the window faults at an address where no page of a process is. -/
theorem copyFrame_quits {dst src : ℕ} {k : Kernel}
    (hdemand : ∀ errorCode, demandPaged k.ctx (src <<< pageShift) errorCode = false ∧
      demandPaged k.ctx (dst <<< pageShift) errorCode = false) :
    Spec (copyFrame dst src) k (fun _ _ ↦ True) (Quits ∅ k) := by
  have hfault : ∀ cr2 errorCode, demandPaged k.ctx cr2 errorCode = false →
      Spec (kernelPageFault cr2 errorCode >>= fun _ ↦ Prog.leave fun k ↦ { k with mode := .hung }) k
        (fun (_ : Unit) _ ↦ True) (Quits ∅ k) := by
    intro cr2 errorCode hnone
    have hunmapped : demandPaged k.ctx cr2 errorCode = true → hwWalk k.mem.phys k.cr3 cr2 = none := fun hdemand ↦ by
      rw [hnone] at hdemand
      exact Bool.noConfusion hdemand
    refine (kernelPageFault_tends hunmapped).bind fun _ k₁ htends ↦ Spec.leave ?_
    exact .stop (.tend htends) trivial ⟨⟨rfl, rfl, rfl, rfl, rfl, rfl, rfl, rfl, rfl, rfl⟩, rfl⟩
      fun hlost ↦ Mode.noConfusion hlost
  unfold copyFrame
  refine Spec.ite (fun _ ↦ hfault _ _ (hdemand _).1) fun _ ↦ Spec.ite (fun _ ↦ hfault _ _ (hdemand _).2) fun _ ↦ ?_
  exact Spec.update trivial

end Kernel

end GemOS
