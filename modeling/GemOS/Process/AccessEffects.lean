import GemOS.Process.Space

/-!
# What an access can do to the kernel

Whatever the state, an access of the kernel to user memory, the delivery of a signal, and an access of
user code itself only ever serve page faults, write bytes of user pages, and change registers and
records nobody schedules by (`Serves`); or they end the process, or end in one of the modes in which
the run stops (`Departs`). Every invariant of the processes is carried over these programs by an
induction on the two relations.

Two facts are left out there that the address spaces rest on. A fault is served for a page that is not
mapped (`Tends`), and a store goes to bytes that were made accessible for writing first, through a page
table in which the processor, with the write-protect bit set, has found them writable (`Writes`). These
bytes are the one that user code stores, and those of the signal frame when the process has a handler.
-/

namespace GemOS

open Foundation Memory

namespace Kernel

/-- Nothing changed that decides who runs on which page table. -/
structure Quiet (k k' : Kernel) : Prop where
  mem_eq : k'.mem = k.mem
  ctxs_eq : k'.ctxs = k.ctxs
  current_eq : k'.current = k.current
  mode_eq : k'.mode = k.mode
  cr3_eq : k'.cr3 = k.cr3
  rsp0_eq : k'.rsp0 = k.rsp0
  cs_eq : k'.regs.entryCs = k.regs.entryCs
  processes_eq : k'.stats.numProcesses = k.stats.numProcesses
  dispatches_eq : k'.dispatches = k.dispatches
  fixed_eq : k'.fixed = k.fixed

theorem Quiet.refl (k : Kernel) : Quiet k k := ⟨rfl, rfl, rfl, rfl, rfl, rfl, rfl, rfl, rfl, rfl⟩

/-- The state but for its mode. -/
def withMode (k : Kernel) (mode : Mode) : Kernel := { k with mode := mode }

theorem withMode_self (k : Kernel) : k.withMode k.mode = k := rfl

/-- Memory differs at most in the frames that the page table in use maps for user code. -/
def WritesUser (k : Kernel) (phys : PhysMem) : Prop :=
  ∀ frame, (∀ addr mapping, hwWalk k.mem.phys k.cr3 addr = some mapping → mapping.user = true →
    mapping.pfn ≠ frame) → phys frame = k.mem.phys frame

/-- Page faults served, user pages written, and quiet changes. -/
inductive Serves : Kernel → Kernel → Prop
  | refl (k : Kernel) : Serves k k
  | quiet {k k₁ k₂ : Kernel} (before : Serves k k₁) (quiet : Quiet k₁ k₂) : Serves k k₂
  | fault {k k₁ : Kernel} (before : Serves k k₁) (cr2 errorCode : ℕ)
      (demand : demandPaged k₁.ctx cr2 errorCode = true) :
      Serves k { k₁ with mem := installPageTable k₁.ctx.pgd cr2 errorCode k₁.mem }
  | store {k k₁ : Kernel} (before : Serves k k₁) {phys : PhysMem} (writes : WritesUser k₁ phys) :
      Serves k { k₁ with mem.phys := phys }

/-- The modes in which the run stops. -/
def Stopped : Mode → Prop
  | .ring0 | .corrupt | .dead | .hung => True
  | .shell | .user | .swapper => False

/-- The process ends, or the run stops. -/
inductive Departs : Kernel → Kernel → Prop
  | exit {k k₁ : Kernel} (before : Serves k k₁) : Departs k k₁.doExit
  | protection {k k₁ : Kernel} (before : Serves k k₁) : Departs k k₁.doGp
  | stop {k k₁ k₂ : Kernel} (before : Serves k k₁) (stopped : Stopped k₂.mode)
      (quiet : Quiet k₁ (k₂.withMode k₁.mode)) : Departs k k₂

theorem Serves.trans {k k₁ k₂ : Kernel} (first : Serves k k₁) (second : Serves k₁ k₂) : Serves k k₂ := by
  induction second with
  | refl => exact first
  | quiet _ quiet ih => exact .quiet ih quiet
  | fault _ cr2 errorCode demand ih => exact .fault ih cr2 errorCode demand
  | store _ writes ih => exact .store ih writes

theorem Departs.after {k k₁ k₂ : Kernel} (first : Serves k k₁) (second : Departs k₁ k₂) : Departs k k₂ := by
  cases second with
  | exit before => exact .exit (first.trans before)
  | protection before => exact .protection (first.trans before)
  | stop before stopped quiet => exact .stop (first.trans before) stopped quiet

theorem Serves.of_quiet {k k' : Kernel} (h : Quiet k k') : Serves k k' := .quiet (.refl k) h

instance : Ways Serves Departs := ⟨.refl, .trans, .after⟩

/-- A program that only serves or departs. -/
abbrev Serving {α : Type} (p : Prog Kernel α) : Prop := Conforms Serves Departs p

theorem setByte_of_ne {phys : PhysMem} {pfn offset value frame : ℕ} (h : frame ≠ pfn) :
    phys.setByte pfn offset value frame = phys frame := PhysMem.write_of_ne h

/-- Quiet, and the stack pointer of the user stays. -/
structure Still (k k' : Kernel) : Prop extends Quiet k k' where
  rsp_eq : k'.regs.entryRsp = k.regs.entryRsp

theorem Still.refl (k : Kernel) : Still k k := ⟨.refl k, rfl⟩

/-- Faults on pages that are not mapped served, and quiet changes. -/
inductive Tends : Kernel → Kernel → Prop
  | refl (k : Kernel) : Tends k k
  | still {k k₁ k₂ : Kernel} (before : Tends k k₁) (still : Still k₁ k₂) : Tends k k₂
  | fault {k k₁ : Kernel} (before : Tends k k₁) (cr2 errorCode : ℕ)
      (demand : demandPaged k₁.ctx cr2 errorCode = true) (unmapped : hwWalk k₁.mem.phys k₁.cr3 cr2 = none) :
      Tends k { k₁ with mem := installPageTable k₁.ctx.pgd cr2 errorCode k₁.mem }

theorem Tends.of_still {k k' : Kernel} (h : Still k k') : Tends k k' := .still (.refl k) h

theorem Tends.trans {k k₁ k₂ : Kernel} (first : Tends k k₁) (second : Tends k₁ k₂) : Tends k k₂ := by
  induction second with
  | refl => exact first
  | still _ still ih => exact .still ih still
  | fault _ cr2 errorCode demand unmapped ih => exact .fault ih cr2 errorCode demand unmapped

theorem Tends.serves {k k' : Kernel} (h : Tends k k') : Serves k k' := by
  induction h with
  | refl => exact .refl k
  | still _ still ih => exact .quiet ih still.toQuiet
  | fault _ cr2 errorCode demand _ ih => exact .fault ih cr2 errorCode demand

theorem Tends.mode_eq {k k' : Kernel} (h : Tends k k') : k'.mode = k.mode := by
  induction h with
  | refl => rfl
  | still _ still ih => exact still.mode_eq.trans ih
  | fault _ _ _ _ _ ih => exact ih

/-- The bytes that a signal frame takes, when the process has a handler for the signal. -/
def signalFrame (signo : Signal) (k : Kernel) : Set ℕ :=
  {addr | k.ctx.sighandlers signo ≠ 0 ∧ ∃ i < 8, addr = addrAt (signalSlot k.regs) i}

theorem signalFrame_congr {k k' : Kernel} (signo : Signal) (hctx : k'.ctx.sighandlers signo = k.ctx.sighandlers signo)
    (hrsp : k'.regs.entryRsp = k.regs.entryRsp) : signalFrame signo k' = signalFrame signo k := by
  unfold signalFrame signalSlot
  rw [hctx, hrsp]

theorem Still.signalFrame_eq {k k' : Kernel} (h : Still k k') (signo : Signal) :
    signalFrame signo k' = signalFrame signo k :=
  signalFrame_congr signo (by rw [Kernel.ctx, h.ctxs_eq, h.current_eq, Kernel.ctx]) h.rsp_eq

/-- On the way from `k` to `k'` the byte was found accessible for writing. -/
def Touched (k k' : Kernel) (addr : ℕ) : Prop :=
  Canonical addr ∧ ∃ k₀ mapping, Tends k k₀ ∧ Tends k₀ k' ∧ hwWalk k₀.mem.phys k₀.cr3 addr = some mapping ∧
    mapping.KernelMay k₀.wp true

theorem Touched.mono {k k₁ k₂ k₃ : Kernel} {addr : ℕ} (h : Touched k₁ k₂ addr) (before : Tends k k₁)
    (after : Tends k₂ k₃) :
    Touched k k₃ addr := by
  obtain ⟨hcanonical, k₀, mapping, hbefore, hafter, hwalk, hmay⟩ := h
  exact ⟨hcanonical, k₀, mapping, before.trans hbefore, hafter.trans after, hwalk, hmay⟩

/-- Memory of `k₁` is overwritten in frames of user pages whose bytes were touched since `k`, and at addresses of
`stored`. -/
structure Writes (stored : Set ℕ) (k k₁ : Kernel) (phys : PhysMem) : Prop where
  frames : ∀ frame, phys frame ≠ k₁.mem.phys frame → ∃ addr mapping, Touched k k₁ addr ∧
    hwWalk k₁.mem.phys k₁.cr3 addr = some mapping ∧ mapping.user = true ∧ mapping.pfn = frame
  bytes : ∀ frame offset, phys.byteAt frame offset ≠ k₁.mem.phys.byteAt frame offset → ∃ addr mapping, addr ∈ stored ∧
    Touched k k₁ addr ∧ hwWalk k₁.mem.phys k₁.cr3 addr = some mapping ∧ mapping.user = true ∧ mapping.pfn = frame ∧
      addr % pageSize = offset

variable {stored stored' : Set ℕ}

theorem Writes.writesUser {k k₁ : Kernel} {phys : PhysMem} (h : Writes stored k k₁ phys) : WritesUser k₁ phys := by
  intro frame hframe
  by_contra hne
  obtain ⟨addr, mapping, -, hwalk, huser, hpfn⟩ := h.frames frame hne
  exact hframe addr mapping hwalk huser hpfn

theorem Writes.mono {k k₁ : Kernel} {phys : PhysMem} (h : Writes stored k k₁ phys) (hsub : stored ⊆ stored') :
    Writes stored' k k₁ phys where
  frames := h.frames
  bytes frame offset hne := by
    obtain ⟨addr, mapping, hmem, hrest⟩ := h.bytes frame offset hne
    exact ⟨addr, mapping, hsub hmem, hrest⟩

/-- Faults are served, and then at most one store is made, at addresses of `stored`. -/
inductive Attends (stored : Set ℕ) : Kernel → Kernel → Prop
  | tend {k k' : Kernel} (tends : Tends k k') : Attends stored k k'
  | store {k k₁ k' : Kernel} {phys : PhysMem} (before : Tends k k₁) (writes : Writes stored k k₁ phys)
      (quiet : Quiet { k₁ with mem.phys := phys } k') : Attends stored k k'

/-- On the way from `k` to `k'` the byte was found mapped, but not as one of a plain user page; no allocator call was
made since. -/
def Strays (k k' : Kernel) (addr : ℕ) : Prop :=
  ∃ k₀ mapping, Tends k k₀ ∧ k'.mem.trace = k₀.mem.trace ∧ hwWalk k₀.mem.phys k₀.cr3 addr = some mapping ∧
    ¬ (mapping.user = true ∧ k₀.Plain mapping.pfn)

theorem Strays.after {k k₁ k' : Kernel} {addr : ℕ} (first : Tends k k₁) (h : Strays k₁ k' addr) : Strays k k' addr := by
  obtain ⟨k₀, mapping, hbefore, hrest⟩ := h
  exact ⟨k₀, mapping, first.trans hbefore, hrest⟩

/-- The process ends, or the run stops; it is lost only by a store that strays. -/
inductive Quits (stored : Set ℕ) : Kernel → Kernel → Prop
  | exit {k k₁ : Kernel} (before : Tends k k₁) : Quits stored k k₁.doExit
  | protection {k k₁ : Kernel} (before : Tends k k₁) : Quits stored k k₁.doGp
  | stop {k k₁ k' : Kernel} (before : Attends stored k k₁) (stopped : Stopped k'.mode)
      (still : Still k₁ (k'.withMode k₁.mode))
      (lost : k'.mode = .corrupt → k.mode ≠ .corrupt → ∃ addr ∈ stored, Strays k k' addr) : Quits stored k k'

theorem Attends.mono {k k' : Kernel} (h : Attends stored k k') (hsub : stored ⊆ stored') : Attends stored' k k' := by
  cases h with
  | tend tends => exact .tend tends
  | store before writes quiet => exact .store before (writes.mono hsub) quiet

theorem Quits.mono {k k' : Kernel} (h : Quits stored k k') (hsub : stored ⊆ stored') : Quits stored' k k' := by
  cases h with
  | exit before => exact .exit before
  | protection before => exact .protection before
  | stop before stopped still lost =>
    refine .stop (before.mono hsub) stopped still fun hlost hmode ↦ ?_
    obtain ⟨addr, hmem, hstrays⟩ := lost hlost hmode
    exact ⟨addr, hsub hmem, hstrays⟩

theorem Attends.after {k k₁ k₂ : Kernel} (first : Tends k k₁) (second : Attends stored k₁ k₂) :
    Attends stored k k₂ := by
  cases second with
  | tend tends => exact .tend (first.trans tends)
  | store before writes quiet =>
    refine .store (first.trans before) ⟨fun frame hframe ↦ ?_, fun frame offset hbyte ↦ ?_⟩ quiet
    · obtain ⟨addr, mapping, htouched, hwalk⟩ := writes.frames frame hframe
      exact ⟨addr, mapping, htouched.mono first (.refl _), hwalk⟩
    · obtain ⟨addr, mapping, hmem, htouched, hwalk⟩ := writes.bytes frame offset hbyte
      exact ⟨addr, mapping, hmem, htouched.mono first (.refl _), hwalk⟩

theorem Quits.after {k k₁ k₂ : Kernel} (first : Tends k k₁) (second : Quits stored k₁ k₂) : Quits stored k k₂ := by
  cases second with
  | exit before => exact .exit (first.trans before)
  | protection before => exact .protection (first.trans before)
  | stop before stopped still lost =>
    refine .stop (before.after first) stopped still fun hlost hmode ↦ ?_
    obtain ⟨addr, hmem, hstrays⟩ := lost hlost (first.mode_eq.trans_ne hmode)
    exact ⟨addr, hmem, hstrays.after first⟩

instance : Ways Tends (Quits ∅) := ⟨.refl, .trans, .after⟩

/-- A program that tends or quits. -/
abbrev Tending {α : Type} (p : Prog Kernel α) : Prop := Conforms Tends (Quits ∅) p

theorem Attends.serves {k k' : Kernel} (h : Attends stored k k') : Serves k k' := by
  cases h with
  | tend tends => exact tends.serves
  | store before writes quiet => exact (Serves.store before.serves writes.writesUser).quiet quiet

theorem Quits.departs {k k' : Kernel} (h : Quits stored k k') : Departs k k' := by
  cases h with
  | exit before => exact .exit before.serves
  | protection before => exact .protection before.serves
  | stop before stopped still _ => exact .stop before.serves stopped still.toQuiet

/-- A program that tends only serves. -/
theorem Tending.serving {α : Type} {p : Prog Kernel α} (h : Tending p) : Serving p := h.mono Tends.serves Quits.departs

theorem Serving.of_attends {α : Type} {stored : Kernel → Set ℕ} {p : Prog Kernel α}
    (h : ∀ k, Spec p k (fun _ ↦ Attends (stored k) k) (Quits (stored k) k)) : Serving p :=
  ⟨fun k ↦ (h k).mono (fun _ _ ↦ Attends.serves) fun _ ↦ Quits.departs⟩

end Kernel

end GemOS
