import GemOS.Process.Calls
import GemOS.Process.Dispatch

/-!
# System calls and ticks keep the invariant

Whatever a process does short of `fork`, with granted allocations the kernel returns to a state that
satisfies `Inv`. Serving faults and writing user pages carries the address spaces over; the calls that
change a record change nothing the invariant rests on; the tick hands the processor on.
-/

namespace GemOS

open Foundation Memory Kernel

variable {intact : Fin maxProcesses → Prop} {roots : ℕ → Prop} {k k' : Kernel} {i : Fin maxProcesses}
  {call : Option Syscall} {param1 param2 : ℕ}

theorem InUser.quiet (h : InUser intact roots k i) (hquiet : Quiet k k') : InUser intact roots k' i where
  sound := by
    rw [hquiet.mem_eq, hquiet.ctxs_eq, hquiet.current_eq]
    exact h.sound
  mode_eq := hquiet.mode_eq.trans h.mode_eq
  current_eq := hquiet.current_eq.trans h.current_eq
  live := hquiet.ctxs_eq.symm ▸ h.live
  mapped := by
    rw [hquiet.mem_eq, hquiet.ctxs_eq]
    exact h.mapped
  cr3_eq := by
    rw [hquiet.cr3_eq, hquiet.ctxs_eq]
    exact h.cr3_eq
  cs_eq := hquiet.cs_eq.trans h.cs_eq

theorem InUser.carries (h : InUser intact roots k i) {m : Memory} (hcarries : Carries roots k.mem m) :
    InUser intact roots { k with mem := m } i where
  sound := h.sound.carries hcarries
  mode_eq := h.mode_eq
  current_eq := h.current_eq
  live := h.live
  mapped := (hcarries.kernelMapped_iff (h.sound.live_root i h.live)).2 h.mapped
  cr3_eq := h.cr3_eq
  cs_eq := h.cs_eq

/-- The page fault that `do_page_fault` serves maps one page of the current process. -/
theorem InUser.mapsFresh (h : InUser intact roots k i) {cr2 errorCode : ℕ}
    (hdemand : demandPaged k.ctx cr2 errorCode = true)
    (hgranted : (installPageTable k.ctx.pgd cr2 errorCode k.mem).AllocsGranted) :
    ∃ pfn, MapsFresh roots k.mem (installPageTable k.ctx.pgd cr2 errorCode k.mem) k.ctx.pgd cr2 pfn
      (pageTableStyle errorCode).flags (pageTableStyle errorCode).flags := by
  rw [h.ctx_eq] at hdemand hgranted ⊢
  exact installPageTable_spec h.sound.tables (h.sound.live_root i h.live)
    (h.context_ok.userAddr_of_demand hdemand).slot errorCode hgranted

theorem InUser.fault (h : InUser intact roots k i) {cr2 errorCode : ℕ}
    (hdemand : demandPaged k.ctx cr2 errorCode = true)
    (hgranted : (installPageTable k.ctx.pgd cr2 errorCode k.mem).AllocsGranted) :
    InUser intact roots { k with mem := installPageTable k.ctx.pgd cr2 errorCode k.mem } i := by
  obtain ⟨pfn, hmaps⟩ := h.mapsFresh hdemand hgranted
  rw [h.ctx_eq] at hdemand
  exact h.carries (Carries.of_mapsPage hmaps.toMapsPage (userFlags_pageTableStyle errorCode)
    (h.context_ok.userAddr_of_demand hdemand) (h.context_ok.read_only_of_demand hdemand))

theorem InUser.store (h : InUser intact roots k i) {phys : PhysMem} (hwrites : WritesUser k phys) :
    InUser intact roots { k with mem.phys := phys } i := by
  apply h.carries (Carries.of_userData h.sound.tables phys fun frame hframe ↦ ?_)
  apply hwrites
  rintro addr mapping hwalk huser rfl
  exact hframe (h.sound.tables.hwWalk_usable h.root hwalk huser)

/-- The user pages of the page table in use are in plain frames. -/
def PlainPages (k : Kernel) : Prop :=
  ∀ addr mapping, hwWalk k.mem.phys k.cr3 addr = some mapping → mapping.user = true → k.Plain mapping.pfn

theorem InUser.plainPages (h : InUser intact roots k i) : PlainPages k := fun _ _ hwalk huser ↦
  Or.inl (h.sound.tables.hwWalk_usable h.root hwalk huser)

theorem Kernel.Serves.le (h : Serves k k') : k ≤ k' := by
  induction h with
  | refl => exact le_rfl
  | quiet _ hquiet ih => exact ih.trans (le_of_trace_eq (by rw [hquiet.mem_eq]))
  | fault _ cr2 errorCode _ ih => exact ih.trans (le_installPageTable _ cr2 errorCode _)
  | store _ _ ih => exact ih.trans (le_of_trace_eq rfl)

/-- The current process stays current while the kernel serves. -/
theorem Kernel.Serves.inUser (hserves : Serves k k') (h : InUser intact roots k i) (hgranted : k'.mem.AllocsGranted) :
    InUser intact roots k' i := by
  induction hserves with
  | refl => exact h
  | quiet _ hquiet ih => exact (ih (hquiet.mem_eq ▸ hgranted)).quiet hquiet
  | fault _ cr2 errorCode hdemand ih =>
    exact (ih (hgranted.anti (le_installPageTable _ cr2 errorCode _))).fault hdemand hgranted
  | store _ writes ih => exact (ih hgranted).store writes

theorem le_schedule (p : CtxPtr) (k : Kernel) : k ≤ k.schedule p := by
  refine le_of_trace_eq ?_
  unfold Kernel.schedule Kernel.iret
  simp only
  split
  · rfl
  · unfold Kernel.loadCr3
    split <;> rfl

theorem le_doCleanup (k : Kernel) : k ≤ k.doCleanup := by
  change k.mem ≤ osPfnFree .osPt _ (ptCleanup 4 k.ctx.pgd (removeApicMapping k.ctx.pgd
    (osPfnFree .osPt k.ctx.osStackPfn k.mem)))
  exact ((le_osPfnFree _ _ _).trans (le_removeApicMapping _ _)).trans
    ((le_ptCleanup _ _ _).trans (le_osPfnFree _ _ _))

theorem le_retire (k : Kernel) : k ≤ k.retire := le_osPfnFree .osPt k.ctx.osStackPfn k.mem

theorem le_doExit (k : Kernel) : k ≤ k.doExit := by
  unfold Kernel.doExit
  split
  · exact (le_retire k).trans (le_schedule _ _)
  · exact (le_retire k).trans (le_doCleanup _)

theorem le_doGp (k : Kernel) : k ≤ k.doGp :=
  le_trans (show k ≤ { k with cr3 := swapperPgd } from le_of_trace_eq rfl) (le_doExit _)

theorem Kernel.Departs.le (h : Departs k k') : k ≤ k' := by
  cases h with
  | exit before => exact before.le.trans (le_doExit _)
  | protection before => exact before.le.trans (le_doGp _)
  | @stop k₁ _ before _ hquiet =>
    have hmem : k'.mem = k₁.mem := hquiet.mem_eq
    exact before.le.trans (le_of_trace_eq (by rw [hmem]))

theorem Kernel.Departs.inv (hdeparts : Departs k k') (h : InUser intact roots k i) (hgranted : k'.mem.AllocsGranted) :
    Inv intact k' := by
  cases hdeparts with
  | exit before => exact inv_doExit (before.inUser h (hgranted.anti (le_doExit _)))
  | protection before => exact inv_doGp (before.inUser h (hgranted.anti (le_doGp _)))
  | @stop k₁ _ before hstopped hquiet =>
    have hmem : k'.mem = k₁.mem := hquiet.mem_eq
    have hctxs : k'.ctxs = k₁.ctxs := hquiet.ctxs_eq
    have hcurrent : k'.current = k₁.current := hquiet.current_eq
    have hsound := (before.inUser h (hmem ▸ hgranted)).sound
    refine ⟨roots, Or.inr (Or.inr (Or.inr ⟨hstopped, ?_⟩))⟩
    rw [hmem, hctxs, hcurrent]
    exact hsound

/-- Where a program may end: at the current process, or at any state of the invariant. -/
abbrev Keeps (intact : Fin maxProcesses → Prop) (roots : ℕ → Prop) (i : Fin maxProcesses) {α : Type}
    (p : Prog Kernel α) (k : Kernel) : Prop :=
  Spec p k (fun _ k' ↦ k ≤ k' ∧ (k'.mem.AllocsGranted → InUser intact roots k' i)) fun k' ↦
    k ≤ k' ∧ (k'.mem.AllocsGranted → Inv intact k')

theorem Kernel.Serving.keeps {α : Type} {p : Prog Kernel α} (hp : Serving p) (h : InUser intact roots k i) :
    Keeps intact roots i p k :=
  (hp.spec k).mono (fun _ _ hserves ↦ ⟨hserves.le, hserves.inUser h⟩) fun _ hdeparts ↦
    ⟨hdeparts.le, hdeparts.inv h⟩

theorem InUser.inv (h : InUser intact roots k i) : Inv intact k := ⟨roots, Or.inr (Or.inl ⟨i, h⟩)⟩

section Record

variable {f : ExecContext → ExecContext}

/-- The record of the current process changes but for what the scheduler and the processor use. -/
theorem InUser.update (h : InUser intact roots k i) (hstate : ∀ ctx, (f ctx).state = ctx.state)
    (hspace : ∀ ctx, SameSpace ctx (f ctx)) (hok : ContextOk (f (k.ctxs (some i)))) :
    InUser intact roots (k.updateCtx k.current f) i := by
  have hctxs := k.updateCtx_ctxs k.current f
  rw [h.current_eq] at hctxs
  have hsame : ∀ q, ((k.updateCtx (some i) f).ctxs q).state = (k.ctxs q).state ∧
      SameSpace (k.ctxs q) ((k.updateCtx (some i) f).ctxs q) := by
    intro q
    rw [hctxs]
    split
    · exact ⟨hstate _, hspace _⟩
    · exact ⟨rfl, .refl _⟩
  have hlive : ∀ j, Live (k.updateCtx (some i) f).ctxs j ↔ Live k.ctxs j := fun j ↦ by
    rw [Live, Live, (hsame _).1]
  rw [h.current_eq]
  refine ⟨?_, h.mode_eq, h.current_eq, (hlive i).2 h.live, ?_, ?_, h.cs_eq⟩
  · refine h.sound.recontext ?_ (hsame _).2 (fun j hj ↦ ?_) fun j hj hne ↦ ?_
    · rw [hctxs, if_neg h.live.ne_swapper.symm]
      exact h.sound.swapper_ok
    · have hold := (hlive j).1 hj
      refine ⟨hold, (hsame _).2, ?_⟩
      rw [hctxs]
      split
      · rename_i heq
        rw [heq]
        exact hok
      · exact h.sound.context_ok j hold
    · have hj' : some j ≠ some i := fun heq ↦ hne (h.current_eq.trans heq.symm)
      rw [hctxs, if_neg hj']
      exact h.sound.saved_cs j ((hlive j).1 hj) hne
  · rw [(hsame _).2.pgd_eq]
    exact h.mapped
  · rw [(hsame _).2.pgd_eq]
    exact h.cr3_eq

/-- The segments are not touched. -/
theorem InUser.update_of_mms (h : InUser intact roots k i) (hstate : ∀ ctx, (f ctx).state = ctx.state)
    (hspace : ∀ ctx, SameSpace ctx (f ctx)) (hmms : ∀ ctx, (f ctx).mms = ctx.mms) :
    InUser intact roots (k.updateCtx k.current f) i :=
  h.update hstate hspace (h.context_ok.of_mms (hmms _))

end Record

theorem InUser.saveRegs (h : InUser intact roots k i) : InUser intact roots k.saveRegs i :=
  (h.update_of_mms (f := fun ctx ↦ ctx.saveRegs k.regs) (fun _ ↦ rfl) (fun _ ↦ ⟨rfl, rfl, rfl, rfl⟩)
    fun _ ↦ rfl).quiet ⟨rfl, rfl, rfl, rfl, rfl, rfl, rfl, rfl, rfl, rfl⟩

/-- `next_free` moves within a segment that can grow. -/
theorem ContextOk.setNextFree {ctx ctx' : ExecContext} (h : ContextOk ctx) {seg : MmSeg} {nextFree : ℕ}
    (hseg : seg = .rodata ∨ seg = .data)
    (hmms : ctx'.mms = Function.update ctx.mms seg { ctx.mms seg with nextFree := nextFree })
    (hlow : (ctx.mms seg).start ≤ nextFree) (hhigh : nextFree ≤ (ctx.mms seg).stop)
    (haligned : nextFree % pageSize = 0) : ContextOk ctx' := by
  have hstart := h.start_eq seg
  have hstop := h.stop_eq seg
  have hother : ∀ other, other ≠ seg → ctx'.mms other = ctx.mms other := fun other hne ↦ by
    rw [hmms, Function.update_of_ne hne]
  have hself : ctx'.mms seg = { ctx.mms seg with nextFree := nextFree } := by rw [hmms, Function.update_self]
  have hlayout : ∀ mms mms' : MmSeg → MmSegment, ∀ other, (initSegments mms other).start =
    (initSegments mms' other).start ∧
      (initSegments mms other).stop = (initSegments mms' other).stop ∧
      (initSegments mms other).accessFlags = (initSegments mms' other).accessFlags := by
    intro mms mms' other
    cases other <;> exact ⟨rfl, rfl, rfl⟩
  have hsegments : ∀ other, ctx'.mms other =
      { initSegments ctx'.mms other with nextFree := (ctx'.mms other).nextFree } := by
    intro other
    obtain ⟨hs, he, hf⟩ := hlayout ctx'.mms ctx.mms other
    have hold : ctx'.mms other = { ctx.mms other with nextFree := (ctx'.mms other).nextFree } := by
      by_cases heq : other = seg
      · rw [heq, hself]
      · rw [hother other heq]
    refine hold.trans ?_
    simp only [MmSegment.mk.injEq, true_and]
    exact ⟨(h.start_eq other).trans hs.symm, (h.stop_eq other).trans he.symm, (h.flags_eq other).trans hf.symm⟩
  rcases hseg with rfl | rfl
  · have hstart' : (ctx.mms .rodata).start = rodataStart := hstart
    have hstop' : (ctx.mms .rodata).stop = dataStart - 1 := hstop
    refine ⟨hsegments, ?_, ?_, ?_, ?_⟩
    · rw [hother _ (by decide)]
      exact h.code_next
    · rw [hself]
      exact ⟨hstart' ▸ hlow, by simp only [dataStart] at *; omega, haligned⟩
    · rw [hother _ (by decide)]
      exact h.data_next
    · rw [hother _ (by decide)]
      exact h.stack_next
  · have hstart' : (ctx.mms .data).start = dataStart := hstart
    have hstop' : (ctx.mms .data).stop = stackStart - maxStackSize - 1 := hstop
    refine ⟨hsegments, ?_, ?_, ?_, ?_⟩
    · rw [hother _ (by decide)]
      exact h.code_next
    · rw [hother _ (by decide)]
      exact h.rodata_next
    · rw [hself]
      exact ⟨hstart' ▸ hlow, by simp only [stackStart, maxStackSize] at *; omega, haligned⟩
    · rw [hother _ (by decide)]
      exact h.stack_next

/-- What the segments that can grow look like. -/
theorem ContextOk.growing {ctx : ExecContext} (h : ContextOk ctx) {seg : MmSeg}
    (hseg : seg = .rodata ∨ seg = .data) :
    rodataStart ≤ (ctx.mms seg).start ∧ (ctx.mms seg).start ≤ (ctx.mms seg).nextFree ∧
      (ctx.mms seg).nextFree ≤ (ctx.mms seg).stop ∧ (ctx.mms seg).stop < stackStart - maxStackSize ∧
        (ctx.mms seg).nextFree % pageSize = 0 := by
  have hstart := h.start_eq seg
  have hstop := h.stop_eq seg
  rcases hseg with rfl | rfl
  · have hnext := h.rodata_next
    rw [hstart, hstop]
    simp only [initSegments, rodataStart, dataStart, stackStart, maxStackSize] at *
    omega
  · have hnext := h.data_next
    rw [hstart, hstop]
    simp only [initSegments, rodataStart, dataStart, stackStart, maxStackSize] at *
    omega

/-- Pages that not every process needs are unmapped one after the other. -/
theorem carries_unmapPages {m : Memory} (h : Tables roots m) {root : ℕ} (hroot : roots root) (addrs : List ℕ)
    (haddrs : ∀ addr ∈ addrs, UserAddr addr ∧ ∀ anchor, Anchor anchor → anchor / 4096 ≠ addr / 4096) :
    Carries roots m (unmapPages root addrs m) := by
  induction addrs generalizing m with
  | nil => exact Carries.refl h
  | cons addr addrs ih =>
    obtain ⟨huser, hother⟩ := haddrs addr (List.mem_cons_self ..)
    have hrest := fun other (hmem : other ∈ addrs) ↦ haddrs other (List.mem_cons_of_mem _ hmem)
    have hfirst : Carries roots m (doUnmapUser root addr m).2 := by
      rcases doUnmapUser_spec h hroot huser.slot with ⟨-, hsame⟩ | ⟨-, pfn, hunmaps⟩
      · rw [hsame]
        exact Carries.refl h
      · exact Carries.of_unmaps hunmaps huser hother
    exact hfirst.trans (ih hfirst.tables hrest)

theorem le_unmapPages (root : ℕ) (addrs : List ℕ) (m : Memory) : m ≤ unmapPages root addrs m :=
  le_foldl (fun _ addr ↦ le_doUnmapUser root addr _) addrs m

theorem mem_pagesFrom {start count addr : ℕ} (h : addr ∈ pagesFrom start 0 count) :
    ∃ n < count, addr = start + n * pageSize := by
  simp only [pagesFrom, List.mem_map, List.mem_range'_1] at h
  obtain ⟨n, hn, rfl⟩ := h
  exact ⟨n, by omega, rfl⟩

/-- The bounds of a shrink: the new `next_free` and the pages given up lie in the segment. -/
theorem ContextOk.shrink_bounds {ctx : ExecContext} (h : ContextOk ctx) {seg : MmSeg}
    (hseg : seg = .rodata ∨ seg = .data) {size shrunk : ℕ} (hsize : size ≤ maxExpandPages)
    (hshrunk : shrunk = ((ctx.mms seg).nextFree + 2 ^ 64 - size <<< pageShift) % 2 ^ 64)
    (hfit : (ctx.mms seg).start ≤ shrunk) :
    shrunk + size * pageSize = (ctx.mms seg).nextFree ∧ shrunk % pageSize = 0 := by
  obtain ⟨hlow, hstart, hstop, hhigh, haligned⟩ := h.growing hseg
  rw [Nat.shiftLeft_eq] at hshrunk
  simp only [pageShift, pageSize, maxExpandPages, rodataStart, stackStart, maxStackSize] at *
  omega

theorem ContextOk.shrink_pages {ctx : ExecContext} (h : ContextOk ctx) {seg : MmSeg}
    (hseg : seg = .rodata ∨ seg = .data) {size shrunk : ℕ} (hlow : (ctx.mms seg).start ≤ shrunk)
    (hfit : shrunk + size * pageSize = (ctx.mms seg).nextFree) (addr : ℕ)
    (haddr : addr ∈ pagesFrom shrunk 0 size) :
    UserAddr addr ∧ ∀ anchor, Anchor anchor → anchor / 4096 ≠ addr / 4096 := by
  obtain ⟨hrodata, -, hstop, hhigh, -⟩ := h.growing hseg
  obtain ⟨n, hn, rfl⟩ := mem_pagesFrom haddr
  simp only [pageSize, rodataStart, stackStart, maxStackSize] at *
  refine ⟨⟨by omega, by omega⟩, ?_⟩
  rintro anchor (rfl | rfl)
  · simp only [codeStart]
    omega
  · simp only [stackTopPage, stackStart, pageSize]
    omega

/-- Nothing wraps around when a segment grows. -/
theorem ContextOk.grown {ctx : ExecContext} (h : ContextOk ctx) {size flags : ℕ} {seg : MmSeg}
    (hgrows : Grows ctx size flags seg) :
    ((ctx.mms seg).nextFree + size <<< pageShift) % 2 ^ 64 = (ctx.mms seg).nextFree + size * pageSize ∧
      (ctx.mms seg).nextFree + size * pageSize ≤ (ctx.mms seg).stop ∧
        ((ctx.mms seg).nextFree + size * pageSize) % pageSize = 0 := by
  obtain ⟨-, hstart, hstop, hhigh, haligned⟩ := h.growing hgrows.growing
  have hsize := hgrows.size_le
  have hfits := hgrows.fits
  rw [Nat.shiftLeft_eq] at hfits ⊢
  simp only [pageShift, pageSize, maxExpandPages, stackStart, maxStackSize] at *
  omega

theorem ContextOk.shrunk {ctx : ExecContext} (h : ContextOk ctx) {size flags : ℕ} {seg : MmSeg}
    (hshrinks : Shrinks ctx size flags seg) {nextFree : ℕ}
    (heq : nextFree = ((ctx.mms seg).nextFree + 2 ^ 64 - size <<< pageShift) % 2 ^ 64) :
    nextFree + size * pageSize = (ctx.mms seg).nextFree ∧ (ctx.mms seg).start ≤ nextFree ∧ nextFree % pageSize = 0 := by
  have hlow : (ctx.mms seg).start ≤ nextFree := heq ▸ hshrinks.fits
  obtain ⟨hnext, haligned⟩ := h.shrink_bounds hshrinks.growing hshrinks.size_le heq hlow
  exact ⟨hnext, hlow, haligned⟩

theorem ContextOk.grow {ctx ctx' : ExecContext} (h : ContextOk ctx) {size flags : ℕ} {seg : MmSeg}
    (hgrows : Grows ctx size flags seg)
    (hmms : ctx'.mms = setNext ctx.mms seg (((ctx.mms seg).nextFree + size <<< pageShift) % 2 ^ 64)) :
    ContextOk ctx' := by
  obtain ⟨heq, hfits, haligned⟩ := h.grown hgrows
  rw [heq] at hmms
  have hstart := (h.growing hgrows.growing).2.1
  exact h.setNextFree hgrows.growing hmms (by omega) hfits haligned

theorem ContextOk.shrink {ctx ctx' : ExecContext} (h : ContextOk ctx) {size flags nextFree : ℕ} {seg : MmSeg}
    (hshrinks : Shrinks ctx size flags seg)
    (heq : nextFree = ((ctx.mms seg).nextFree + 2 ^ 64 - size <<< pageShift) % 2 ^ 64)
    (hmms : ctx'.mms = setNext ctx.mms seg nextFree) : ContextOk ctx' := by
  obtain ⟨hnext, hlow, haligned⟩ := h.shrunk hshrinks heq
  have hstop := (h.growing hshrinks.growing).2.2.1
  exact h.setNextFree hshrinks.growing hmms hlow (by omega) haligned

theorem Kernel.Answers.le (h : Answers param1 param2 k call k') : k ≤ k' := by
  cases h with
  | tend tends => exact tends.serves.le
  | shrink => exact le_unmapPages _ _ _
  | expand | signal | alarm => exact le_of_trace_eq rfl

/-- The current process stays current when a call answers. -/
theorem Kernel.Answers.inUser (hanswers : Answers param1 param2 k call k') (h : InUser intact roots k i)
    (hgranted : k'.mem.AllocsGranted) : InUser intact roots k' i := by
  have hok := h.context_ok
  cases hanswers with
  | tend tends => exact tends.serves.inUser h hgranted
  | expand grows =>
    rw [h.ctx_eq] at grows ⊢
    exact h.update (fun _ ↦ rfl) (fun _ ↦ ⟨rfl, rfl, rfl, rfl⟩) (hok.grow grows rfl)
  | @shrink seg shrunk shrinks shrunk_eq =>
    rw [h.ctx_eq] at shrinks shrunk_eq
    obtain ⟨hnext, hlow, -⟩ := hok.shrunk shrinks shrunk_eq
    have hset : InUser intact roots (setNextFree seg shrunk k) i :=
      h.update (fun _ ↦ rfl) (fun _ ↦ ⟨rfl, rfl, rfl, rfl⟩) (hok.shrink shrinks shrunk_eq rfl)
    refine hset.carries ?_
    rw [h.ctx_eq]
    exact carries_unmapPages (m := k.mem) h.sound.tables (h.sound.live_root i h.live) _
      (hok.shrink_pages shrinks.growing hlow hnext)
  | signal | alarm => exact h.update_of_mms (fun _ ↦ rfl) (fun _ ↦ ⟨rfl, rfl, rfl, rfl⟩) fun _ ↦ rfl

theorem keeps_dispatch (h : InUser intact roots k i) (peek : ℕ → ℕ) (param1 param2 : ℕ) (hsimple : Simple call) :
    Keeps intact roots i (dispatch peek param1 param2 call) k :=
  (dispatch_answers peek param1 param2 hsimple).mono (fun _ _ hanswers ↦ ⟨hanswers.le, hanswers.inUser h⟩)
    fun _ hquits ↦ ⟨hquits.departs.le, hquits.departs.inv h⟩

section Yield

variable {f : ExecContext → ExecContext} (hspace : ∀ ctx, SameSpace ctx (f ctx)) (hmms : ∀ ctx, (f ctx).mms = ctx.mms)

include hspace hmms

/-- The record of the current context is rewritten; it comes no more to life than it was. -/
theorem Sound.rewriteCurrent (h : Sound intact roots k.mem k.ctxs k.current)
    (hlive : ∀ i, k.current = some i → i.val ≠ 0 → Live k.ctxs i)
    (hswapper : k.current = swapper → SwapperOk (f (k.ctxs swapper))) :
    Sound intact roots k.mem (k.updateCtx k.current f).ctxs k.current := by
  have hctxs := k.updateCtx_ctxs k.current f
  have hsame : ∀ q, SameSpace (k.ctxs q) ((k.updateCtx k.current f).ctxs q) := by
    intro q
    rw [hctxs]
    split
    · exact hspace _
    · exact .refl _
  have hold : ∀ j, Live (k.updateCtx k.current f).ctxs j → Live k.ctxs j := by
    rintro j ⟨hj, hnew⟩
    by_cases heq : some j = k.current
    · exact hlive j heq.symm hj
    · rw [hctxs, if_neg heq] at hnew
      exact ⟨hj, hnew⟩
  refine h.recontext ?_ (hsame _) (fun j hj ↦ ⟨hold j hj, hsame _, ?_⟩) fun j hj hne ↦ ?_
  · rw [hctxs]
    split
    · rename_i heq
      exact hswapper heq.symm
    · exact h.swapper_ok
  · rw [hctxs]
    split
    · exact (h.context_ok j (hold j hj)).of_mms (hmms _)
    · exact h.context_ok j (hold j hj)
  · rw [hctxs, if_neg hne.symm]
    exact h.saved_cs j (hold j hj) hne

/-- A process whose registers are saved may give the processor up. -/
theorem InUser.yield (h : InUser intact roots k i) (hcs : (f (k.ctxs (some i))).regs.entryCs = userCs) :
    Yielded intact roots (k.updateCtx k.current f) ∧
      ((k.updateCtx k.current f).ctxs k.current).pid < maxProcesses := by
  have hlive : ∀ j, k.current = some j → j.val ≠ 0 → Live k.ctxs j := by
    intro j hj _
    obtain rfl := Option.some.inj (h.current_eq.symm.trans hj)
    exact h.live
  have hsound := h.sound.rewriteCurrent hspace hmms hlive
    fun heq ↦ absurd (h.current_eq.symm.trans heq) h.live.ne_swapper
  refine ⟨⟨hsound, ?_, fun j hj ↦ ?_, fun _ _ _ ↦ ?_⟩, ?_⟩
  · change k.mode ≠ .dead
    rw [h.mode_eq]
    decide
  · by_cases heq : some j = k.current
    · rw [updateCtx_ctxs, if_pos heq, heq, h.current_eq]
      exact hcs
    · exact hsound.saved_cs j hj (Ne.symm heq)
  · change KernelMapped k.mem k.cr3
    rw [h.cr3_eq]
    exact h.mapped
  · rw [updateCtx_self, (hspace _).pid_eq, h.current_eq, h.sound.pid_eq i h.live]
    exact i.isLt

/-- So may the swapper. -/
theorem InSwapper.yield (h : InSwapper intact roots k) (hcs : (f (k.ctxs swapper)).regs.entryCs = kernelCs)
    (hinUse : (f (k.ctxs swapper)).state ≠ .unused)
    (halarm : (f (k.ctxs swapper)).ticksToAlarm = (k.ctxs swapper).ticksToAlarm) :
    Yielded intact roots (k.updateCtx k.current f) ∧
      ((k.updateCtx k.current f).ctxs k.current).pid < maxProcesses := by
  have hlive : ∀ j, k.current = some j → j.val ≠ 0 → Live k.ctxs j := by
    intro j hj hne
    exact absurd (congrArg Fin.val (Option.some.inj (hj.symm.trans h.current_eq))) hne
  have hswapper := h.sound.swapper_ok
  have hsound := h.sound.rewriteCurrent hspace hmms hlive fun _ ↦
    ⟨(hspace _).pid_eq.trans hswapper.pid_eq, (hspace _).pgd_eq.trans hswapper.pgd_eq, hinUse, hcs,
      halarm.trans hswapper.no_alarm⟩
  refine ⟨⟨hsound, ?_, fun j hj ↦ ?_, fun j hj hsame ↦ ?_⟩, ?_⟩
  · change k.mode ≠ .dead
    rw [h.mode_eq]
    decide
  · exact hsound.saved_cs j hj fun heq ↦
      hj.1 (congrArg Fin.val (Option.some.inj (heq.symm.trans h.current_eq)))
  · rw [show (k.updateCtx k.current f).cr3 = swapperPgd from h.cr3_eq] at hsame
    exact absurd hsame (hsound.pgd_ne_swapper hj)
  · rw [updateCtx_self, (hspace _).pid_eq, h.current_eq, hswapper.pid_eq]
    decide

end Yield

/-- `do_sleep`, after the registers were saved. -/
theorem inv_doSleep (h : InUser intact roots k i) (hsaved : (k.ctxs (some i)).regs.entryCs = userCs) (ticks : ℕ) :
    Inv intact (k.doSleep ticks) := by
  obtain ⟨hyield, hself⟩ := h.yield (f := fun ctx ↦ ctx.sleepFor ticks) (fun _ ↦ ⟨rfl, rfl, rfl, rfl⟩) (fun _ ↦ rfl)
    hsaved
  exact inv_schedule hyield hself

theorem countSleep_space (ctx : ExecContext) : SameSpace ctx ctx.countSleep := by
  unfold ExecContext.countSleep
  split_ifs <;> exact ⟨rfl, rfl, rfl, rfl⟩

theorem Sound.accountSleep (h : Sound intact roots k.mem k.ctxs k.current) :
    Sound intact roots k.mem k.accountSleep.ctxs k.current := by
  have hcount := fun j ↦ countSleep_eq (k.ctxs (some j))
  refine h.recontext ?_ (countSleep_space _) (fun j hj ↦ ?_) fun j hj hne ↦ ?_
  · obtain ⟨hpgd, hpid, -, -, hregs, halarm, -⟩ := countSleep_eq (k.ctxs swapper)
    have hstate : ((k.ctxs swapper).countSleep).state ≠ .unused := by
      rcases (countSleep_eq (k.ctxs swapper)).2.2.2.2.2.2 with hsame | ⟨-, hready⟩
      · rw [hsame]
        exact h.swapper_ok.in_use
      · rw [hready]
        decide
    exact ⟨hpid.trans h.swapper_ok.pid_eq, hpgd.trans h.swapper_ok.pgd_eq, hstate,
      (congrArg UserRegs.entryCs hregs).trans h.swapper_ok.cs_eq, halarm.trans h.swapper_ok.no_alarm⟩
  · have hold := (accountSleep_live k j).1 hj
    exact ⟨hold, countSleep_space _, (h.context_ok j hold).of_mms (hcount j).2.2.2.1⟩
  · exact (congrArg UserRegs.entryCs (hcount j).2.2.2.2.1).trans
      (h.saved_cs j ((accountSleep_live k j).1 hj) hne)

/-- The record of the current context is marked ready. -/
theorem InUser.markReady (h : InUser intact roots k i) : InUser intact roots (k.setState k.current .ready) i := by
  have hlive : ∀ j, k.current = some j → j.val ≠ 0 → Live k.ctxs j := by
    intro j hj _
    obtain rfl := Option.some.inj (h.current_eq.symm.trans hj)
    exact h.live
  have hsound := h.sound.rewriteCurrent (f := fun ctx ↦ ctx.setState .ready) (fun _ ↦ ⟨rfl, rfl, rfl, rfl⟩)
    (fun _ ↦ rfl) hlive fun heq ↦ absurd (h.current_eq.symm.trans heq) h.live.ne_swapper
  have hself : (k.setState k.current .ready).ctxs (some i) = (k.ctxs (some i)).setState .ready := by
    rw [setState_ctxs, if_pos h.current_eq.symm]
  refine ⟨hsound, h.mode_eq, h.current_eq, ⟨h.live.1, by rw [hself]; simp [ExecContext.setState]⟩, ?_, ?_, h.cs_eq⟩
  · rw [hself]
    exact h.mapped
  · rw [hself]
    exact h.cr3_eq

theorem InSwapper.markReady (h : InSwapper intact roots k) :
    InSwapper intact roots (k.setState k.current .ready) := by
  have hlive : ∀ j, k.current = some j → j.val ≠ 0 → Live k.ctxs j := by
    intro j hj hne
    exact absurd (congrArg Fin.val (Option.some.inj (hj.symm.trans h.current_eq))) hne
  have hswapper := h.sound.swapper_ok
  have hsound := h.sound.rewriteCurrent (f := fun ctx ↦ ctx.setState .ready) (fun _ ↦ ⟨rfl, rfl, rfl, rfl⟩)
    (fun _ ↦ rfl) hlive fun _ ↦
      ⟨hswapper.pid_eq, hswapper.pgd_eq, by simp [ExecContext.setState], hswapper.cs_eq, hswapper.no_alarm⟩
  exact ⟨hsound, h.mode_eq, h.current_eq, h.cr3_eq, h.cs_eq⟩

/-- The switch of the tick is a dispatch, when the page table in use is that of the current context. -/
theorem switchTo_eq {next : CtxPtr} (hcr3 : k.cr3 = k.ctx.pgd) (hne : next ≠ k.current) :
    k.switchTo next =
      (({ k with stats.contextSwitches := k.stats.contextSwitches + 1 }.updateCtx k.current
        fun ctx ↦ ctx.saveRegs k.regs).makeCurrent next).enter := by
  generalize hk₁ : { k with stats.contextSwitches := k.stats.contextSwitches + 1 }.updateCtx k.current
    (fun ctx ↦ ctx.saveRegs k.regs) = k₁
  have hnext : k₁.ctxs next = k.ctxs next := by
    rw [← hk₁]
    exact updateCtx_of_ne _ _ hne
  have hcr3₁ : k₁.cr3 = k.cr3 := by
    rw [← hk₁]
    rfl
  have hctx : (k₁.makeCurrent next).ctx = (k.ctxs next).setState .running := by
    rw [← hnext]
    exact makeCurrent_self k₁ next
  unfold Kernel.switchTo Kernel.enter
  simp only [hk₁]
  rw [hctx, ← hcr3]
  change _ = Kernel.iret (if (k.ctxs next).pgd = k₁.cr3 then _ else _) (k.ctxs next).regs
  rw [hcr3₁]
  by_cases hsame : k.cr3 = (k.ctxs next).pgd
  · rw [if_pos hsame, if_pos hsame.symm]
  · rw [if_neg hsame, if_neg fun heq ↦ hsame heq.symm]
    rw [loadCr3_makeCurrent]
    rfl

/-- The processor goes to another context, or back to the current one. -/
theorem inv_reschedule_of {k₁ : Kernel} (hcr3 : k₁.cr3 = k₁.ctx.pgd)
    (hyield : Yielded intact roots (k₁.updateCtx k₁.current fun ctx ↦ ctx.saveRegs k₁.regs) ∧
      ((k₁.updateCtx k₁.current fun ctx ↦ ctx.saveRegs k₁.regs).ctxs k₁.current).pid < maxProcesses)
    (hstay : Inv intact k₁) :
    Inv intact (if pickNextContext k₁.ctxs k₁.current = k₁.current then k₁
      else k₁.switchTo (pickNextContext k₁.ctxs k₁.current)) := by
  obtain ⟨⟨hsound, hmode, hsaved, hmapped⟩, hpid⟩ := hyield
  rw [updateCtx_self] at hpid
  have hpick := pickNextContext_cases k₁.ctxs (p := k₁.current) hpid
  generalize pickNextContext k₁.ctxs k₁.current = next at *
  split
  · exact hstay
  · rename_i hne
    rw [switchTo_eq hcr3 hne]
    have hcounted : Yielded intact roots
        ({ k₁ with stats.contextSwitches := k₁.stats.contextSwitches + 1 }.updateCtx k₁.current
          fun ctx ↦ ctx.saveRegs k₁.regs) := ⟨hsound, hmode, hsaved, hmapped⟩
    refine inv_makeCurrent hcounted (hpick.imp id ?_)
    rintro ⟨j, hj, rfl, hready⟩
    refine ⟨j, hj, rfl, ?_⟩
    rw [updateCtx_of_ne _ _ hne]
    exact hready

theorem InUser.reschedule (h : InUser intact roots k i) : Inv intact k.reschedule := by
  have hready := h.markReady
  have hquiet : Quiet (k.setState k.current .ready)
      ({ k with stats.ticks := k.stats.ticks + 1 }.setState k.current .ready) :=
        ⟨rfl, rfl, rfl, rfl, rfl, rfl, rfl, rfl, rfl, rfl⟩
  have h₁ := hready.quiet hquiet
  exact inv_reschedule_of (h₁.cr3_eq.trans (congrArg ExecContext.pgd h₁.ctx_eq.symm))
    (h₁.yield (fun _ ↦ ⟨rfl, rfl, rfl, rfl⟩) (fun _ ↦ rfl) h₁.cs_eq) h₁.inv

theorem InSwapper.reschedule (h : InSwapper intact roots k) : Inv intact k.reschedule := by
  have hready := h.markReady
  have h₁ : InSwapper intact roots ({ k with stats.ticks := k.stats.ticks + 1 }.setState k.current .ready) :=
    ⟨hready.sound, h.mode_eq, h.current_eq, h.cr3_eq, h.cs_eq⟩
  have hctx : ({ k with stats.ticks := k.stats.ticks + 1 }.setState k.current .ready).ctx =
      ({ k with stats.ticks := k.stats.ticks + 1 }.setState k.current .ready).ctxs swapper := by
    rw [Kernel.ctx, h₁.current_eq]
  have hyield := h₁.yield (f := fun ctx ↦ ctx.saveRegs k.regs) (fun _ ↦ ⟨rfl, rfl, rfl, rfl⟩) (fun _ ↦ rfl)
    h₁.cs_eq h₁.sound.swapper_ok.in_use rfl
  refine inv_reschedule_of ?_ hyield ⟨roots, Or.inr (Or.inr (Or.inl h₁))⟩
  rw [hctx, h₁.cr3_eq, h₁.sound.swapper_ok.pgd_eq]

end GemOS
