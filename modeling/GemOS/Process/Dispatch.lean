import GemOS.Process.Sound

/-!
# Giving the processor away

The invariant of the whole kernel, `Inv`, says in each mode who is current and on which page table. The
ways to give the processor away keep it: `schedule`, the switch of the timer tick, `do_exit`, and
`do_cleanup`, which takes the last process down and leaves no page table.
-/

namespace GemOS

open Foundation Memory

variable {intact : Fin maxProcesses → Prop} {roots : ℕ → Prop} {k : Kernel} {i : Fin maxProcesses}

open Kernel

structure InShell (intact : Fin maxProcesses → Prop) (roots : ℕ → Prop) (k : Kernel) : Prop where
  sound : Sound intact roots k.mem k.ctxs k.current
  mode_eq : k.mode = .shell
  none_live : ∀ i, ¬ Live k.ctxs i

structure InUser (intact : Fin maxProcesses → Prop) (roots : ℕ → Prop) (k : Kernel) (i : Fin maxProcesses) : Prop where
  sound : Sound intact roots k.mem k.ctxs k.current
  mode_eq : k.mode = .user
  current_eq : k.current = some i
  live : Live k.ctxs i
  mapped : KernelMapped k.mem (k.ctxs (some i)).pgd
  cr3_eq : k.cr3 = (k.ctxs (some i)).pgd
  cs_eq : k.regs.entryCs = userCs

structure InSwapper (intact : Fin maxProcesses → Prop) (roots : ℕ → Prop) (k : Kernel) : Prop where
  sound : Sound intact roots k.mem k.ctxs k.current
  mode_eq : k.mode = .swapper
  current_eq : k.current = swapper
  cr3_eq : k.cr3 = swapperPgd
  cs_eq : k.regs.entryCs = kernelCs

/-- The invariant of the kernel between two events. -/
def Inv (intact : Fin maxProcesses → Prop) (k : Kernel) : Prop :=
  ∃ roots, InShell intact roots k ∨ (∃ i, InUser intact roots k i) ∨ InSwapper intact roots k ∨
    (Stopped k.mode ∧ Sound intact roots k.mem k.ctxs k.current)

theorem InUser.ctx_eq (h : InUser intact roots k i) : k.ctx = k.ctxs (some i) := by rw [Kernel.ctx, h.current_eq]

theorem InUser.root (h : InUser intact roots k i) : roots k.cr3 := h.cr3_eq ▸ h.sound.live_root i h.live

theorem InUser.context_ok (h : InUser intact roots k i) : ContextOk (k.ctxs (some i)) := h.sound.context_ok i h.live

theorem InUser.hasStack (h : InUser intact roots k i) : HasStack k.mem k.ctxs i := Or.inr ⟨h.live, h.mapped⟩

theorem InUser.stack_ok (h : InUser intact roots k i) : StackOk roots k.mem (k.ctxs (some i)).osStackPfn :=
  h.sound.stack_ok i h.hasStack

/-- Without the kernel window nothing of the kernel is mapped. -/
theorem Tables.kernelText_unmapped {m : Memory} {root : ℕ} (h : Tables roots m) (hroot : roots root)
    (hclear : m.phys.entry root [0, 0] 0 = 0) : hwWalk m.phys root kernelText = none := by
  rw [h.hwWalk_eq hroot]
  refine hwTranslate_absent (Or.inr (Or.inr ?_))
  rw [show pgdIndex kernelText = 0 from rfl, show pudIndex kernelText = 0 from rfl,
    show pmdIndex kernelText = 0 from rfl, hclear]
  rfl

theorem Sound.pgd_ne_swapper (h : Sound intact roots k.mem k.ctxs k.current) (hi : Live k.ctxs i) :
    (k.ctxs (some i)).pgd ≠ swapperPgd := by
  intro heq
  have husable := h.tables.table_usable _ (TableForest.Node.of_root (h.live_root i hi))
  rw [heq] at husable
  exact absurd husable.contains.1 (by decide)

/-- The end of a dispatch: the current context gets its page table and its registers. -/
def Kernel.enter (k : Kernel) : Kernel :=
  (if k.ctx.pgd = k.cr3 then k else k.loadCr3 k.ctx.pgd).iret k.ctx.regs

theorem inv_enter_swapper (h : Sound intact roots k.mem k.ctxs k.current) (hcurrent : k.current = swapper)
    (hmode : k.mode ≠ .dead) : Inv intact k.enter := by
  have hpgd : k.ctx.pgd = swapperPgd := by
    rw [Kernel.ctx, hcurrent]
    exact h.swapper_ok.pgd_eq
  have hcs : k.ctx.regs.entryCs = kernelCs := by
    rw [Kernel.ctx, hcurrent]
    exact h.swapper_ok.cs_eq
  have hnot : k.ctx.regs.entryCs ≠ userCs := by
    rw [hcs]
    decide
  have hload : (if k.ctx.pgd = k.cr3 then k else k.loadCr3 k.ctx.pgd) = { k with cr3 := swapperPgd } := by
    rw [hpgd]
    split
    · rename_i heq
      rw [heq]
    · exact if_pos (Or.inl rfl)
  refine ⟨roots, Or.inr (Or.inr (Or.inl ?_))⟩
  unfold Kernel.enter
  rw [hload]
  exact ⟨h, by simp [Kernel.iret, hmode, hnot], hcurrent, rfl, hcs⟩

theorem inv_enter_user (h : Sound intact roots k.mem k.ctxs k.current) (hcurrent : k.current = some i)
    (hlive : Live k.ctxs i) (hmode : k.mode ≠ .dead) (hcs : (k.ctxs (some i)).regs.entryCs = userCs)
    (hcr3 : (k.ctxs (some i)).pgd = k.cr3 → KernelMapped k.mem (k.ctxs (some i)).pgd) : Inv intact k.enter := by
  have hctx : k.ctx = k.ctxs (some i) := by rw [Kernel.ctx, hcurrent]
  have huser : KernelMapped k.mem (k.ctxs (some i)).pgd →
      Inv intact (Kernel.iret { k with cr3 := (k.ctxs (some i)).pgd } (k.ctxs (some i)).regs) := fun hmapped ↦
    ⟨roots, Or.inr (Or.inl ⟨i, h, by simp [Kernel.iret, hmode, hcs], hcurrent, hlive, hmapped, rfl, hcs⟩)⟩
  unfold Kernel.enter
  rw [hctx]
  by_cases hsame : (k.ctxs (some i)).pgd = k.cr3
  · rw [if_pos hsame]
    have := huser (hcr3 hsame)
    rwa [hsame] at this
  · rw [if_neg hsame, Kernel.loadCr3]
    split
    · rename_i hload
      rcases hload with hswapper | hsome
      · exact absurd hswapper (h.pgd_ne_swapper hlive)
      · refine huser ((h.root_case i hlive).resolve_right fun hclear ↦ ?_)
        rw [h.tables.kernelText_unmapped (h.live_root i hlive) hclear] at hsome
        exact Bool.noConfusion hsome
    · exact ⟨roots, Or.inr (Or.inr (Or.inr ⟨trivial, h⟩))⟩

theorem ContextOk.of_mms {ctx ctx' : ExecContext} (h : ContextOk ctx) (hmms : ctx'.mms = ctx.mms) :
    ContextOk ctx' where
  segments := hmms.symm ▸ h.segments
  code_next := hmms.symm ▸ h.code_next
  rodata_next := hmms.symm ▸ h.rodata_next
  data_next := hmms.symm ▸ h.data_next
  stack_next := hmms.symm ▸ h.stack_next

/-- A ready process, or the swapper, becomes current. -/
theorem Sound.makeCurrent (h : Sound intact roots k.mem k.ctxs k.current) {p : CtxPtr}
    (hsaved : ∀ j, Live k.ctxs j → (k.ctxs (some j)).regs.entryCs = userCs)
    (hp : p = swapper ∨ ∃ i : Fin maxProcesses, i.val ≠ 0 ∧ p = some i ∧ (k.ctxs (some i)).state = .ready) :
    Sound intact roots (k.makeCurrent p).mem (k.makeCurrent p).ctxs (k.makeCurrent p).current := by
  have hctxs := makeCurrent_ctxs k p
  have hspace : ∀ q, SameSpace (k.ctxs q) ((k.makeCurrent p).ctxs q) := by
    intro q
    rw [hctxs]
    split
    · exact ⟨rfl, rfl, rfl, rfl⟩
    · exact .refl _
  have hlive : ∀ j, Live (k.makeCurrent p).ctxs j → Live k.ctxs j := by
    rintro j ⟨hj, hstate⟩
    refine ⟨hj, ?_⟩
    rw [hctxs] at hstate
    split at hstate
    · rename_i heq
      rcases hp with rfl | ⟨i, -, rfl, hready⟩
      · exact absurd (congrArg Fin.val (Option.some.inj heq)) hj
      · rw [heq, hready]
        decide
    · exact hstate
  refine h.recontext ?_ (hspace swapper) (fun j hj ↦ ⟨hlive j hj, hspace _, ?_⟩) fun j hj hne ↦ ?_
  · rw [hctxs]
    split
    · exact ⟨h.swapper_ok.pid_eq, h.swapper_ok.pgd_eq, by simp [ExecContext.setState], h.swapper_ok.cs_eq,
        h.swapper_ok.no_alarm⟩
    · exact h.swapper_ok
  · rw [hctxs]
    split
    · exact (h.context_ok j (hlive j hj)).of_mms rfl
    · exact h.context_ok j (hlive j hj)
  · have hother : some j ≠ p := fun heq ↦ hne heq.symm
    rw [hctxs, if_neg hother]
    exact hsaved j (hlive j hj)

/-- The current context gave the processor up. -/
structure Yielded (intact : Fin maxProcesses → Prop) (roots : ℕ → Prop) (k : Kernel) : Prop where
  sound : Sound intact roots k.mem k.ctxs k.current
  mode_ne : k.mode ≠ .dead
  saved_cs : ∀ j, Live k.ctxs j → (k.ctxs (some j)).regs.entryCs = userCs
  mapped : ∀ j, Live k.ctxs j → (k.ctxs (some j)).pgd = k.cr3 → KernelMapped k.mem k.cr3

/-- A context is made current and gets the processor. -/
theorem inv_makeCurrent (h : Yielded intact roots k) {p : CtxPtr}
    (hp : p = swapper ∨ ∃ i : Fin maxProcesses, i.val ≠ 0 ∧ p = some i ∧ (k.ctxs (some i)).state = .ready) :
    Inv intact (k.makeCurrent p).enter := by
  have hsound := h.sound.makeCurrent h.saved_cs hp
  rcases hp with rfl | ⟨i, hi, rfl, hready⟩
  · exact inv_enter_swapper hsound rfl h.mode_ne
  · have hself := makeCurrent_self k (some i)
    have hold : Live k.ctxs i := ⟨hi, by rw [hready]; decide⟩
    refine inv_enter_user hsound rfl ⟨hi, by rw [hself]; simp [ExecContext.setState]⟩ h.mode_ne ?_
      fun hsame ↦ ?_
    · rw [hself]
      exact h.saved_cs i hold
    · rw [hself] at hsame ⊢
      have := h.mapped i hold hsame
      rwa [← show (k.ctxs (some i)).pgd = k.cr3 from hsame] at this

/-- `schedule` after the current context gave up the processor. -/
theorem inv_schedule (h : Yielded intact roots k) {p : CtxPtr} (hself : (k.ctxs p).pid < maxProcesses) :
    Inv intact (k.schedule (pickNextContext k.ctxs p)) := by
  have hpick := pickNextContext_cases k.ctxs hself
  generalize pickNextContext k.ctxs p = next at *
  have heq : k.schedule next = (k.makeCurrent next).enter := by
    have hregs : (k.ctxs next).regs = (k.makeCurrent next).ctx.regs := by
      change _ = ((k.makeCurrent next).ctxs next).regs
      rw [makeCurrent_self]
      rfl
    unfold Kernel.schedule
    simp only [hregs]
    rfl
  rw [heq]
  exact inv_makeCurrent h hpick

/-- The record of the current process is given up; the others stay. -/
theorem InUser.retire_ctxs (h : InUser intact roots k i) (j : Fin maxProcesses) :
    (j ≠ i → k.retire.ctxs (some j) = k.ctxs (some j)) ∧ (Live k.retire.ctxs j ↔ j ≠ i ∧ Live k.ctxs j) := by
  have hctxs : ∀ q, k.retire.ctxs q = if q = k.current then (k.ctxs q).setState .unused else k.ctxs q :=
    setState_ctxs _ k.current .unused
  rw [h.current_eq] at hctxs
  by_cases hj : j = i
  · subst hj
    refine ⟨fun hne ↦ absurd rfl hne, fun hlive ↦ absurd ?_ hlive.2, fun hlive ↦ absurd rfl hlive.1⟩
    rw [hctxs, if_pos rfl]
    rfl
  · have hkept : k.retire.ctxs (some j) = k.ctxs (some j) := by
      rw [hctxs, if_neg fun hsome ↦ hj (Option.some.inj hsome)]
    refine ⟨fun _ ↦ hkept, fun hlive ↦ ⟨hj, hlive.1, hkept ▸ hlive.2⟩, fun hlive ↦ ⟨hlive.2.1, ?_⟩⟩
    rw [hkept]
    exact hlive.2.2

theorem InUser.retire_swapper (h : InUser intact roots k i) : k.retire.ctxs swapper = k.ctxs swapper :=
  (setState_ctxs _ k.current .unused swapper).trans (if_neg (by
    rw [h.current_eq]
    exact h.live.ne_swapper.symm))

theorem InUser.retire_mem (h : InUser intact roots k i) :
    k.retire.mem = osPfnFree .osPt (k.ctxs (some i)).osStackPfn k.mem := by
  rw [← h.ctx_eq]
  rfl

theorem InUser.retire_sound (h : InUser intact roots k i) :
    Sound intact roots k.retire.mem k.retire.ctxs k.retire.current := by
  have hstack := h.stack_ok
  have hsound : Sound intact roots k.mem k.retire.ctxs k.current := by
    refine h.sound.recontext ?_ ?_ (fun j hj ↦ ?_) fun j hj hne ↦ ?_
    · rw [h.retire_swapper]
      exact h.sound.swapper_ok
    · rw [h.retire_swapper]
      exact .refl _
    · obtain ⟨hj, hold⟩ := (h.retire_ctxs j).2.1 hj
      rw [(h.retire_ctxs j).1 hj]
      exact ⟨hold, .refl _, h.sound.context_ok j hold⟩
    · obtain ⟨hj, hold⟩ := (h.retire_ctxs j).2.1 hj
      rw [(h.retire_ctxs j).1 hj]
      exact h.sound.saved_cs j hold hne
  rw [h.retire_mem]
  refine hsound.free_stack hstack.usable hstack.not_table fun j hj ↦ ?_
  rcases hj with hswapper | ⟨hlive, hmapped⟩
  · rw [hswapper, h.retire_swapper, ← hswapper]
    intro heq
    have hij := h.sound.stack_inj j i (Or.inl hswapper) h.hasStack heq
    exact h.live.ne_swapper (hij ▸ hswapper)
  · obtain ⟨hne, hold⟩ := (h.retire_ctxs j).2.1 hlive
    rw [(h.retire_ctxs j).1 hne] at hmapped ⊢
    exact fun heq ↦ hne (h.sound.stack_inj j i (Or.inr ⟨hold, hmapped⟩) h.hasStack heq)

/-- `do_cleanup` takes the address space of the last process down; a frame that is neither a table nor the
freed stack stays marked. -/
theorem doCleanup_memory {m : Memory} (h : Tables roots m) {root stack held : ℕ} (hroot : roots root)
    (hmapped : KernelMapped m root) (hstack : Region.osPt.Usable stack) (htable : ¬ m.phys.IsTable roots stack)
    (hheld : m.allocated .osPt held = true) (hother : ¬ m.phys.IsTable roots held) (hne : held ≠ stack)
    (hpmd : m.osPmdPfn < 2 ^ 32 ∧ m.osPmdPfn ≠ held) :
    let cleaned := ptCleanup 4 root (removeApicMapping root (osPfnFree .osPt stack m))
    (osPfnFree .osPt cleaned.osPmdPfn cleaned).RegionsOk ∧
      (osPfnFree .osPt cleaned.osPmdPfn cleaned).allocated .osPt held = true ∧ cleaned.osPmdPfn = m.osPmdPfn := by
  intro cleaned
  have hfreed := h.osPfnFree_osPt hstack htable
  have hheld₁ : (osPfnFree .osPt stack m).allocated .osPt held = true := still_allocated_osPfnFree h.regions_ok
    (hstack.contains.lt.trans (by norm_num)) hne hheld
  obtain ⟨htables, -, hlists, -, hapic, hpmd₁, hold, hclear⟩ :=
    removeApicMapping_spec hfreed hroot ((kernelMapped_osPfnFree _ _).2 hmapped)
  have hkeep : ∀ pfn, (removeApicMapping root (osPfnFree .osPt stack m)).phys.IsTable roots pfn → ¬ pfn = held := by
    rintro pfn hpfn rfl
    exact hother (hold pfn hpfn)
  rw [← hapic] at hclear
  have hcleans := ptCleanup_spec 4 root _ (htables.treeOk hroot hkeep hclear)
  have hheld₂ : (removeApicMapping root (osPfnFree .osPt stack m)).allocated .osPt held = true := by
    unfold allocated
    rw [hlists]
    exact hheld₁
  have hpmd₂ : cleaned.osPmdPfn = m.osPmdPfn := hcleans.pmd_eq.trans hpmd₁
  have hregions := hcleans.regions_ok htables.regions_ok
  refine ⟨regionsOk_osPfnFree hregions (Or.inl rfl), ?_, hpmd₂⟩
  rw [hpmd₂]
  exact still_allocated_osPfnFree hregions (hpmd.1.trans (by norm_num)) hpmd.2.symm
    (hcleans.kept htables.regions_ok held rfl hheld₂)

/-- Without processes and page tables little is left to ask. -/
theorem Sound.of_none (hregions : k.mem.RegionsOk) (hnone : ∀ i, ¬ Live k.ctxs i)
    (hswapper : SwapperOk (k.ctxs swapper))
    (hrsp : (k.ctxs swapper).osRsp = Kernel.stackTop (k.ctxs swapper).osStackPfn)
    (husable : Region.osPt.Usable (k.ctxs swapper).osStackPfn)
    (hstack : k.mem.allocated .osPt (k.ctxs swapper).osStackPfn = true)
    (hpmd : k.mem.osPmdPfn < 2 ^ 32 ∧ k.mem.osPmdPfn ≠ (k.ctxs swapper).osStackPfn) :
    Sound intact (fun _ ↦ False) k.mem k.ctxs k.current := by
  have honly : ∀ i, HasStack k.mem k.ctxs i → some i = swapper := fun i hi ↦
    hi.resolve_right fun hand ↦ hnone i hand.1
  refine ⟨.of_regionsOk hregions fun _ ↦ id, fun i hi ↦ absurd hi (hnone i), hswapper, fun i hi ↦ absurd hi (hnone i),
    fun i hi ↦ absurd hi (hnone i), fun i hi ↦ ?_, fun i hi ↦ absurd hi (hnone i), fun i hi ↦ absurd hi (hnone i),
    fun i _ hi ↦ absurd hi (hnone i), fun i hi ↦ absurd hi (hnone i), fun i hi ↦ ?_, fun i j hi hj _ ↦ ?_, hpmd,
    fun _ ↦ False.elim, fun i hi ↦ absurd hi (hnone i)⟩
  · have hzero : i.val = 0 := by
      by_contra hne
      exact hnone i ⟨hne, hi⟩
    rw [show some i = swapper from congrArg some (Fin.ext hzero)]
    exact hrsp
  · rw [honly i hi]
    exact ⟨husable, hstack, fun ⟨_, _, hroot, _⟩ ↦ hroot⟩
  · exact Option.some.inj ((honly i hi).trans (honly j hj).symm)

/-- The state that `do_exit` leaves, whatever page table was in use. -/
theorem inv_exit (h : InUser intact roots k i) {k₁ : Kernel} (hmem : k₁.mem = k.retire.mem)
    (hctxs : k₁.ctxs = k.retire.ctxs) (hcurrent : k₁.current = some i) (hmode : k₁.mode = .user)
    (hcr3 : k₁.cr3 = k.cr3 ∨ k₁.cr3 = swapperPgd) :
    (k₁.procExist = true → Inv intact (k₁.schedule (pickNextContext k₁.ctxs (some i)))) ∧
      (k₁.procExist = false → Inv intact k₁.doCleanup) := by
  have hsound : Sound intact roots k₁.mem k₁.ctxs k₁.current := by
    rw [hmem, hctxs, hcurrent, ← h.current_eq]
    exact h.retire_sound
  have hself : k₁.ctxs (some i) = (k.ctxs (some i)).setState .unused := by
    rw [hctxs]
    exact (setState_ctxs _ k.current .unused _).trans (if_pos h.current_eq.symm)
  have hswapper : k₁.ctxs swapper = k.ctxs swapper := by rw [hctxs, h.retire_swapper]
  have hmapped : KernelMapped k₁.mem (k.ctxs (some i)).pgd := by
    rw [hmem, h.retire_mem]
    exact (kernelMapped_osPfnFree _ _).2 h.mapped
  constructor
  · intro _
    have hyielded : Yielded intact roots k₁ := by
      refine ⟨hsound, by rw [hmode]; decide, fun j hj ↦ ?_, fun j hj hsame ↦ ?_⟩
      · have hne : j ≠ i := by
          rw [hctxs] at hj
          exact ((h.retire_ctxs j).2.1 hj).1
        exact hsound.saved_cs j hj fun heq ↦ hne (Option.some.inj (hcurrent.symm.trans heq)).symm
      · rcases hcr3 with hcr3 | hcr3
        · rw [hcr3, h.cr3_eq]
          exact hmapped
        · rw [hcr3] at hsame
          exact absurd hsame (hsound.pgd_ne_swapper hj)
    have hself_lt : (k₁.ctxs (some i)).pid < maxProcesses := by
      rw [hself, ExecContext.setState, h.sound.pid_eq i h.live]
      exact i.isLt
    exact inv_schedule hyielded hself_lt
  · intro hnone
    have hdead : ∀ j, ¬ Live k₁.ctxs j := fun j hj ↦ by
      rw [(procExist_iff k₁).2 ⟨j, hj⟩] at hnone
      exact Bool.noConfusion hnone
    have hctx : k₁.ctx = (k.ctxs (some i)).setState .unused := by rw [Kernel.ctx, hcurrent, hself]
    have hstack := h.stack_ok
    have hzero := h.sound.stack_ok _ (Or.inl swapper_eq.symm)
    have htable : ¬ k₁.mem.phys.IsTable roots (k.ctxs (some i)).osStackPfn := by
      rw [hmem, h.retire_mem]
      exact hstack.not_table
    have hapart : (k.ctxs swapper).osStackPfn ≠ (k.ctxs (some i)).osStackPfn := by
      rw [swapper_eq]
      intro heq
      exact h.live.1 (congrArg Fin.val (h.sound.stack_inj _ _ (Or.inl swapper_eq.symm) h.hasStack heq).symm)
    rw [← swapper_eq] at hzero
    have hheld : k₁.mem.allocated .osPt (k.ctxs swapper).osStackPfn = true := by
      rw [hmem, h.retire_mem]
      exact still_allocated_osPfnFree h.sound.tables.regions_ok (hstack.usable.contains.lt.trans (by norm_num))
        hapart hzero.allocated
    have hother : ¬ k₁.mem.phys.IsTable roots (k.ctxs swapper).osStackPfn := by
      rw [hmem, h.retire_mem]
      exact hzero.not_table
    obtain ⟨hregions, hkept, hpmd⟩ := doCleanup_memory hsound.tables (h.sound.live_root i h.live) hmapped
      hstack.usable htable hheld hother hapart (hswapper ▸ hsound.pmd_ok)
    have hcleaned : ∀ q, k₁.doCleanup.ctxs q = if q = k₁.current then (k₁.ctxs q).setState .unused else k₁.ctxs q :=
      setState_ctxs _ k₁.current .unused
    have hdead' : ∀ j, ¬ Live k₁.doCleanup.ctxs j := by
      rintro j ⟨hj, hstate⟩
      rw [hcleaned] at hstate
      split at hstate
      · exact hstate rfl
      · exact hdead j ⟨hj, hstate⟩
    have hswapper' : k₁.doCleanup.ctxs swapper = k.ctxs swapper := by
      rw [hcleaned, if_neg (by rw [hcurrent]; exact h.live.ne_swapper.symm), hswapper]
    have hmem' : k₁.doCleanup.mem =
        osPfnFree .osPt (ptCleanup 4 (k.ctxs (some i)).pgd (removeApicMapping (k.ctxs (some i)).pgd
          (osPfnFree .osPt (k.ctxs (some i)).osStackPfn k₁.mem))).osPmdPfn
        (ptCleanup 4 (k.ctxs (some i)).pgd (removeApicMapping (k.ctxs (some i)).pgd
          (osPfnFree .osPt (k.ctxs (some i)).osStackPfn k₁.mem))) := by
      unfold Kernel.doCleanup
      simp only [hctx]
      rfl
    have hrsp := h.sound.rsp_eq _ (swapper_eq ▸ h.sound.swapper_ok.in_use)
    rw [← swapper_eq] at hrsp
    rw [← hmem'] at hregions hkept
    have hpmd' : k₁.doCleanup.mem.osPmdPfn = k₁.mem.osPmdPfn := by
      rw [hmem']
      exact hpmd
    refine ⟨fun _ ↦ False, Or.inl ⟨.of_none hregions hdead' ?_ ?_ ?_ ?_ ?_, rfl, hdead'⟩⟩
    · rw [hswapper']
      exact h.sound.swapper_ok
    · rw [hswapper']
      exact hrsp
    · rw [hswapper']
      exact hzero.usable
    · rw [hswapper']
      exact hkept
    · rw [hpmd', hswapper', ← hswapper]
      exact hsound.pmd_ok

theorem inv_doExit (h : InUser intact roots k i) : Inv intact k.doExit := by
  obtain ⟨hschedule, hcleanup⟩ := @inv_exit intact roots k i h k.retire rfl rfl h.current_eq h.mode_eq (Or.inl rfl)
  unfold Kernel.doExit
  rw [h.current_eq]
  split
  · exact hschedule ‹_›
  · exact hcleanup (Bool.not_eq_true _ ▸ ‹¬ _›)

theorem inv_doGp (h : InUser intact roots k i) : Inv intact k.doGp := by
  obtain ⟨hschedule, hcleanup⟩ := @inv_exit intact roots k i h { k with cr3 := swapperPgd }.retire rfl rfl h.current_eq
    h.mode_eq (Or.inr rfl)
  unfold Kernel.doGp Kernel.doExit
  simp only [h.current_eq] at hschedule hcleanup ⊢
  split
  · exact hschedule ‹_›
  · exact hcleanup (Bool.not_eq_true _ ▸ ‹¬ _›)

end GemOS
