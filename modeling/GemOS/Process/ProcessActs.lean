import GemOS.Process.PagingActs
import GemOS.Process.Accesses
import GemOS.Process.RunInvariant

/-!
# What a process does to the address spaces

The spaces of the kernel are those below the page tables of its live processes. Serving faults, storing a signal frame
and ending the process are acts of the process that runs: they touch no space of others, as long as its own is none of
these.
-/

namespace GemOS

open Foundation Memory Kernel AddrSpaces

variable {intact : Fin maxProcesses → Prop} {roots : ℕ → Prop} {k k' k₁ : Kernel} {i : Fin maxProcesses} {m m' : Memory}
  {ctxs ctxs' : CtxPtr → ExecContext} {R : Rights ℕ ℕ ℕ} {live stored : Set ℕ}

/-- The page tables of the live processes. -/
def liveRoots (ctxs : CtxPtr → ExecContext) : Set ℕ := {root | ∃ i, Live ctxs i ∧ (ctxs (some i)).pgd = root}

/-- The address spaces of the live processes. -/
noncomputable def Kernel.spaces (k : Kernel) : AddrSpaces ℕ ℕ ℕ ℕ ℕ := k.mem.spaces (liveRoots k.ctxs)

/-- Where an address lies: its page, and the offset there. -/
def placeOf (addr : ℕ) : ℕ × ℕ := (addr / pageSize, addr % pageSize)

/-- The kernel's spaces change by acts. -/
abbrev Acts (R : Rights ℕ ℕ ℕ) (k k' : Kernel) : Prop :=
  Evolves sharedPages R k.spaces k'.spaces

theorem liveRoots_congr (hctxs : ∀ i, (Live ctxs' i ↔ Live ctxs i) ∧
    (Live ctxs i → (ctxs' (some i)).pgd = (ctxs (some i)).pgd)) :
    liveRoots ctxs' = liveRoots ctxs := by
  ext root
  refine exists_congr fun i ↦ ⟨fun ⟨hlive, hpgd⟩ ↦ ?_, fun ⟨hlive, hpgd⟩ ↦ ?_⟩
  · have hold := (hctxs i).1.1 hlive
    exact ⟨hold, ((hctxs i).2 hold).symm.trans hpgd⟩
  · exact ⟨(hctxs i).1.2 hlive, ((hctxs i).2 hlive).trans hpgd⟩

/-- The record of one context changes, but for its state of use and its page table. -/
theorem liveRoots_update {p : CtxPtr} {record : ExecContext}
    (hstate : record.state = .unused ↔ (ctxs p).state = .unused)
    (hpgd : record.pgd = (ctxs p).pgd) : liveRoots (Function.update ctxs p record) = liveRoots ctxs := by
  refine liveRoots_congr fun i ↦ ?_
  unfold Live
  by_cases hi : some i = p
  · rw [← hi, Function.update_self, hi]
    exact ⟨and_congr_right fun _ ↦ not_congr hstate, fun _ ↦ hpgd⟩
  · rw [Function.update_of_ne hi]
    exact ⟨Iff.rfl, fun _ ↦ rfl⟩

theorem Sound.liveRoots_sub (h : Sound intact roots m ctxs k.current) : ∀ r ∈ liveRoots ctxs, roots r := by
  rintro r ⟨i, hlive, rfl⟩
  exact h.live_root i hlive

theorem InUser.liveRoots_sub (h : InUser intact roots k i) : ∀ r ∈ liveRoots k.ctxs, roots r := h.sound.liveRoots_sub

theorem InUser.mem_liveRoots (h : InUser intact roots k i) : k.cr3 ∈ liveRoots k.ctxs := ⟨i, h.live, h.cr3_eq.symm⟩

theorem InUser.pgd_eq (h : InUser intact roots k i) : k.ctx.pgd = k.cr3 := by rw [h.ctx_eq, h.cr3_eq]

namespace Acts

theorem of_eq (h : k'.spaces = k.spaces) : Acts R k k' := by
  unfold Acts
  rw [h]

theorem of_same (hmem : k'.mem = k.mem) (hlive : liveRoots k'.ctxs = liveRoots k.ctxs) : Acts R k k' := by
  apply of_eq
  rw [Kernel.spaces, hmem, hlive, Kernel.spaces]

end Acts

section Attend

/-- A page that is mapped for user mode stays as it is while faults are served. -/
theorem Kernel.Tends.userPage_kept (htends : Tends k k') (h : InUser intact roots k i) (hgranted : k'.mem.AllocsGranted)
    {page : ℕ} {backing : Backing ℕ} (hpage : k.mem.phys.userPage k.cr3 page = some backing) :
    k'.mem.phys.userPage k'.cr3 page = some backing := by
  induction htends with
  | refl => exact hpage
  | still _ still ih =>
    rw [still.mem_eq, still.cr3_eq]
    exact ih (still.mem_eq ▸ hgranted)
  | @fault k₁ before cr2 errorCode demand unmapped ih =>
    have hgranted₁ := hgranted.anti (le_installPageTable _ cr2 errorCode _)
    have huser := before.serves.inUser h hgranted₁
    have hdemand : demandPaged (k₁.ctxs (some i)) cr2 errorCode = true := huser.ctx_eq ▸ demand
    have haddr := huser.context_ok.userAddr_of_demand hdemand
    obtain ⟨pfn, hmaps⟩ := huser.mapsFresh demand hgranted
    change (installPageTable k₁.ctx.pgd cr2 errorCode k₁.mem).phys.userPage k₁.cr3 page = some backing
    rw [hmaps.toMapsPage.userPage huser.sound.tables (userFlags_pageTableStyle errorCode) haddr huser.root, if_neg]
    · exact ih hgranted₁
    · rintro ⟨-, rfl⟩
      have hold := ih hgranted₁
      rw [PhysMem.userPage, hwWalk_pageAddr, unmapped] at hold
      simp at hold

/-- Serving faults takes frames for pages of the current process. -/
theorem Kernel.Tends.acts (htends : Tends k k') (h : InUser intact roots k i) (hgranted : k'.mem.AllocsGranted)
    (hmine : k.cr3 ∉ R.theirs) : Acts R k k' := by
  induction htends with
  | refl => exact .refl
  | still _ still ih =>
    exact (ih (still.mem_eq ▸ hgranted)).trans (Acts.of_same still.mem_eq (by rw [still.ctxs_eq]))
  | @fault k₁ before cr2 errorCode demand unmapped ih =>
    have hgranted₁ := hgranted.anti (le_installPageTable _ cr2 errorCode _)
    have huser := before.serves.inUser h hgranted₁
    have hdemand : demandPaged (k₁.ctxs (some i)) cr2 errorCode = true := huser.ctx_eq ▸ demand
    have haddr := huser.context_ok.userAddr_of_demand hdemand
    have hpgd := huser.pgd_eq
    have hmine₁ : k₁.cr3 ∉ R.theirs := by rwa [before.serves.sameTable.cr3_eq]
    refine (ih hgranted₁).tail ?_
    rw [hpgd] at hgranted ⊢
    obtain ⟨pfn, hmaps, htakes⟩ := installPageTable_takes huser.sound.tables huser.root haddr errorCode hgranted
    exact hmaps.step huser.sound.tables huser.liveRoots_sub huser.mem_liveRoots hmine₁
      (userFlags_pageTableStyle errorCode)
      haddr (huser.context_ok.read_only_of_demand hdemand) htakes
      fun _ ↦ huser.sound.tables.userPage_eq_none_of_walk huser.root haddr unmapped

/-- Bytes that were touched can still be written, when the processor protects. -/
theorem Kernel.Touched.writable {addr : ℕ} (htouched : Touched k k₁ addr) (h : InUser intact roots k i)
    (hgranted : k₁.mem.AllocsGranted) {mapping : Mapping} (hwalk : hwWalk k₁.mem.phys k₁.cr3 addr = some mapping)
    (huser : mapping.user = true) (hwp : k.wp = true) : mapping.writable = true := by
  obtain ⟨hcanonical, k₀, mapping₀, hbefore, hafter, hwalk₀, hmay⟩ := htouched
  have h₀ := hbefore.serves.inUser h (hgranted.anti hafter.serves.le)
  have h₁ := hafter.serves.inUser h₀ hgranted
  have hpage := userPage_of_walk hcanonical hwalk huser
  -- the page is one of the user segments, and was when it was touched
  have haddr : UserAddr addr := by
    rcases h₁.sound.tables.userPage_cases h₁.root (addr / pageSize) with ⟨-, hnone⟩ | ⟨_, _, haddr, -⟩
    · rw [hnone] at hpage
      exact absurd hpage (by simp)
    · exact userAddr_pageAddr.1 haddr
  have huser₀ : mapping₀.user = true := by
    rcases h₀.sound.tables.page_cases h₀.root haddr.slot with ⟨-, -, hnone⟩ | ⟨_, _, _, -, -, -, -, -, hsome⟩
    · rw [hnone] at hwalk₀
      exact absurd hwalk₀ (by simp)
    · rw [hsome] at hwalk₀
      obtain rfl := Option.some.inj hwalk₀
      rfl
  have hkept := hafter.userPage_kept h₀ hgranted (userPage_of_walk hcanonical hwalk₀ huser₀)
  rw [hpage] at hkept
  have hwritable : mapping.writable = mapping₀.writable := congrArg Backing.write (Option.some.inj hkept)
  rw [hwritable]
  exact hmay rfl (hbefore.serves.onward.wp_eq.trans hwp)

/-- So does the store of a signal frame, which the processor permits when it protects. -/
theorem Kernel.Attends.acts (hattends : Attends stored k k') (h : InUser intact roots k i)
    (hgranted : k'.mem.AllocsGranted)
    (hmine : k.cr3 ∉ R.theirs) (hstored : ∀ addr ∈ stored, placeOf addr ∈ R.stored) (hstrict : R.strict → k.wp = true) :
    Acts R k k' ∧ InUser intact roots k' i := by
  cases hattends with
  | tend tends => exact ⟨tends.acts h hgranted hmine, tends.serves.inUser h hgranted⟩
  | @store k₁ _ phys before writes quiet =>
    have hgranted₁ : k₁.mem.AllocsGranted := by
      have hgranted₂ := quiet.mem_eq ▸ hgranted
      exact hgranted₂
    have huser := before.serves.inUser h hgranted₁
    have hmine₁ : k₁.cr3 ∉ R.theirs := by rwa [before.serves.sameTable.cr3_eq]
    have hput : Step sharedPages R k₁.spaces ({ k₁ with mem.phys := phys } : Kernel).spaces := by
      refine spaces_put huser.sound.tables huser.liveRoots_sub huser.mem_liveRoots hmine₁ (fun frame hframe ↦ ?_)
        fun frame offset hframe ↦ ?_
      · by_contra hne
        obtain ⟨addr, mapping, htouched, hwalk, hmapping, hpfn⟩ := writes.frames frame hne
        exact hframe (addr / pageSize) _ (userPage_of_walk htouched.1 hwalk hmapping) hpfn
      · by_contra hne
        obtain ⟨addr, mapping, hmem, htouched, hwalk, hmapping, hpfn, hoffset⟩ := writes.bytes frame offset hne
        refine hframe (addr / pageSize) _ (userPage_of_walk htouched.1 hwalk hmapping) (fun hs ↦ ?_) ?_ hpfn
        · exact htouched.writable h hgranted₁ hwalk hmapping (hstrict hs)
        · rw [← hoffset]
          exact hstored addr hmem
    refine ⟨((before.acts h hgranted₁ hmine).tail hput).trans (Acts.of_same quiet.mem_eq (by rw [quiet.ctxs_eq])), ?_⟩
    exact (huser.store writes.writesUser).quiet quiet

end Attend

section Exit

/-- A context that is dispatched was live, or is the swapper. -/
theorem liveRoots_makeCurrent {p : CtxPtr}
    (hp : p = swapper ∨ ∃ i : Fin maxProcesses, i.val ≠ 0 ∧ p = some i ∧ (k.ctxs (some i)).state = .ready) :
    liveRoots (k.makeCurrent p).ctxs = liveRoots k.ctxs := by
  refine liveRoots_congr fun j ↦ ?_
  unfold Live
  rw [makeCurrent_ctxs]
  split
  · rename_i hj
    rcases hp with rfl | ⟨i, -, rfl, hready⟩
    · have hzero : j.val = 0 := congrArg Fin.val (Option.some.inj (hj.trans swapper_eq))
      exact ⟨iff_of_false (fun hand ↦ hand.1 hzero) fun hand ↦ hand.1 hzero, fun _ ↦ rfl⟩
    · obtain rfl := Option.some.inj hj
      rw [hready]
      exact ⟨and_congr_right fun _ ↦ by simp [ExecContext.setState], fun _ ↦ rfl⟩
  · exact ⟨Iff.rfl, fun _ ↦ rfl⟩

theorem loadCr3_mem (k : Kernel) (pgd : ℕ) : (k.loadCr3 pgd).mem = k.mem ∧ (k.loadCr3 pgd).ctxs = k.ctxs := by
  unfold Kernel.loadCr3
  split <;> exact ⟨rfl, rfl⟩

theorem schedule_spaces {p : CtxPtr}
    (hp : p = swapper ∨ ∃ i : Fin maxProcesses, i.val ≠ 0 ∧ p = some i ∧ (k.ctxs (some i)).state = .ready) :
    (k.schedule p).spaces = k.spaces := by
  have hfields : (k.schedule p).mem = k.mem ∧ (k.schedule p).ctxs = (k.makeCurrent p).ctxs := by
    unfold Kernel.schedule Kernel.iret
    simp only
    split
    · exact ⟨rfl, rfl⟩
    · exact loadCr3_mem (k.makeCurrent p) _
  rw [Kernel.spaces, hfields.1, hfields.2, liveRoots_makeCurrent hp, Kernel.spaces]

/-- A free never marks a frame. -/
theorem allocated_of_free {region other : Region} {pfn frame : ℕ}
    (hframe : (osPfnFree region pfn m).allocated other frame = true) : m.allocated other frame = true := by
  by_cases heq : other = region
  · subst other
    simp only [allocated, osPfnFree, Function.update_self] at hframe ⊢
    unfold PageList.osPageFree at hframe
    split at hframe
    · exact hframe
    · unfold PageList.allocated at hframe ⊢
      simp only [Bool.and_eq_true, decide_eq_true_eq, PageList.test_bmapClear] at hframe ⊢
      exact ⟨hframe.1, hframe.2.1⟩
  · simpa [allocated, osPfnFree, heq] using hframe

/-- Neither does `pt_cleanup`, by induction on the levels and the entries of a table. -/
theorem allocated_of_ptCleanup {region : Region} {frame : ℕ} (level pfn : ℕ) (m : Memory)
    (hframe : (ptCleanup level pfn m).allocated region frame = true) : m.allocated region frame = true := by
  induction level generalizing pfn m with
  | zero =>
    rw [ptCleanup] at hframe
    split at hframe
    · exact hframe
    · exact allocated_of_free hframe
  | succ level ih =>
    have hloop : ∀ (indices : List ℕ) (m : Memory),
        (indices.foldl (fun m i ↦ if m.phys pfn i &&& 0x1 = 0 then m
          else (ptCleanup level (m.phys pfn i >>> 12) m).writeEntry pfn i 0) m).allocated region frame = true →
        m.allocated region frame = true := by
      intro indices
      induction indices with
      | nil => exact fun m ↦ id
      | cons j indices ihloop =>
        intro m hafter
        have hround := ihloop _ hafter
        beta_reduce at hround
        split at hround
        · exact hround
        · exact ih _ m hround
    rw [ptCleanup] at hframe
    split at hframe
    · exact hloop _ m hframe
    · exact hloop _ m (allocated_of_free hframe)

/-- With the last process all address spaces end, and frames are given up. -/
theorem doCleanup_acts (hnone : ∀ j, ¬ Live k.ctxs j) :
    Acts R k k.doCleanup := by
  have hempty : liveRoots k.ctxs = ∅ := Set.eq_empty_iff_forall_notMem.2 fun r ⟨j, hlive, _⟩ ↦ hnone j hlive
  have hafter : liveRoots k.doCleanup.ctxs = ∅ := by
    refine Set.eq_empty_iff_forall_notMem.2 fun r ⟨j, hlive, _⟩ ↦ ?_
    have hctxs : k.doCleanup.ctxs (some j) = if some j = k.current then (k.ctxs (some j)).setState .unused
        else k.ctxs (some j) := setState_ctxs _ k.current .unused _
    refine hnone j ⟨hlive.1, fun hunused ↦ hlive.2 ?_⟩
    rw [hctxs]
    split
    · rfl
    · exact hunused
  have hsub : ∀ frame, k.doCleanup.mem.allocated .user frame = true → k.mem.allocated .user frame = true := by
    intro frame hframe
    have hcleaned : (ptCleanup 4 k.ctx.pgd (removeApicMapping k.ctx.pgd
        (osPfnFree .osPt k.ctx.osStackPfn k.mem))).allocated .user frame = true := allocated_of_free hframe
    have hunmapped : (removeApicMapping k.ctx.pgd (osPfnFree .osPt k.ctx.osStackPfn k.mem)).allocated .user frame =
        true :=
      allocated_of_ptCleanup 4 k.ctx.pgd _ hcleaned
    have hfreed : (osPfnFree .osPt k.ctx.osStackPfn k.mem).allocated .user frame = true := hunmapped
    exact allocated_of_free hfreed
  have hload : Step sharedPages R k.spaces { k.spaces with data := k.doCleanup.spaces.data } := by
    refine .load fun space hspace ↦ ?_
    change space ∈ liveRoots k.ctxs at hspace
    rw [hempty] at hspace
    exact hspace.elim
  have hclear : Step sharedPages R { k.spaces with data := k.doCleanup.spaces.data }
      { k.spaces with data := k.doCleanup.spaces.data, used := k.doCleanup.spaces.used } := .clear hempty hsub
  have heq : k.doCleanup.spaces =
      { k.spaces with data := k.doCleanup.spaces.data, used := k.doCleanup.spaces.used } := by
    refine AddrSpaces.ext (hafter.trans hempty.symm) ?_ rfl rfl
    funext r page
    have hbefore : k.spaces.page r page = none :=
      spaces_page_of_not_mem _ (fun hmem ↦ by rw [hempty] at hmem; exact hmem) page
    refine Eq.trans ?_ hbefore.symm
    exact spaces_page_of_not_mem _ (fun hmem ↦ by rw [hafter] at hmem; exact hmem) page
  unfold Acts
  rw [heq]
  exact (Relation.ReflTransGen.single hload).tail hclear

/-- The record of the process is given up, and its space ends unless a thread still uses it. -/
theorem retire_acts (hcurrent : k.current = some i) (hmine : (k.ctxs (some i)).pgd ∉ R.theirs) :
    Acts R k k.retire := by
  have hctxs : ∀ q, k.retire.ctxs q = if q = k.current then (k.ctxs q).setState .unused else k.ctxs q :=
    setState_ctxs _ k.current .unused
  have hlives : ∀ j, Live k.retire.ctxs j ↔ j ≠ i ∧ Live k.ctxs j := by
    intro j
    unfold Live
    rw [hctxs, hcurrent]
    split
    · rename_i hj
      simp [ExecContext.setState, Option.some.inj hj]
    · rename_i hj
      have hne : j ≠ i := fun heq ↦ hj (congrArg some heq)
      simp [hne]
  have hpgd : ∀ j, (k.retire.ctxs (some j)).pgd = (k.ctxs (some j)).pgd := by
    intro j
    rw [hctxs]
    split <;> rfl
  have hmem : k.retire.mem.spaces (liveRoots k.retire.ctxs) = k.mem.spaces (liveRoots k.retire.ctxs) :=
    spaces_free_osPt k.ctx.osStackPfn k.mem
  unfold Acts
  rw [Kernel.spaces, Kernel.spaces, hmem]
  by_cases hshared : ∃ j, j ≠ i ∧ Live k.ctxs j ∧ (k.ctxs (some j)).pgd = (k.ctxs (some i)).pgd
  · obtain ⟨thread, hne, hthread, hsame⟩ := hshared
    have hroots : liveRoots k.retire.ctxs = liveRoots k.ctxs := by
      ext r
      constructor
      · rintro ⟨j, hj, rfl⟩
        exact ⟨j, ((hlives j).1 hj).2, (hpgd j).symm⟩
      · rintro ⟨j, hj, rfl⟩
        by_cases hji : j = i
        · exact ⟨thread, (hlives thread).2 ⟨hne, hthread⟩, by rw [hpgd, hsame, hji]⟩
        · exact ⟨j, (hlives j).2 ⟨hji, hj⟩, hpgd j⟩
    rw [hroots]
  · have hroots : liveRoots k.retire.ctxs = liveRoots k.ctxs \ {(k.ctxs (some i)).pgd} := by
      ext r
      constructor
      · rintro ⟨j, hj, rfl⟩
        obtain ⟨hji, hj'⟩ := (hlives j).1 hj
        exact ⟨⟨j, hj', (hpgd j).symm⟩, fun heq ↦ hshared ⟨j, hji, hj', (hpgd j).symm.trans heq⟩⟩
      · rintro ⟨⟨j, hj, rfl⟩, hne⟩
        have hji : j ≠ i := fun heq ↦ hne (congrArg (fun p ↦ (k.ctxs (some p)).pgd) heq)
        exact ⟨j, (hlives j).2 ⟨hji, hj⟩, hpgd j⟩
    rw [hroots]
    exact .single (spaces_close k.mem hmine)

/-- `do_exit`, whatever page table is in use. -/
theorem doExit_acts (h : Sound intact roots k.mem k.ctxs k.current) (hcurrent : k.current = some i)
    (hmine : (k.ctxs (some i)).pgd ∉ R.theirs) (hlive : Live k.ctxs i) : Acts R k k.doExit := by
  have hretire : Acts R k k.retire := retire_acts hcurrent hmine
  unfold Kernel.doExit
  split
  · refine hretire.trans (Acts.of_eq (schedule_spaces (pickNextContext_cases _ ?_)))
    have hpid : (k.retire.ctxs k.current).pid = i := by
      have hctxs : k.retire.ctxs k.current = (k.ctxs k.current).setState .unused :=
        (setState_ctxs _ k.current .unused _).trans (if_pos rfl)
      rw [hctxs, hcurrent]
      exact h.pid_eq i hlive
    rw [hpid]
    exact i.isLt
  · rename_i hnone
    exact hretire.trans (doCleanup_acts fun j hj ↦ hnone ((procExist_iff _).2 ⟨j, hj⟩))

theorem doGp_acts (h : Sound intact roots k.mem k.ctxs k.current) (hcurrent : k.current = some i)
    (hmine : (k.ctxs (some i)).pgd ∉ R.theirs) (hlive : Live k.ctxs i) : Acts R k k.doGp :=
  @doExit_acts intact roots { k with cr3 := swapperPgd } i R h hcurrent hmine hlive

/-- The process ends, or the run stops. -/
theorem Kernel.Quits.acts (hquits : Quits stored k k') (h : InUser intact roots k i) (hgranted : k'.mem.AllocsGranted)
    (hmine : k.cr3 ∉ R.theirs) (hstored : ∀ addr ∈ stored, placeOf addr ∈ R.stored)
    (hstrict : R.strict → k.wp = true) : Acts R k k' := by
  have hpgd : ∀ {k₁ : Kernel}, Tends k k₁ → InUser intact roots k₁ i → (k₁.ctxs (some i)).pgd ∉ R.theirs := by
    intro k₁ before huser
    rwa [← huser.cr3_eq, before.serves.sameTable.cr3_eq]
  cases hquits with
  | @exit k₁ before =>
    have hgranted₁ := hgranted.anti (le_doExit k₁)
    have huser := before.serves.inUser h hgranted₁
    exact (before.acts h hgranted₁ hmine).trans (doExit_acts huser.sound huser.current_eq
      (hpgd before huser) huser.live)
  | @protection k₁ before =>
    have hgranted₁ := hgranted.anti (le_doGp k₁)
    have huser := before.serves.inUser h hgranted₁
    exact (before.acts h hgranted₁ hmine).trans
      (doGp_acts huser.sound huser.current_eq (hpgd before huser) huser.live)
  | @stop k₁ _ before stopped still =>
    have hgranted₁ : k₁.mem.AllocsGranted := by
      rw [← still.mem_eq]
      exact hgranted
    have hsame : (k'.withMode k₁.mode).spaces = k₁.spaces := by
      rw [Kernel.spaces, still.mem_eq, still.ctxs_eq, Kernel.spaces]
    exact (before.acts h hgranted₁ hmine hstored hstrict).1.trans (Acts.of_eq hsame)

end Exit

end GemOS
