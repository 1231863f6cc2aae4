import GemOS.Process.ForkActs

/-!
# Every event of a process as acts

Whatever a user process sets off, it acts on its own address space and on those that it founds. A fork leaves the
space of the child behind, also when it was cut short and the process ended in the middle. A shrink gives up the pages
it was asked to (`givenPages`); one of RODATA may give up frames that other spaces have from a fork, and `GivesOwn` is
the condition that it does not. An `int $0xe` puts another frame behind the page that `CR2` names (`renewedPages`).
What is written is at `storedBytes`: where the user stores, and where a signal frame goes.
-/

namespace GemOS

open Foundation TableForest Memory Kernel AddrSpaces

variable {intact : Fin maxProcesses → Prop} {roots : ℕ → Prop} {k k' : Kernel} {i : Fin maxProcesses} {m : Memory}
  {R : Rights ℕ ℕ ℕ} {live stored : Set ℕ} {root : ℕ} {event : Event} {child : CtxPtr} {record : ExecContext}

/-- The pages that `do_shrink` unmaps. -/
def Kernel.shrunkPages (k : Kernel) (size flags : ℕ) : List ℕ :=
  if size > maxExpandPages then []
  else
    match expandSegment flags with
    | none => []
    | some seg =>
      let shrunk := ((k.ctx.mms seg).nextFree + 2 ^ 64 - size <<< pageShift) % 2 ^ 64
      if shrunk < (k.ctx.mms seg).start then [] else pagesFrom shrunk 0 size

theorem Shrinks.shrunkPages_eq {size flags shrunk : ℕ} {seg : MmSeg} (h : Shrinks k.ctx size flags seg)
    (hshrunk : shrunk = ((k.ctx.mms seg).nextFree + 2 ^ 64 - size <<< pageShift) % 2 ^ 64) :
    k.shrunkPages size flags = pagesFrom shrunk 0 size := by
  unfold Kernel.shrunkPages
  rw [if_neg (not_lt.2 h.size_le)]
  simp only [h.segment_eq]
  rw [if_neg (not_lt.2 h.fits), hshrunk]

/-- Below the DATA segment, no other space has the frame of a page that is given up. -/
def GivesOwn (event : Event) (k : Kernel) : Prop :=
  Asks event k .shrink → ∀ addr ∈ k.shrunkPages k.regs.rsi k.regs.rdx, addr < dataStart → ∀ frame,
    k.spaces.Maps k.cr3 (addr / pageSize) frame → ∀ other, other ≠ k.cr3 → ¬ k.spaces.Maps other (addr / pageSize) frame

/-- The pages that the event gives up. -/
def givenPages (event : Event) (k : Kernel) : Set ℕ :=
  {page | Asks event k .shrink ∧ ∃ addr ∈ k.shrunkPages k.regs.rsi k.regs.rdx, page = addr / pageSize}

/-- The page that the event puts another frame behind. -/
def renewedPages (event : Event) (k : Kernel) : Set ℕ :=
  {page | event = .pageFaultGate ∧ demandPaged k.ctx k.cr2 k.regs.entryRip = true ∧ page = k.cr2 / pageSize}

/-- The addresses that the event may write in the memory of the process. -/
def storedBytes (event : Event) (k : Kernel) : Set ℕ :=
  match event with
  | .load _ => signalFrame .sigsegv k
  | .store addr _ => insert addr (signalFrame .sigsegv k)
  | .divide => signalFrame .sigfpe k
  | .pageFaultGate => signalFrame .sigsegv { k with regs := gateFrame k.regs }
  | .tick => signalFrame .sigalrm k
  | _ => ∅

/-- The pages are unmapped one after the other. -/
theorem unmapPages_acts (h : Tables roots m) (hsub : ∀ r ∈ live, roots r) (hroot : root ∈ live)
    (hmine : root ∉ R.theirs)
    (addrs : List ℕ) (huser : ∀ addr ∈ addrs, UserAddr addr) (hgiven : ∀ addr ∈ addrs, addr / pageSize ∈ R.given)
    (hown : R.tidy → ∀ addr ∈ addrs, addr < dataStart → ∀ frame, (m.spaces live).Maps root (addr / pageSize) frame →
      ∀ other, other ≠ root → ¬ (m.spaces live).Maps other (addr / pageSize) frame) :
    Evolves sharedPages R (m.spaces live) ((unmapPages root addrs m).spaces live) := by
  induction addrs generalizing m with
  | nil => exact .refl
  | cons addr addrs ih =>
    have haddr := huser addr (List.mem_cons_self ..)
    have hrest := fun other (hmem : other ∈ addrs) ↦ huser other (List.mem_cons_of_mem _ hmem)
    have hgiven' := fun other (hmem : other ∈ addrs) ↦ hgiven other (List.mem_cons_of_mem _ hmem)
    rcases doUnmapUser_spec h (hsub root hroot) haddr.slot with ⟨-, hsame⟩ | ⟨-, pfn, hunmaps⟩
    · have hfirst : (doUnmapUser root addr m).2 = m := by rw [hsame]
      change Evolves sharedPages R _ ((unmapPages root addrs (doUnmapUser root addr m).2).spaces live)
      rw [hfirst]
      exact ih h hrest hgiven' fun htidy other hmem ↦ hown htidy other (List.mem_cons_of_mem _ hmem)
    · have hpage := fun r (hr : r ∈ live) ↦ hunmaps.userPage h haddr (hsub r hr)
      have hgive : Step sharedPages R (m.spaces live) ((doUnmapUser root addr m).2.spaces live) := by
        refine hunmaps.step h hsub hroot hmine haddr
          (hgiven addr (List.mem_cons_self ..)) fun htidy hlow other hother hne backing hbacking hframe ↦ ?_
        obtain ⟨flags, hflags, hentry⟩ := hunmaps.entry_eq
        have hhere : (m.spaces live).page root (addr / pageSize) = some ⟨pfn, m.phys.pathWritable root addr⟩ := by
          rw [spaces_page _ hroot]
          exact h.userPage_of_entry (hsub root hroot) haddr hflags hentry
        refine hown htidy addr (List.mem_cons_self ..) hlow pfn ⟨_, hhere, rfl⟩ other hne ⟨backing, ?_, hframe⟩
        rwa [spaces_page _ hother]
      have hfewer : ∀ {other page frame}, ((doUnmapUser root addr m).2.spaces live).Maps other page frame →
          (m.spaces live).Maps other page frame := by
        intro other page frame hmap
        rw [Maps, spaces_setPage hroot hpage] at hmap
        exact ((maps_setPage_none (m.spaces live)).1 hmap).2
      refine Relation.ReflTransGen.head hgive (ih hunmaps.tables hrest hgiven'
        fun htidy other hmem hlow frame hmap r hr hmap' ↦ ?_)
      exact hown htidy other (List.mem_cons_of_mem _ hmem) hlow frame (hfewer hmap) r hr (hfewer hmap')

/-- Where a program ends, the spaces have changed by acts. -/
abbrev Obeys (R : Rights ℕ ℕ ℕ) {α : Type} (p : Prog Kernel α) (k : Kernel) : Prop :=
  Spec p k (fun _ k' ↦ k'.mem.AllocsGranted → Acts R k k') fun k' ↦
    k'.mem.AllocsGranted → Acts R k k'

/-- The result of a system call goes to a register. -/
theorem Obeys.reply {p : Prog Kernel ℕ} (hp : Obeys R p k) :
    Obeys R (p >>= fun result ↦ Prog.update fun k ↦ { k with regs := { k.regs with rax := result } }) k :=
  Spec.bind hp fun _ _ hacts ↦ Spec.update hacts

theorem liveRoots_updateCtx {f : ExecContext → ExecContext} (p : CtxPtr)
    (hstate : (f (k.ctxs p)).state = .unused ↔ (k.ctxs p).state = .unused)
    (hpgd : (f (k.ctxs p)).pgd = (k.ctxs p).pgd) :
    liveRoots (k.updateCtx p f).ctxs = liveRoots k.ctxs := liveRoots_update hstate hpgd

/-- A record enters the table. -/
theorem liveRoots_insert {ctxs : CtxPtr → ExecContext} (hi : i.val ≠ 0) (hvacant : ¬ Live ctxs i)
    (hstate : record.state ≠ .unused) :
    liveRoots (Function.update ctxs (some i) record) = insert record.pgd (liveRoots ctxs) := by
  have hother : ∀ j, j ≠ i → Function.update ctxs (some i) record (some j) = ctxs (some j) := fun j hj ↦
    Function.update_of_ne (fun heq ↦ hj (Option.some.inj heq)) _ _
  ext r
  constructor
  · rintro ⟨j, ⟨hj, hused⟩, rfl⟩
    by_cases heq : j = i
    · rw [heq, Function.update_self]
      exact Set.mem_insert _ _
    · rw [hother j heq] at hused ⊢
      exact Set.mem_insert_of_mem _ ⟨j, ⟨hj, hused⟩, rfl⟩
  · intro hr
    rcases Set.mem_insert_iff.1 hr with rfl | ⟨j, hlive, rfl⟩
    · exact ⟨i, ⟨hi, by rwa [Function.update_self]⟩, by rw [Function.update_self]⟩
    · have heq : j ≠ i := fun heq ↦ hvacant (heq ▸ hlive)
      exact ⟨j, ⟨hlive.1, by rw [hother j heq]; exact hlive.2⟩, by rw [hother j heq]⟩

/-- A record is written to a free slot, or at `NULL`. -/
theorem liveRoots_born (hborn : Born child record k k') (hslot : ∀ j, child = some j → j.val ≠ 0 ∧ ¬ Live k.ctxs j)
    (hstate : record.state ≠ .unused) :
    liveRoots k'.ctxs = insert record.pgd (liveRoots k.ctxs) ∨ liveRoots k'.ctxs = liveRoots k.ctxs := by
  rw [hborn.ctxs_eq]
  cases child with
  | none => exact Or.inr (liveRoots_congr fun j ↦ by simp [Live])
  | some i => exact Or.inl (liveRoots_insert (hslot i rfl).1 (hslot i rfl).2 hstate)

section User

variable (h : InUser intact roots k i) (hmine : k.cr3 ∉ R.theirs)

include h hmine

theorem obeys_attends {α : Type} {p : Prog Kernel α} (hp : Spec p k (fun _ ↦ Attends stored k) (Quits stored k))
    (hstored : ∀ addr ∈ stored, placeOf addr ∈ R.stored) (hstrict : R.strict → k.wp = true) : Obeys R p k :=
  hp.mono (fun _ _ hattends hgranted ↦ (hattends.acts h hgranted hmine hstored hstrict).1) fun _ hquits hgranted ↦
    hquits.acts h hgranted hmine hstored hstrict

/-- A call that answers acts on the space of its caller. -/
theorem Kernel.Answers.acts {call : Option Syscall} {param1 param2 : ℕ} (hanswers : Answers param1 param2 k call k')
    (hgiven : call = some .shrink → ∀ addr ∈ k.shrunkPages param1 param2, addr / pageSize ∈ R.given)
    (hown : R.tidy → call = some .shrink → ∀ addr ∈ k.shrunkPages param1 param2, addr < dataStart → ∀ frame,
      k.spaces.Maps k.cr3 (addr / pageSize) frame → ∀ other, other ≠ k.cr3 →
        ¬ k.spaces.Maps other (addr / pageSize) frame) (hgranted : k'.mem.AllocsGranted) : Acts R k k' := by
  have hrecord : ∀ f : ExecContext → ExecContext, (∀ ctx, (f ctx).state = ctx.state) → (∀ ctx, (f ctx).pgd = ctx.pgd) →
      liveRoots (k.updateCtx k.current f).ctxs = liveRoots k.ctxs := fun f hstate hpgd ↦
    liveRoots_updateCtx k.current (by rw [hstate]) (hpgd _)
  cases hanswers with
  | tend tends => exact tends.acts h hgranted hmine
  | @shrink seg shrunk shrinks shrunk_eq =>
    have hpages := shrinks.shrunkPages_eq shrunk_eq
    have hok : ContextOk k.ctx := h.ctx_eq.symm ▸ h.context_ok
    obtain ⟨hnext, hlow, -⟩ := hok.shrunk shrinks shrunk_eq
    have hroots : liveRoots (setNextFree seg shrunk k).ctxs = liveRoots k.ctxs := hrecord _ (fun _ ↦ rfl) fun _ ↦ rfl
    unfold Acts Kernel.spaces
    change Evolves sharedPages R _
      ((unmapPages k.ctx.pgd (pagesFrom shrunk 0 param1) k.mem).spaces (liveRoots (setNextFree seg shrunk k).ctxs))
    rw [hroots, h.pgd_eq, ← hpages]
    refine unmapPages_acts h.sound.tables h.liveRoots_sub h.mem_liveRoots hmine _ (fun addr haddr ↦ ?_) (hgiven rfl)
      fun htidy ↦ hown htidy rfl
    rw [hpages] at haddr
    exact (hok.shrink_pages shrinks.growing hlow hnext addr haddr).1
  | expand | signal | alarm => exact .of_same rfl (hrecord _ (fun _ ↦ rfl) fun _ ↦ rfl)

omit hmine in
/-- A frame for a kernel stack, and a record over the page table of the parent. -/
theorem doClone_obeys (thFunc userStack : ℕ) : Obeys R (doClone thFunc userStack) k := by
  obtain ⟨record, hborn, -, hslot, -⟩ := k.getNewCtx_born
  have hmem := getNewCtx_mem k
  have hbusy : k.ctx.state ≠ .unused := h.ctx_eq ▸ h.live.2
  unfold doClone
  apply Spec.call_bind
  apply Spec.call_bind
  apply Spec.update_bind
  generalize k.getNewCtx.1 = child at *
  generalize k.getNewCtx.2 = k₁ at *
  have hne := current_ne_child h.current_eq hbusy fun j hj ↦ (hslot j hj).2
  have hctx := (hborn.ctx_eq hne).trans h.ctx_eq
  refine Spec.pure fun hgranted ↦ ?_
  rw [show (pfnAlloc .osPt k₁).1 = (osPfnAlloc .osPt k₁.mem).1 from rfl]
  change Evolves sharedPages R _ ((osPfnAlloc .osPt k₁.mem).2.spaces
    (liveRoots (Function.update k₁.ctxs child
      ((cloneRecord k₁.ctx (osPfnAlloc .osPt k₁.mem).1 thFunc userStack (k₁.ctxs child)).setNameBytes 0
        (cloneName k₁.ctx)))))
  change (osPfnAlloc .osPt k₁.mem).2.AllocsGranted at hgranted
  rw [hmem] at hgranted ⊢
  obtain ⟨-, hpgd, -⟩ := clone_fields k₁.ctx (k₁.ctxs child) (osPfnAlloc .osPt k.mem).1 thFunc userStack
  have hstate : ((cloneRecord k₁.ctx (osPfnAlloc .osPt k.mem).1 thFunc userStack (k₁.ctxs child)).setNameBytes 0
      (cloneName k₁.ctx)).state = .ready :=
    (setNameBytes_seat (cloneRecord k₁.ctx _ thFunc userStack (k₁.ctxs child)) 0 (cloneName k₁.ctx)).1.state_eq
  generalize (cloneRecord k₁.ctx _ thFunc userStack (k₁.ctxs child)).setNameBytes 0 _ = clone at *
  have hclone : Born child clone k (k₁.updateCtx child fun _ ↦ clone) :=
    hborn.trans ⟨rfl, rfl, rfl, rfl, rfl, rfl, rfl⟩
  have hparent : clone.pgd ∈ liveRoots k.ctxs := by
    rw [hpgd, hctx, ← h.cr3_eq]
    exact h.mem_liveRoots
  have hroots : liveRoots (Function.update k₁.ctxs child clone) = liveRoots k.ctxs := by
    rcases liveRoots_born hclone (fun j hj ↦ h.sound.free_slot (hslot j hj).2)
      (by rw [hstate]; decide) with hnew | hsame
    · exact hnew.trans (Set.insert_eq_of_mem hparent)
    · exact hsame
  rw [hroots, spaces_grant h.sound.tables h.liveRoots_sub (osPfnAlloc_grant h.sound.tables.regions_ok hgranted)]
  exact .refl

end User

/-- The space of a child is that of its record, or ends at once where no slot was free. -/
theorem born_acts (hborn : Born child record k k') (hslot : ∀ j, child = some j → j.val ≠ 0 ∧ ¬ Live k.ctxs j)
    (hstate : record.state ≠ .unused) (hfresh : record.pgd ∉ liveRoots k.ctxs) (hmine : record.pgd ∉ R.theirs) :
    Evolves sharedPages R (k'.mem.spaces (insert record.pgd (liveRoots k.ctxs))) k'.spaces := by
  unfold Kernel.spaces
  rcases liveRoots_born hborn hslot hstate with hnew | hsame
  · rw [hnew]
  · have hclose : Step sharedPages R (k'.mem.spaces (insert record.pgd (liveRoots k.ctxs)))
        (k'.mem.spaces (insert record.pgd (liveRoots k.ctxs) \ {record.pgd})) := spaces_close k'.mem hmine
    rw [Set.insert_sdiff_self_of_notMem hfresh] at hclose
    rw [hsame]
    exact .single hclose

theorem getNewCtx_wp (k : Kernel) : k.getNewCtx.2.wp = k.wp := by
  rcases k.getNewCtx_cases with ⟨i, f, -, -, -, hnew⟩ | ⟨-, hnew⟩
  · rw [hnew]
    rfl
  · rw [hnew]

/-- The pages that a fork visits. -/
def Kernel.forkedPages (k : Kernel) : List ℕ := (copiedPages k.ctx).map fun addr ↦ addr / pageSize

/-- The current process has a child: a record over a page table of its own, which was filled from that of the parent. -/
structure Bears (roots : ℕ → Prop) (k k' : Kernel) (child : CtxPtr) (record : ExecContext) : Prop where
  born : Born child record k k'
  slot : ∀ j, child = some j → (k.ctxs (some j)).state = .unused
  state_eq : record.state = .ready
  fresh : ¬ roots record.pgd
  clones : Clones sharedPages k.cr3 record.pgd k.forkedPages
    { k.spaces with live := insert record.pgd (liveRoots k.ctxs) }
    (k'.mem.spaces (insert record.pgd (liveRoots k.ctxs)))

/-- `do_fork` bears a child, or is cut short. -/
theorem doFork_bears (h : InUser intact roots k i) (hmine : k.cr3 ∉ R.theirs) (hknown : ∀ r ∈ R.known, roots r)
    (hsaved : k.ctx.regs = k.regs) (hstrict : R.strict → k.wp = true) :
    Spec doFork k
      (fun _ k' ↦ k'.mem.AllocsGranted → ∃ child record, (child = none → ∀ j, (k.ctxs (some j)).state ≠ .unused) ∧
        Bears roots k k' child record)
      fun k' ↦ k'.mem.AllocsGranted → Acts R k k' := by
  obtain ⟨record, hborn, -, hslot, hfull⟩ := k.getNewCtx_born
  have hmem := getNewCtx_mem k
  have hwp : (copyRecord k.getNewCtx.1 k.getNewCtx.2).wp = k.wp := getNewCtx_wp k
  have hbusy : k.ctx.state ≠ .unused := h.ctx_eq ▸ h.live.2
  unfold doFork
  apply Spec.call_bind
  apply Spec.read_bind
  apply Spec.update_bind
  generalize k.getNewCtx.1 = child at *
  generalize k.getNewCtx.2 = k₁ at *
  have hne := current_ne_child h.current_eq hbusy fun j hj ↦ (hslot j hj).2
  have hfree := fun j hj ↦ h.sound.free_slot (hslot j hj).2
  have hcopy : Born child { k.ctx with pid := record.pid, ppid := k.ctx.pid } k (copyRecord child k₁) := by
    refine hborn.trans ⟨?_, rfl, rfl, rfl, rfl, rfl, rfl⟩
    rw [← hborn.ctx_eq hne, ← hborn.self]
    rfl
  have hcopied : (copyRecord child k₁).mem = k.mem := hmem
  have hne₂ : (copyRecord child k₁).current ≠ child := hcopy.current_eq ▸ hne
  have hctx := hcopy.ctx_eq hne
  generalize copyRecord child k₁ = k₂ at *
  have hok : ContextOk k.ctx := h.ctx_eq.symm ▸ h.context_ok
  have hcs : k.ctx.regs.entryCs = userCs := hsaved ▸ h.cs_eq
  have hpgd : k₂.ctx.pgd = k.cr3 := (congrArg ExecContext.pgd hctx).trans h.pgd_eq
  have hanchors : k₂.mem.AllocsGranted → ∀ addr, Anchor addr → k₂.mem.phys.pageEntry k₂.ctx.pgd addr ≠ 0 := by
    rw [hcopied, hctx, h.ctx_eq]
    exact fun _ ↦ h.sound.anchors i h.live h.mapped
  have hbuilds : Spec (copyMm child) k₂ _ fun k' ↦
      ∃ pgd m, Severed roots (liveRoots k.ctxs) R child k₂ pgd m k' :=
    copyMm_acts hne₂ (hctx ▸ hok) (fun _ ↦ hcopied ▸ h.sound.tables) h.liveRoots_sub
      (hpgd ▸ h.mem_liveRoots) (hpgd ▸ hmine)
      hknown hanchors
  refine (hbuilds.mono (fun _ _ ↦ id) ?_).bind ?_
  · -- the copy of a page faulted
    rintro k' ⟨pgd, m, hsevered⟩ hgranted
    have hborn' := hcopy.withTable pgd m
    have hgranted' : m.AllocsGranted := hgranted.anti hsevered.departs.le
    have hacts := hsevered.acts hgranted'
    have hbegun := hsevered.begun hgranted'
    rw [hcopied] at hacts hbegun
    have hentered : Evolves sharedPages R _ (k₂.withTable child pgd m).spaces :=
      born_acts hborn' hfree hbusy (fun hmem ↦ hbegun.fresh (h.liveRoots_sub pgd hmem)) fun hmem ↦
        hbegun.fresh (hknown pgd (R.theirs_sub hmem))
    have hfewer : InUser (fun j ↦ intact j ∧ (k.ctxs (some j)).state ≠ .unused) roots k i := h.mono fun j ↦ And.left
    have huser := hfewer.born hborn' hne hbegun.persists fun j hj ↦ by
        refine ⟨(hfree j hj).1, (hfree j hj).2, Or.inr rfl, hok.of_mms rfl, (hslot j hj).1, ?_, fun _ ↦ hcs,
          Or.inr ⟨fun hand ↦ hand.2 (hslot j hj).2, hbegun.window_clear⟩⟩
        have hrsp := h.sound.rsp_eq i h.live.2
        rw [← h.ctx_eq] at hrsp
        exact hrsp
    have hquits : Acts R _ k' := (hsevered.quits hgranted').acts huser hgranted
      (fun hmem ↦ hmine (hborn'.cr3_eq ▸ hmem)) (fun _ hmem ↦ hmem.elim) fun hs ↦ hwp.trans (hstrict hs)
    exact (hacts.trans hentered).trans hquits
  rintro _ _ ⟨pgd, m, rfl, hfinished⟩
  have hborn' := hcopy.withTable pgd m
  refine (setupChildContext_stack child _).bind ?_
  rintro _ k' ⟨hmem', hborn₄⟩
  rw [hborn'.self] at hborn₄
  refine Spec.pure fun hgranted ↦ ?_
  change k'.mem = (osPfnAlloc .osPt m).2 at hmem'
  rw [hmem'] at hgranted
  have hforked := hfinished (hgranted.anti (le_osPfnAlloc .osPt m))
  have hgrant := osPfnAlloc_grant hforked.tables.regions_ok hgranted
  have hspaces := spaces_grant hforked.tables (insert_sub h.liveRoots_sub) hgrant
  have hclones := hforked.clones
  rw [← hmem'] at hspaces
  rw [hpgd, hctx, hcopied, ← hspaces] at hclones
  exact ⟨child, _, hfull, hborn'.trans hborn₄, fun j hj ↦ (hslot j hj).2, rfl, hforked.fresh, hclones⟩

theorem Bears.acts {roots : ℕ → Prop} (hbears : Bears roots k k' child record) (h : InUser intact roots k i)
    (hmine : k.cr3 ∉ R.theirs) (hknown : ∀ r ∈ R.known, roots r) : Acts R k k' := by
  have hnew : record.pgd ∉ liveRoots k.ctxs := fun hmem ↦ hbears.fresh (h.liveRoots_sub _ hmem)
  have hstrange : record.pgd ∉ R.known := fun hmem ↦ hbears.fresh (hknown _ hmem)
  have hchildMine : record.pgd ∉ R.theirs := fun hmem ↦ hstrange (R.theirs_sub hmem)
  have hfound : Step sharedPages R k.spaces _ := found_step k.mem hnew hstrange
  have hfilled : Evolves sharedPages R _ _ := hbears.clones.evolves (Set.mem_insert _ _) hmine hchildMine
  have hentered : Evolves sharedPages R _ k'.spaces := born_acts hbears.born
    (fun j hj ↦ h.sound.free_slot (hbears.slot j hj))
      (by rw [hbears.state_eq]; exact ProcessState.noConfusion) hnew hchildMine
  exact (hfilled.trans hentered).head hfound

theorem doFork_obeys (h : InUser intact roots k i) (hmine : k.cr3 ∉ R.theirs) (hknown : ∀ r ∈ R.known, roots r)
    (hsaved : k.ctx.regs = k.regs) (hstrict : R.strict → k.wp = true) : Obeys R doFork k :=
  (doFork_bears h hmine hknown hsaved hstrict).mono (fun _ _ hbears hgranted ↦ by
    obtain ⟨child, record, -, hchild⟩ := hbears hgranted
    exact hchild.acts h hmine hknown) fun _ ↦ id

theorem doSleep_acts (h : InUser intact roots k i) (ticks : ℕ) : Acts R k (k.doSleep ticks) := by
  have hroots : liveRoots (k.updateCtx k.current fun ctx ↦ ctx.sleepFor ticks).ctxs = liveRoots k.ctxs := by
    refine liveRoots_updateCtx k.current (iff_of_false ProcessState.noConfusion ?_) rfl
    rw [h.current_eq]
    exact h.live.2
  have hpid : ((k.updateCtx k.current fun ctx ↦ ctx.sleepFor ticks).ctxs k.current).pid < maxProcesses := by
    rw [updateCtx_self, h.current_eq]
    change (k.ctxs (some i)).pid < maxProcesses
    rw [h.sound.pid_eq i h.live]
    exact i.isLt
  have hasleep : Acts R k (k.updateCtx k.current fun ctx ↦ ctx.sleepFor ticks) := .of_same rfl hroots
  exact hasleep.trans (Acts.of_eq (schedule_spaces (pickNextContext_cases _ hpid)))

theorem liveRoots_saveRegs (k : Kernel) : liveRoots k.saveRegs.ctxs = liveRoots k.ctxs :=
  liveRoots_updateCtx (k := k) (f := fun ctx ↦ ctx.saveRegs k.regs) k.current Iff.rfl rfl

theorem saveRegs_ctx (k : Kernel) : k.saveRegs.ctx = k.ctx.saveRegs k.regs :=
  k.updateCtx_self k.current fun ctx ↦ ctx.saveRegs k.regs

theorem saveRegs_spaces (k : Kernel) : k.saveRegs.spaces = k.spaces := by
  unfold Kernel.spaces
  rw [liveRoots_saveRegs]
  rfl

/-- The calls. -/
theorem dispatch_obeys (h : InUser intact roots k i) (hmine : k.cr3 ∉ R.theirs) (hknown : ∀ r ∈ R.known, roots r)
    (hsaved : k.ctx.regs = k.regs) (hstrict : R.strict → k.wp = true) (peek : ℕ → ℕ) (param1 param2 : ℕ)
    (call : Option Syscall)
    (hgiven : call = some .shrink → ∀ addr ∈ k.shrunkPages param1 param2, addr / pageSize ∈ R.given)
    (hown : R.tidy → call = some .shrink → ∀ addr ∈ k.shrunkPages param1 param2, addr < dataStart → ∀ frame,
      k.spaces.Maps k.cr3 (addr / pageSize) frame → ∀ other, other ≠ k.cr3 →
        ¬ k.spaces.Maps other (addr / pageSize) frame) :
    Obeys R (dispatch peek param1 param2 call) k := by
  rcases simple_or call with hsimple | rfl | rfl | rfl | rfl
  · exact (dispatch_answers peek param1 param2 hsimple).mono (fun _ _ hanswers ↦ hanswers.acts h hmine hgiven hown)
      fun _ hquits hgranted ↦ hquits.acts h hgranted hmine (fun _ hmem ↦ hmem.elim) hstrict
  · refine Spec.leave fun _ ↦ doExit_acts h.sound h.current_eq ?_ h.live
    rw [← h.cr3_eq]
    exact hmine
  · exact Spec.leave fun _ ↦ doSleep_acts h param1
  · exact doClone_obeys h param1 param2
  · exact doFork_obeys h hmine hknown hsaved hstrict

theorem doSyscall_obeys (h : InUser intact roots k i) (hmine : k.cr3 ∉ R.theirs) (hknown : ∀ r ∈ R.known, roots r)
    (hstrict : R.strict → k.wp = true) (peek : ℕ → ℕ) (hgiven : givenPages (.syscall peek) k ⊆ R.given)
    (hown : R.tidy → GivesOwn (.syscall peek) k) :
    Obeys R (doSyscall peek) k := by
  have hctx := saveRegs_ctx k
  have hspaces := saveRegs_spaces k
  have hpages : ∀ size flags, k.saveRegs.shrunkPages size flags = k.shrunkPages size flags := by
    intro size flags
    unfold Kernel.shrunkPages
    rw [hctx]
    rfl
  unfold doSyscall
  apply Spec.read_bind
  apply Spec.update_bind
  have hcall : Obeys R (dispatch peek k.regs.rsi k.regs.rdx k.syscallRequested) k.saveRegs :=
    dispatch_obeys h.saveRegs hmine hknown (hctx ▸ rfl) hstrict peek _ _ _
      (fun hshrink addr haddr ↦ hgiven ⟨⟨⟨peek, rfl⟩, hshrink⟩, addr, hpages _ _ ▸ haddr, rfl⟩) fun htidy hshrink ↦ by
        rw [hpages, hspaces]
        exact hown htidy ⟨⟨peek, rfl⟩, hshrink⟩
  refine hcall.reply.mono (fun _ k' hacts hgranted ↦ ?_) fun k' hacts hgranted ↦ ?_
  · exact (Acts.of_eq hspaces).trans (hacts hgranted)
  · exact (Acts.of_eq hspaces).trans (hacts hgranted)

section Tick

theorem accountSleep_acts (k : Kernel) : Acts R k k.accountSleep :=
  .of_same rfl (liveRoots_congr fun j ↦ ⟨accountSleep_live k j, fun _ ↦ (countSleep_eq (k.ctxs (some j))).1⟩)

/-- The switch to a context that is ready, or to the swapper. -/
theorem switchTo_spaces {next : CtxPtr}
    (hp : next = swapper ∨ ∃ i : Fin maxProcesses, i.val ≠ 0 ∧ next = some i ∧ (k.ctxs (some i)).state = .ready) :
    (k.switchTo next).spaces = k.spaces := by
  generalize hsaved : { k with stats.contextSwitches := k.stats.contextSwitches + 1 }.updateCtx k.current
    (fun ctx ↦ ctx.saveRegs k.regs) = saved
  have hctxs : saved.ctxs = (k.updateCtx k.current fun ctx ↦ ctx.saveRegs k.regs).ctxs := by
    rw [← hsaved]
    rfl
  have hroots : liveRoots saved.ctxs = liveRoots k.ctxs := by
    rw [hctxs]
    exact liveRoots_updateCtx k.current Iff.rfl rfl
  have hready : next = swapper ∨ ∃ i : Fin maxProcesses, i.val ≠ 0 ∧ next = some i ∧
      (saved.ctxs (some i)).state = .ready := by
    refine hp.imp id ?_
    rintro ⟨j, hj, hnext, hstate⟩
    refine ⟨j, hj, hnext, ?_⟩
    rw [hctxs, updateCtx_ctxs]
    split <;> exact hstate
  have hmem : saved.mem = k.mem := by
    rw [← hsaved]
    rfl
  have hfields : (k.switchTo next).mem = saved.mem ∧ (k.switchTo next).ctxs = (saved.makeCurrent next).ctxs := by
    unfold Kernel.switchTo Kernel.iret
    simp only [hsaved]
    split
    · exact ⟨rfl, rfl⟩
    · rw [loadCr3_makeCurrent]
      exact loadCr3_mem (saved.makeCurrent next) (k.ctxs next).pgd
  rw [Kernel.spaces, hfields.1, hfields.2, liveRoots_makeCurrent hready, hroots, hmem, Kernel.spaces]

/-- The tick hands the processor on; the spaces stay. -/
theorem reschedule_acts (hpid : (k.ctxs k.current).pid < maxProcesses)
    (hlive : ∀ j, k.current = some j → j.val ≠ 0 → Live k.ctxs j) : Acts R k k.reschedule := by
  have hready : liveRoots ({ k with stats.ticks := k.stats.ticks + 1 }.setState k.current .ready).ctxs =
      liveRoots k.ctxs := by
    refine liveRoots_congr fun j ↦ ?_
    unfold Live
    rw [setState_ctxs]
    split
    · rename_i hj
      refine ⟨and_congr_right fun hne ↦ iff_of_true ProcessState.noConfusion ?_, fun _ ↦ rfl⟩
      exact (hlive j hj.symm hne).2
    · exact ⟨Iff.rfl, fun _ ↦ rfl⟩
  have hpid' : (({ k with stats.ticks := k.stats.ticks + 1 }.setState k.current .ready).ctxs
      k.current).pid < maxProcesses := by
    rw [setState_ctxs, if_pos rfl]
    exact hpid
  have hpick := pickNextContext_cases _ hpid'
  have hmarked : Acts R k ({ k with stats.ticks := k.stats.ticks + 1 }.setState k.current .ready) :=
    .of_same rfl hready
  unfold Kernel.reschedule
  simp only
  split
  · exact hmarked
  · exact hmarked.trans (Acts.of_eq (switchTo_spaces hpick))

theorem accountSleep_signalFrame (k : Kernel) (signo : Signal) : signalFrame signo k.accountSleep =
    signalFrame signo k := by
  have hcount : ∀ ctx : ExecContext, ctx.countSleep.sighandlers = ctx.sighandlers := by
    intro ctx
    unfold ExecContext.countSleep
    split_ifs <;> rfl
  refine signalFrame_congr signo (congrFun ?_ signo) rfl
  change (k.accountSleep.ctxs k.current).sighandlers = (k.ctxs k.current).sighandlers
  cases k.current with
  | none => rfl
  | some i => exact hcount _

theorem setTicksToAlarm_signalFrame (ticks : ℕ) (k : Kernel) (signo : Signal) :
    signalFrame signo (k.setTicksToAlarm ticks) = signalFrame signo k := by
  have hctx := k.updateCtx_self k.current fun ctx ↦ { ctx with ticksToAlarm := ticks }
  exact signalFrame_congr signo (congrArg (fun ctx : ExecContext ↦ ctx.sighandlers signo) hctx :) rfl

theorem accountAlarm_obeys (h : InUser intact roots k i) (hmine : k.cr3 ∉ R.theirs)
    (hstored : ∀ addr ∈ signalFrame .sigalrm k, placeOf addr ∈ R.stored) (hstrict : R.strict → k.wp = true) :
    Obeys R accountAlarm k := by
  have hset : ∀ (k : Kernel) (ticks : ℕ), Acts R k (k.setTicksToAlarm ticks) := fun k ticks ↦
    .of_same rfl (liveRoots_updateCtx (k := k) (f :=
      fun ctx ↦ { ctx with ticksToAlarm := ticks }) k.current Iff.rfl rfl)
  unfold accountAlarm accountAlarmWith
  refine Spec.read_bind (Spec.ite (fun _ ↦ ?_) fun _ ↦ Spec.pure fun _ ↦ .refl)
  apply Spec.update_bind
  have hframe := setTicksToAlarm_signalFrame (k.ctx.ticksToAlarm - 1) k .sigalrm
  have hsignal : Obeys R (signalRunning .sigalrm) (k.setTicksToAlarm (k.ctx.ticksToAlarm - 1)) :=
    obeys_attends (h.setTicksToAlarm _) hmine (signalRunning_attends .sigalrm _) (hframe ▸ hstored) hstrict
  refine Spec.ite (fun _ ↦ ?_) fun _ ↦ Spec.pure fun _ ↦ hset k _
  refine (hsignal.mono (fun _ _ ↦ id) fun k' hacts hgranted ↦ (hset k _).trans (hacts hgranted)).bind fun _ k' hacts ↦
    ?_
  exact Spec.update fun hgranted ↦ (hset k _).trans ((hacts hgranted).trans (hset k' _))

theorem handleTimerTick_obeys (h : InUser intact roots k i) (hmine : k.cr3 ∉ R.theirs)
    (hstored : ∀ addr ∈ signalFrame .sigalrm k, placeOf addr ∈ R.stored) (hstrict : R.strict → k.wp = true) :
    Obeys R handleTimerTick k := by
  unfold handleTimerTick handleTimerTickWith
  apply Spec.update_bind
  have halarm : Obeys R accountAlarm k.accountSleep :=
    accountAlarm_obeys h.accountSleep hmine ((accountSleep_signalFrame k .sigalrm).symm ▸ hstored) hstrict
  have hkept := halarm.and (keeps_accountAlarm h.accountSleep)
  refine (hkept.mono (fun _ _ ↦ id) fun k' hand hgranted ↦ (accountSleep_acts k).trans (hand.1 hgranted)).bind ?_
  rintro _ k' ⟨hacts, -, hkeeps⟩
  refine Spec.update fun hgranted ↦ ?_
  have hgranted' := hgranted.anti (onward_reschedule k').le
  have huser := hkeeps hgranted'
  refine ((accountSleep_acts k).trans (hacts hgranted')).trans (reschedule_acts ?_ fun j hj _ ↦ ?_)
  · rw [huser.current_eq, huser.sound.pid_eq i huser.live]
    exact i.isLt
  · rw [huser.current_eq] at hj
    exact Option.some.inj hj ▸ huser.live

/-- At a tick of the swapper only the processor changes hands. -/
theorem swapperTick_acts (h : InSwapper intact roots k) : Acts R k (handleTimerTick.final k) := by
  have hsleep := h.accountSleep
  rw [h.tick_eq]
  refine (accountSleep_acts k).trans (reschedule_acts ?_ fun j hj hne ↦ ?_)
  · rw [hsleep.current_eq, hsleep.sound.swapper_ok.pid_eq]
    decide
  · exact absurd (congrArg Fin.val (Option.some.inj (hj.symm.trans (hsleep.current_eq.trans swapper_eq)))) hne

end Tick

/-- `int $0xe` renews a page, or stores its frame, or sends the signal to nobody; then the process ends. -/
theorem pageFaultGate_obeys (h : InUser intact roots k i) (hmine : k.cr3 ∉ R.theirs)
    (hrenewed : demandPaged k.ctx k.cr2 k.regs.entryRip = true → k.cr2 / pageSize ∈ R.renewed)
    (hstored : ∀ addr ∈ signalFrame .sigsegv { k with regs := gateFrame k.regs }, placeOf addr ∈ R.stored)
    (hstrict : R.strict → k.wp = true) : Obeys R pageFaultGate k := by
  have hquiet := (still_notePageFault k.cr2 k).toQuiet
  have hnoted : Serves k (k.notePageFault k.cr2) := .of_quiet hquiet
  have hsame : Acts R k (k.notePageFault k.cr2) := .of_same rfl rfl
  have huser : InUser intact roots (k.notePageFault k.cr2) i := h.quiet hquiet
  have hfault : Spec (doPageFault (invokeSyncSignal .sigsegv
      (pushFrame (signalSlot (gateFrame k.regs)) (gateFrame k.regs).entryRip)) k.cr2 k.regs.entryRip) k
      (fun _ k' ↦ Serves k k' ∧ (k'.mem.AllocsGranted → Acts R k k')) fun k' ↦ k'.mem.AllocsGranted → Acts R k k' := by
    refine doPageFault_spec (fun hdemand ↦ ⟨.fault hnoted k.cr2 k.regs.entryRip hdemand, fun hgranted ↦ ?_⟩) ?_
    · have hdemand' : demandPaged (k.ctxs (some i)) k.cr2 k.regs.entryRip = true := h.ctx_eq ▸ hdemand
      have haddr := h.context_ok.userAddr_of_demand hdemand'
      refine hsame.tail ?_
      rw [h.pgd_eq] at hgranted ⊢
      obtain ⟨pfn, hmaps, htakes⟩ := installPageTable_takes h.sound.tables h.root haddr k.regs.entryRip hgranted
      exact hmaps.step h.sound.tables h.liveRoots_sub h.mem_liveRoots hmine (userFlags_pageTableStyle _) haddr
        (h.context_ok.read_only_of_demand hdemand') htakes fun hother ↦ absurd (hrenewed hdemand) hother
    · refine invokeSyncSignal_spec .sigsegv (fun _ ↦ ?_) (fun hhandler ↦ ?_) ⟨hnoted, fun _ ↦ hsame⟩
      · exact hsame.trans (doExit_acts huser.sound huser.current_eq (fun hmem ↦ hmine (h.cr3_eq ▸ hmem)) huser.live)
      · have hslot : ∀ j < 8, addrAt (signalSlot (gateFrame k.regs)) j ∈ signalFrame .sigsegv
            { k with regs := gateFrame k.regs } := fun j hj ↦ ⟨hhandler, j, hj, rfl⟩
        refine (pushFrame_spec hslot _ _).mono ?_ fun _ hquits hgranted ↦
          hsame.trans (hquits.acts huser hgranted hmine hstored hstrict)
        rintro _ k' ⟨k₁, phys, htends, hwrites, hstill⟩
        have hattends : Attends _ (k.notePageFault k.cr2) k' := .store htends hwrites hstill.toQuiet
        exact ⟨hnoted.trans hattends.serves, fun hgranted ↦
          hsame.trans (hattends.acts huser hgranted hmine hstored hstrict).1⟩
  unfold pageFaultGate pageFaultGateWith
  apply Spec.read_bind
  refine hfault.bind ?_
  rintro _ k' ⟨hserves, hacts⟩
  refine Spec.leave fun hgranted ↦ ?_
  have hgranted' := hgranted.anti (le_doGp k')
  have huser' := hserves.inUser h hgranted'
  refine (hacts hgranted').trans (doGp_acts huser'.sound huser'.current_eq (fun hmem ↦ hmine ?_) huser'.live)
  rwa [huser'.cr3_eq.symm, hserves.sameTable.cr3_eq] at hmem

/-- Every event of a user process. -/
theorem userProgram_obeys (h : InUser intact roots k i) (hmine : k.cr3 ∉ R.theirs) (hknown : ∀ r ∈ R.known, roots r)
    (hgiven : givenPages event k ⊆ R.given) (hrenewed : renewedPages event k ⊆ R.renewed)
    (hstored : ∀ addr ∈ storedBytes event k, placeOf addr ∈ R.stored)
    (hstrict : R.strict → k.wp = true) (hown : R.tidy → GivesOwn event k) : Obeys R (userProgram event) k := by
  cases event with
  | launch args scratch => exact Spec.pure fun _ ↦ .refl
  | compute regs => exact Spec.update fun _ ↦ .refl
  | load addr => exact obeys_attends h hmine (userLoad_attends addr k) hstored hstrict
  | store addr value => exact obeys_attends h hmine (userStore_attends addr value k) hstored hstrict
  | syscall peek => exact doSyscall_obeys h hmine hknown hstrict peek hgiven hown
  | divide => exact obeys_attends h hmine (signalRunning_attends .sigfpe k) hstored hstrict
  | protection => exact Spec.leave fun _ ↦ doGp_acts h.sound h.current_eq (fun hmem ↦ hmine (h.cr3_eq ▸ hmem)) h.live
  | pageFaultGate =>
    exact pageFaultGate_obeys h hmine (fun hdemand ↦ hrenewed ⟨rfl, hdemand, rfl⟩) hstored hstrict
  | tick => exact handleTimerTick_obeys h hmine hstored hstrict

end GemOS
