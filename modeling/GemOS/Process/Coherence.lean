import GemOS.Process.Isolation
import GemOS.Process.Output
import GemOS.Process.Population

/-!
# What a process finds in its own memory

A page stays behind a page table as long as a process has that table and no thread of it gives the page up. A byte
stays as user code stored it, until user code stores there again or takes a signal there. Whatever else happens in
between, calls, faults, ticks and the runs of other processes, does not matter in a clean run. That pages stay has a
dark side: one that was first touched by a load never becomes writable.
-/

namespace GemOS

open Foundation Memory Kernel AddrSpaces

variable {phys : PhysMem} {apicBase : ApicBase} {wp : Bool} {null : ExecContext}
  {events later : List Event} {k : Kernel}
  {event : Event} {root page addr value byte : ℕ} {backing : Backing ℕ}

theorem placeOf_injective : Function.Injective placeOf := by
  intro addr addr' heq
  have hpage := congrArg Prod.fst heq
  have hoffset := congrArg Prod.snd heq
  simp only [placeOf, pageSize] at hpage hoffset
  omega

/-- A process has the page table, and the event neither gives up the page of it nor renews it. -/
def PageStays (root page : ℕ) (k : Kernel) (event : Event) : Prop :=
  root ∈ liveRoots k.ctxs ∧ (k.cr3 = root → page ∉ givenPages event k ∧ page ∉ renewedPages event k)

/-- Nor does it write the byte. -/
def ByteStays (root addr : ℕ) (k : Kernel) (event : Event) : Prop :=
  PageStays root (addr / pageSize) k event ∧ (k.cr3 = root → addr ∉ storedBytes event k)

section Decidable

instance (root : ℕ) (ctxs : CtxPtr → ExecContext) : Decidable (root ∈ liveRoots ctxs) :=
  inferInstanceAs (Decidable (∃ i, Live ctxs i ∧ (ctxs (some i)).pgd = root))

instance (page : ℕ) (event : Event) (k : Kernel) : Decidable (page ∈ givenPages event k) :=
  inferInstanceAs (Decidable (Asks event k .shrink ∧ ∃ addr ∈ k.shrunkPages k.regs.rsi k.regs.rdx,
    page = addr / pageSize))

instance (page : ℕ) (event : Event) (k : Kernel) : Decidable (page ∈ renewedPages event k) :=
  match event with
  | .pageFaultGate =>
    decidable_of_iff (demandPaged k.ctx k.cr2 k.regs.entryRip = true ∧ page = k.cr2 / pageSize)
      ⟨fun h ↦ ⟨rfl, h⟩, And.right⟩
  | .launch _ _ | .compute _ | .load _ | .store _ _ | .syscall _ | .divide | .protection | .tick =>
    isFalse fun h ↦ Event.noConfusion h.1

instance (signo : Signal) (k : Kernel) (addr : ℕ) : Decidable (addr ∈ signalFrame signo k) :=
  inferInstanceAs (Decidable (k.ctx.sighandlers signo ≠ 0 ∧ ∃ i < 8, addr = addrAt (signalSlot k.regs) i))

instance (addr : ℕ) (event : Event) (k : Kernel) : Decidable (addr ∈ storedBytes event k) :=
  match event with
  | .load _ => inferInstanceAs (Decidable (addr ∈ signalFrame .sigsegv k))
  | .store addr' _ => inferInstanceAs (Decidable (addr = addr' ∨ addr ∈ signalFrame .sigsegv k))
  | .divide => inferInstanceAs (Decidable (addr ∈ signalFrame .sigfpe k))
  | .pageFaultGate => inferInstanceAs (Decidable (addr ∈ signalFrame .sigsegv { k with regs := gateFrame k.regs }))
  | .tick => inferInstanceAs (Decidable (addr ∈ signalFrame .sigalrm k))
  | .launch _ _ | .compute _ | .syscall _ | .protection => isFalse id

instance (root page : ℕ) (k : Kernel) (event : Event) : Decidable (PageStays root page k event) := by
  unfold PageStays
  infer_instance

instance (root addr : ℕ) (k : Kernel) (event : Event) : Decidable (ByteStays root addr k event) := by
  unfold ByteStays
  infer_instance

end Decidable

/-- The table that a run needs later on is in use after its first event. -/
theorem live_next (hholds : Along Kernel.step (fun k _ ↦ root ∈ liveRoots k.ctxs) k events)
    (hlive : root ∈ liveRoots (run Kernel.step k events).ctxs) : root ∈ liveRoots k.ctxs := by
  cases hholds with
  | nil => exact hlive
  | cons head _ => exact head

section Pages

theorem page_held (h : Reachable k) (hholds : PageStays root page k event)
    (hgranted : (Kernel.step event k).mem.AllocsGranted)
    (hlive : root ∈ liveRoots (Kernel.step event k).ctxs) (hpage : k.spaces.page root page = some backing) :
    (Kernel.step event k).spaces.page root page = some backing := by
  have hacts := acts_step (h.inv (hgranted.anti (onward_step event k).le)) event hgranted
  by_cases hown : k.cr3 = root
  · exact Evolves.page_kept hacts hholds.1 (hholds.2 hown).1 (hholds.2 hown).2 hpage hlive
  · have hother : root ∈ (rights event k).theirs := ⟨hholds.1, fun heq ↦ hown heq.symm⟩
    rwa [Evolves.page_eq hacts hother]

/-- By induction on the events. -/
theorem page_held_run (h : Reachable k) (hholds : Along Kernel.step (PageStays root page) k events)
    (hgranted : (run Kernel.step k events).mem.AllocsGranted) (hlive : root ∈ liveRoots (run Kernel.step k events).ctxs)
    (hpage : k.spaces.page root page = some backing) :
      (run Kernel.step k events).spaces.page root page = some backing := by
  induction events generalizing k with
  | nil => exact hpage
  | cons event events ih =>
    obtain ⟨hhere, hrest⟩ := along_cons_iff.1 hholds
    have hgranted₁ : (Kernel.step event k).mem.AllocsGranted := hgranted.anti (onward_run _ events).le
    have hlive₁ := live_next (hrest.mono fun _ _ ↦ And.left) hlive
    exact ih (h.step event) hrest hgranted hlive (page_held h hhere hgranted₁ hlive₁ hpage)

theorem page_kept_run (h : Reachable k) (hholds : Along Kernel.step (PageStays root page) k events)
    (hgranted : (run Kernel.step k events).mem.AllocsGranted) (hlive : root ∈ liveRoots (run Kernel.step k events).ctxs)
    (hpage : k.mem.phys.userPage root page = some backing) :
    (run Kernel.step k events).mem.phys.userPage root page = some backing := by
  have hroot := live_next (hholds.mono fun _ _ ↦ And.left) hlive
  calc (run Kernel.step k events).mem.phys.userPage root page
    _ = (run Kernel.step k events).spaces.page root page := (spaces_page _ hlive page).symm
    _ = some backing := page_held_run h hholds hgranted hlive ((spaces_page _ hroot page).trans hpage)

/-- In a run without stray stores a page keeps its frame and its rights, as long as a process has the page table and
none that runs on it gives the page up or renews it. -/
theorem userPage_held (h : SafelyReachable k) (hsafe : NoStrayStores k events)
    (hholds : Along fullStep (PageStays root page) k events) (hgranted : (run fullStep k events).mem.AllocsGranted)
    (hlive : root ∈ liveRoots (run fullStep k events).ctxs) (hpage : k.mem.phys.userPage root page = some backing) :
    (run fullStep k events).mem.phys.userPage root page = some backing := by
  rw [hsafe.run_eq] at hgranted hlive ⊢
  exact page_kept_run h.reachable (hsafe.along_iff.1 hholds) hgranted hlive hpage

/-- While init forks and its child grows, writes and gives up pages of its own. -/
theorem userPage_held_init :
    (run fullStep initProcess
        (callEvents 10 0 0 ++ .tick :: callEvents 4 1 1 ++ .store dataStart 5 :: callEvents 5 1 1)).mem.phys.userPage
      initProcess.cr3 (dataStart / pageSize) = some ⟨25612, true⟩ := by
  refine userPage_held initProcess_safe ?_ ?_ ?_ ?_ ?_
  · decide +kernel
  · decide +kernel
  · unfold AllocsGranted
    decide +kernel
  · decide +kernel
  · decide +kernel

end Pages

section Bytes

/-- A byte stays over an event of a tidy run that does not write it. -/
theorem byte_kept (h : Reachable k) (howned : Owned sharedPages k.spaces) (hkeeps : ByteStays root addr k event)
    (htidy : GivesOwn event k) (hgranted : (Kernel.step event k).mem.AllocsGranted)
    (hlive : root ∈ liveRoots (Kernel.step event k).ctxs) (hsafe : k.wp = false → dataStart ≤ addr)
    (hbyte : k.mem.phys.userByte root addr = some byte) :
      (Kernel.step event k).mem.phys.userByte root addr = some byte := by
  by_cases hown : k.cr3 = root
  · obtain ⟨_, hsound⟩ := (h.inv (hgranted.anti (onward_step event k).le)).sound
    obtain ⟨_, hsound'⟩ := ((h.step event).inv hgranted).sound
    rw [hsound.userByte_eq hkeeps.1.1, Option.map_eq_some_iff] at hbyte
    obtain ⟨backing, hpage, hdata⟩ := hbyte
    have hacts := acts_step (h.inv (hgranted.anti (onward_step event k).le)) event hgranted
    have hplace : (addr / pageSize, addr % pageSize) ∉ (rights event k).stored := fun hmem ↦
      hkeeps.2 hown (placeOf_injective.mem_set_image.1 hmem)
    obtain ⟨hgiven, hrenewed⟩ := hkeeps.1.2 hown
    have hsame := Evolves.data_kept hacts howned htidy hkeeps.1.1 hgiven hrenewed hplace ⟨backing, hpage, rfl⟩ hlive
    rw [hsound'.userByte_eq hlive, page_held h hkeeps.1 hgranted hlive hpage, Option.map_some, hsame, hdata]
  · have haway : Away root k [event] := .cons hown (.nil _)
    have htidy' : Tidy k [event] := .cons htidy (.nil _)
    exact (byte_away h howned hkeeps.1.1 haway htidy' hgranted hsafe).trans hbyte

/-- By induction on the events. -/
theorem byte_kept_run (h : Reachable k) (howned : Owned sharedPages k.spaces)
    (hkeeps : Along Kernel.step (ByteStays root addr) k events)
    (htidy : Tidy k events) (hgranted : (run Kernel.step k events).mem.AllocsGranted)
    (hlive : root ∈ liveRoots (run Kernel.step k events).ctxs) (hsafe : k.wp = false → dataStart ≤ addr)
    (hbyte : k.mem.phys.userByte root addr = some byte) :
      (run Kernel.step k events).mem.phys.userByte root addr = some byte := by
  induction events generalizing k with
  | nil => exact hbyte
  | cons event events ih =>
    obtain ⟨hhere, hrest⟩ := along_cons_iff.1 hkeeps
    obtain ⟨htidy₁, htidy₂⟩ := along_cons_iff.1 htidy
    have hgranted₁ : (Kernel.step event k).mem.AllocsGranted := hgranted.anti (onward_run _ events).le
    have hlive₁ := live_next (hrest.mono fun _ _ hkept ↦ hkept.1.1) hlive
    refine ih (h.step event) (owned_step h howned htidy₁ hgranted₁) hrest htidy₂ hgranted hlive (fun hbit ↦ hsafe ?_)
      (byte_kept h howned hhere htidy₁ hgranted₁ hlive₁ hsafe hbyte)
    rwa [(onward_step _ _).wp_eq] at hbit

/-- Reached from boot by a clean run. -/
def CleanlyReachable (k : Kernel) : Prop :=
  ∃ phys apicBase wp null events, Clean (Kernel.boot phys apicBase wp null) events ∧
    fullBoot phys apicBase wp null events = k

theorem CleanlyReachable.reachable (h : CleanlyReachable k) : Reachable k := by
  obtain ⟨phys, apicBase, wp, null, events, hclean, rfl⟩ := h
  exact ⟨phys, apicBase, wp, null, events, hclean.safe.run_eq⟩

theorem CleanlyReachable.owned (h : CleanlyReachable k) (hgranted : k.mem.AllocsGranted) :
    Owned sharedPages k.spaces := by
  obtain ⟨phys, apicBase, wp, null, events, hclean, rfl⟩ := h
  exact (hclean.reaches hgranted).2

theorem initProcess_clean : CleanlyReachable initProcess := by
  have hclean : Clean (Kernel.boot (fun _ _ ↦ 0) .reset true .zero) [launchInit] := by
    refine .of_data ?_ ?_
    · decide +kernel
    · decide +kernel
  exact ⟨_, _, _, _, _, hclean, hclean.safe.run_eq⟩

/-- A store that the page table permits. -/
theorem step_store_mapped (hmode : k.mode = .user) (hcanonical : Canonical addr) {mapping : Mapping}
    (hwalk : hwWalk k.mem.phys k.cr3 addr = some mapping) (hmay : mapping.UserMay true) (hplain : k.Plain mapping.pfn)
    (value : ℕ) :
    Kernel.step (.store addr value) k =
      { k with mem.phys := k.mem.phys.setByte mapping.pfn (addr % pageSize) value } := by
  rw [step_user hmode]
  have hput : putByteWith stopStore mapping addr value k =
      { k with mem.phys := k.mem.phys.setByte mapping.pfn (addr % pageSize) value } := if_pos ⟨hmay.1, hplain⟩
  have hkept : k.mode ≠ .corrupt := by
    rw [hmode]
    decide
  have hperformed : userProgram (.store addr value) k =
      .ret () { k with mem.phys := k.mem.phys.setByte mapping.pfn (addr % pageSize) value } := by
    simp only [userProgramWith, userStoreWith, userTouchWith, bind, Prog.bind, Prog.read,
      not_not.2 hcanonical, if_false, hwalk, hmay, if_true, Prog.update, hput]
    exact congrFun (if_neg hkept) _
  rw [Prog.final, hperformed]

/-- User code finds the byte that it stored. -/
theorem userByte_store (h : Reachable k) (hmode : k.mode = .user) (hmay : UserAccessible k.mem.phys k.cr3 addr true)
    (hgranted : (Kernel.step (.store addr value) k).mem.AllocsGranted) :
    (Kernel.step (.store addr value) k).mem.phys.userByte k.cr3 addr = some (value % 256) := by
  obtain ⟨hcanonical, mapping, hwalk, huser⟩ := hmay
  obtain ⟨_, i, hinUser⟩ := (h.inv (hgranted.anti (onward_step _ k).le)).inUser hmode
  have hpage := userPage_of_walk hcanonical hwalk huser.1
  have hstays : PageStays k.cr3 (addr / pageSize) k (.store addr value) :=
    ⟨hinUser.mem_liveRoots, fun _ ↦
      ⟨fun hgiven ↦ Event.noConfusion hgiven.1.1.choose_spec, fun hrenewed ↦ Event.noConfusion hrenewed.1⟩⟩
  have hstep := step_store_mapped hmode hcanonical hwalk huser (hinUser.plainPages addr mapping hwalk huser.1) value
  have hlive : k.cr3 ∈ liveRoots (Kernel.step (.store addr value) k).ctxs := by
    rw [hstep]
    exact hinUser.mem_liveRoots
  have hheld := page_held h hstays hgranted hlive ((spaces_page k.mem hinUser.mem_liveRoots _).trans hpage)
  have hpage' : (Kernel.step (.store addr value) k).mem.phys.userPage k.cr3 (addr / pageSize) = _ :=
    (spaces_page _ hlive _).symm.trans hheld
  unfold PhysMem.userByte
  rw [hpage', Option.map_some, hstep]
  exact congrArg some ((PhysMem.byteAt_setByte ..).trans (if_pos ⟨rfl, rfl⟩))

/-- A page that may be written begins at the DATA segment or above. -/
theorem dataStart_le_of_writable (howned : Owned sharedPages k.spaces) (hroot : root ∈ liveRoots k.ctxs)
    (hmay : UserAccessible k.mem.phys root addr true) : dataStart ≤ addr := by
  obtain ⟨hcanonical, mapping, hwalk, huser⟩ := hmay
  have hpage : k.spaces.page root (addr / pageSize) = _ :=
    (spaces_page k.mem hroot _).trans (userPage_of_walk hcanonical hwalk huser.1)
  by_contra hlow
  have hshared : addr / pageSize ∈ sharedPages := by
    change addr / pageSize * pageSize < dataStart
    simp only [pageSize]
    omega
  have hguarded : mapping.writable = false := howned.guarded hshared hpage
  rw [huser.2 rfl] at hguarded
  exact Bool.noConfusion hguarded

theorem byte_stored (h : Reachable k) (howned : Owned sharedPages k.spaces) (hmode : k.mode = .user)
    (hmay : UserAccessible k.mem.phys k.cr3 addr true) (htidy : Tidy k (.store addr value :: later))
    (hkeeps : Along Kernel.step (ByteStays k.cr3 addr) (Kernel.step (.store addr value) k) later)
    (hgranted : (run Kernel.step k (.store addr value :: later)).mem.AllocsGranted)
    (hlive : k.cr3 ∈ liveRoots (run Kernel.step k (.store addr value :: later)).ctxs) :
    (run Kernel.step k (.store addr value :: later)).mem.phys.userByte k.cr3 addr = some (value % 256) := by
  rw [run_cons] at hgranted hlive ⊢
  obtain ⟨htidy₁, htidy₂⟩ := along_cons_iff.1 htidy
  have hgranted₁ : (Kernel.step (.store addr value) k).mem.AllocsGranted := hgranted.anti (onward_run _ later).le
  have hgranted₀ : k.mem.AllocsGranted := hgranted₁.anti (onward_step _ k).le
  obtain ⟨_, i, hinUser⟩ := (h.inv hgranted₀).inUser hmode
  have hstored := userByte_store h hmode hmay hgranted₁
  have hsafe : (Kernel.step (.store addr value) k).wp = false → dataStart ≤ addr := fun _ ↦
    dataStart_le_of_writable howned hinUser.mem_liveRoots hmay
  have howned₁ := owned_step h howned htidy₁ hgranted₁
  exact byte_kept_run (h.step (.store addr value)) howned₁ hkeeps htidy₂ hgranted hlive hsafe hstored

/-- User code loads what it stored, after any later part of a clean run that does not store there again. -/
theorem userByte_stored (h : CleanlyReachable k) (hmode : k.mode = .user)
    (hmay : UserAccessible k.mem.phys k.cr3 addr true)
    (hclean : Clean k (.store addr value :: later))
    (hkeeps : Along fullStep (ByteStays k.cr3 addr) (fullStep (.store addr value) k) later)
    (hgranted : (run fullStep k (.store addr value :: later)).mem.AllocsGranted)
    (hlive : k.cr3 ∈ liveRoots (run fullStep k (.store addr value :: later)).ctxs) :
    (run fullStep k (.store addr value :: later)).mem.phys.userByte k.cr3 addr = some (value % 256) := by
  obtain ⟨hhere, hrest⟩ := along_cons_iff.1 hclean.safe
  have hkeeps' := (NoStrayStores.along_iff hrest).1 hkeeps
  rw [fullStep_eq hhere] at hkeeps'
  rw [hclean.safe.run_eq] at hgranted hlive ⊢
  have hgranted₀ : k.mem.AllocsGranted := hgranted.anti (onward_run k _).le
  exact byte_stored h.reachable (h.owned hgranted₀) hmode hmay hclean.tidy hkeeps' hgranted hlive

/-- Init stores, forks, and its child stores at the same address. -/
theorem userByte_stored_init :
    (run fullStep initProcess (.store dataStart 300 ::
      (callEvents 10 0 0 ++ [.tick, .store dataStart 5]))).mem.phys.userByte
      initProcess.cr3 dataStart = some (300 % 256) := by
  refine userByte_stored initProcess_clean ?_ ?_ (.of_data ?_ ?_) ?_ ?_ ?_
  · decide +kernel
  · decide +kernel
  · decide +kernel
  · decide +kernel
  · decide +kernel
  · unfold AllocsGranted
    decide +kernel
  · decide +kernel

end Bytes

section ReadOnly

/-- A load of a page that is not there yet, but may be. -/
theorem step_load_absent (hmode : k.mode = .user) (hcanonical : Canonical addr)
    (hwalk : hwWalk k.mem.phys k.cr3 addr = none) (hdemand : demandPaged k.ctx addr (pfError false false true) = true) :
    Kernel.step (.load addr) k =
      { k.notePageFault addr with mem := installPageTable k.ctx.pgd addr (pfError false false true) k.mem } := by
  rw [step_user hmode]
  have hfault : userProgram (.load addr) k = userPageFault addr (pfError false false true) k := by
    simp only [userProgramWith, userLoadWith, userTouchWith, bind, Prog.bind, Prog.read,
      not_not.2 hcanonical, if_false, hwalk]
  have hdemand' : demandPaged (k.notePageFault addr).ctx addr
      (pfError false false true) = true := hdemand
  rw [Prog.final, hfault]
  simp only [userPageFaultWith, doPageFault, bind, Prog.bind, Prog.read, Prog.update, hdemand', if_true]
  rfl

/-- The page is mapped without the right to write. -/
theorem userPage_load (h : Reachable k) (hmode : k.mode = .user) (hwalk : hwWalk k.mem.phys k.cr3 addr = none)
    (hdemand : demandPaged k.ctx addr (pfError false false true) = true)
    (hgranted : (Kernel.step (.load addr) k).mem.AllocsGranted) :
    ∃ pfn, (Kernel.step (.load addr) k).mem.phys.userPage k.cr3 (addr / pageSize) = some ⟨pfn, false⟩ := by
  obtain ⟨_, i, huser⟩ := (h.inv (hgranted.anti (onward_step _ k).le)).inUser hmode
  have haddr : UserAddr addr := by
    rw [huser.ctx_eq] at hdemand
    exact huser.context_ok.userAddr_of_demand hdemand
  have hcanonical : Canonical addr := Or.inl (haddr.2.trans (by norm_num))
  rw [step_load_absent hmode hcanonical hwalk hdemand] at hgranted ⊢
  change (installPageTable k.ctx.pgd addr (pfError false false true) k.mem).AllocsGranted at hgranted
  obtain ⟨pfn, hmaps⟩ := huser.mapsFresh hdemand hgranted
  change ∃ pfn, (installPageTable k.ctx.pgd addr (pfError false false true) k.mem).phys.userPage k.cr3
    (addr / pageSize) = _
  rw [huser.pgd_eq] at hmaps ⊢
  have hentry := hmaps.pages k.cr3 (tablePath addr) (pteIndex addr) huser.root rfl
  rw [if_pos ⟨rfl, rfl, rfl⟩] at hentry
  refine ⟨pfn, ?_⟩
  rw [hmaps.toMapsPage.userPage huser.sound.tables (userFlags_pageTableStyle _) haddr huser.root, if_pos ⟨rfl, rfl⟩,
    pathWritable_of_entry hentry]

/-- A store through a mapping that does not permit it ends a process without a handler. -/
theorem step_store_refused (hmode : k.mode = .user) (hcanonical : Canonical addr) {mapping : Mapping}
    (hwalk : hwWalk k.mem.phys k.cr3 addr = some mapping) (hmay : ¬ mapping.UserMay true)
    (hhandler : k.ctx.sighandlers .sigsegv = 0) (store : KernelStore) (value : ℕ) :
    stepWith store (.store addr value) k = (k.notePageFault addr).doExit := by
  rw [stepWith_user hmode]
  have hfault : userProgramWith store (.store addr value) k =
      userPageFaultWith store addr (pfError true true true) k := by
    simp only [userProgramWith, userStoreWith, userTouchWith, bind, Prog.bind, Prog.read,
      not_not.2 hcanonical, if_false, hwalk, hmay]
  have hdemand := not_demandPaged_present (k.notePageFault addr).ctx addr true true
  have hhandler' : (k.notePageFault addr).ctx.sighandlers .sigsegv = 0 := hhandler
  rw [Prog.final, hfault]
  simp only [userPageFaultWith, doPageFault, bind, Prog.bind, Prog.read, Prog.update, hdemand,
    Bool.false_eq_true, if_false,
    signalRunningWith, invokeSyncSignal, hhandler', ne_eq, reduceCtorEq, not_false_eq_true,
      and_self, if_true, Prog.leave]

/-- User code may load from the page, but a store there ends a process that has no handler for the fault. -/
structure LoadOnly (root page : ℕ) (k : Kernel) : Prop where
  loads : ∀ addr, addr / pageSize = page → UserAccessible k.mem.phys root addr false
  no_store : ∀ addr, addr / pageSize = page → ¬ UserAccessible k.mem.phys root addr true
  store_ends : ∀ addr value, addr / pageSize = page → k.mode = .user → k.cr3 = root → k.ctx.sighandlers .sigsegv = 0 →
    fullStep (.store addr value) k = (k.notePageFault addr).doExit

theorem readOnly_of_userPage {pfn : ℕ} (hmapped : k.mem.phys.userPage root page = some ⟨pfn, false⟩) :
    LoadOnly root page k := by
  have hread : ∀ addr, addr / pageSize = page → UserAccessible k.mem.phys root addr false := by
    rintro addr rfl
    exact (userAccessible_iff_userPage ..).2 ⟨_, hmapped, fun hwrite ↦ Bool.noConfusion hwrite⟩
  have hwrite : ∀ addr, addr / pageSize = page → ¬ UserAccessible k.mem.phys root addr true := by
    rintro addr rfl haccess
    obtain ⟨backing, hbacking, hright⟩ := (userAccessible_iff_userPage ..).1 haccess
    rw [hmapped] at hbacking
    rw [← Option.some.inj hbacking] at hright
    exact Bool.noConfusion (hright rfl)
  refine ⟨hread, hwrite, fun addr value hpage hmode hcr3 hhandler ↦ ?_⟩
  obtain ⟨hcanonical, mapping, hwalk, -⟩ := hread addr hpage
  have hmay : ¬ mapping.UserMay true := fun hmay ↦ hwrite addr hpage ⟨hcanonical, mapping, hwalk, hmay⟩
  rw [← hcr3] at hwalk
  exact step_store_refused hmode hcanonical hwalk hmay hhandler followStore value

theorem loadOnly_of_load (h : Reachable k) (hmode : k.mode = .user) (hwalk : hwWalk k.mem.phys k.cr3 addr = none)
    (hdemand : demandPaged k.ctx addr (pfError false false true) = true)
    (hstays : Along Kernel.step (PageStays k.cr3 (addr / pageSize)) (Kernel.step (.load addr) k) later)
    (hgranted : (run Kernel.step k (.load addr :: later)).mem.AllocsGranted)
    (hlive : k.cr3 ∈ liveRoots (run Kernel.step k (.load addr :: later)).ctxs) :
    LoadOnly k.cr3 (addr / pageSize) (run Kernel.step k (.load addr :: later)) := by
  have hgranted₁ : (Kernel.step (.load addr) k).mem.AllocsGranted := hgranted.anti (onward_run _ later).le
  obtain ⟨pfn, hmapped⟩ := userPage_load h hmode hwalk hdemand hgranted₁
  have hroot := live_next (hstays.mono fun _ _ ↦ And.left) hlive
  have hheld := page_held_run (h.step (.load addr)) hstays hgranted hlive ((spaces_page _ hroot _).trans hmapped)
  exact readOnly_of_userPage ((spaces_page _ hlive _).symm.trans hheld)

/-- In a run without stray stores, a page that was first touched by a load cannot be written until it is given up or
renewed. -/
theorem readOnly_of_load (h : SafelyReachable k) (hmode : k.mode = .user) (hwalk : hwWalk k.mem.phys k.cr3 addr = none)
    (hdemand : demandPaged k.ctx addr (pfError false false true) = true) (hsafe : NoStrayStores k (.load addr :: later))
    (hstays : Along fullStep (PageStays k.cr3 (addr / pageSize)) (fullStep (.load addr) k) later)
    (hgranted : (run fullStep k (.load addr :: later)).mem.AllocsGranted)
    (hlive : k.cr3 ∈ liveRoots (run fullStep k (.load addr :: later)).ctxs) :
    LoadOnly k.cr3 (addr / pageSize) (run fullStep k (.load addr :: later)) := by
  obtain ⟨hhere, hrest⟩ := along_cons_iff.1 hsafe
  have hstays' := (NoStrayStores.along_iff hrest).1 hstays
  rw [fullStep_eq hhere] at hstays'
  rw [hsafe.run_eq] at hgranted hlive ⊢
  exact loadOnly_of_load h.reachable hmode hwalk hdemand hstays' hgranted hlive

/-- Init grows its DATA segment by a page, loads from it, and forks. -/
theorem readOnly_of_load_init :
    let k := run fullStep blankBoot (launchInit :: callEvents 4 1 1)
    LoadOnly k.cr3 ((dataStart + pageSize) / pageSize)
      (run fullStep k (.load (dataStart + pageSize) :: (callEvents 10 0 0 ++ [.tick, .store dataStart 5, .tick]))) := by
  refine readOnly_of_load (safelyReachable_blankBoot (launchInit :: callEvents 4 1 1) ?_) ?_ ?_ ?_ ?_ ?_ ?_ ?_
  · decide +kernel
  · decide +kernel
  · decide +kernel
  · decide +kernel
  · decide +kernel
  · decide +kernel
  · unfold AllocsGranted
    decide +kernel
  · decide +kernel

end ReadOnly

end GemOS
