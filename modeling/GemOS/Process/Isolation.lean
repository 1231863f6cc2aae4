import GemOS.Process.LaunchActs
import GemOS.Process.Whole

/-!
# Isolation of the processes

In a run whose shrinks give up no frame that another space has, the frames stay apart: a page of DATA or STACK has its
frame to itself, and the pages below are read-only wherever they are mapped. A process that does not run keeps its
translations in any run, and in such a run the contents of its pages as well, except that pages below the DATA segment
rest on the write-protect bit: without it the kernel stores signal frames through read-only pages. All of it is about
runs without stray stores, which can change any page table and any frame.
-/

namespace GemOS

open Foundation Memory Kernel AddrSpaces

variable {phys : PhysMem} {apicBase : ApicBase} {wp : Bool} {null : ExecContext}
  {events later : List Event} {k k' : Kernel}
  {i j : Fin maxProcesses} {event : Event} {root page page' : ℕ} {backing backing' : Backing ℕ}

/-- Each event that a reachable state meets is a history of acts of the process that runs, when its allocations are
granted. -/
theorem Reachable.acts_step (h : Reachable k) (event : Event) (hgranted : (Kernel.step event k).mem.AllocsGranted) :
    Acts (rights event k) k (Kernel.step event k) :=
  GemOS.acts_step (h.inv (hgranted.anti (onward_step event k).le)) event hgranted

/-- So it is for the whole machine, unless the event stores in memory of the kernel. -/
theorem step_refines (h : SafelyReachable k) (event : Event) (hsafe : ¬ StrayStore event k)
    (hgranted : (fullStep event k).mem.AllocsGranted) : Acts (rights event k) k (fullStep event k) := by
  rw [fullStep_eq hsafe] at hgranted ⊢
  exact h.reachable.acts_step event hgranted

theorem step_refines_tick :
    Acts (rights .tick (run fullStep blankBoot [launchInit])) (run fullStep blankBoot [launchInit])
      (fullStep .tick (run fullStep blankBoot [launchInit])) := by
  refine step_refines (safelyReachable_blankBoot [launchInit] ?_) .tick ?_ ?_
  · decide +kernel
  · decide +kernel
  · unfold AllocsGranted
    decide +kernel

theorem Reachable.step (h : Reachable k) (event : Event) : Reachable (Kernel.step event k) := h.run [event]

section Apart

/-- No process is live after boot. -/
theorem liveRoots_boot : liveRoots (Kernel.boot phys apicBase wp null).ctxs = ∅ := by
  ext root
  refine iff_of_false ?_ (Set.notMem_empty root)
  rintro ⟨i, hlive, -⟩
  exact (table_boot phys apicBase wp null).empty rfl |>.2 i hlive

theorem owned_boot : Owned sharedPages (Kernel.boot phys apicBase wp null).spaces := by
  refine .of_blank fun space page ↦ spaces_page_of_not_mem _ ?_ page
  rw [liveRoots_boot]
  exact Set.notMem_empty space

theorem owned_step (h : Reachable k) (howned : Owned sharedPages k.spaces) (htidy : GivesOwn event k)
    (hgranted : (Kernel.step event k).mem.AllocsGranted) : Owned sharedPages (Kernel.step event k).spaces := by
  exact howned.evolves htidy (h.acts_step event hgranted)

/-- Each shrink of the run gives up frames that no other space has. -/
abbrev Tidy (k : Kernel) (events : List Event) : Prop := Along Kernel.step (fun k event ↦ GivesOwn event k) k events

theorem owned_run (h : Reachable k) (howned : Owned sharedPages k.spaces) (htidy : Tidy k events)
    (hgranted : (run Kernel.step k events).mem.AllocsGranted) :
      Owned sharedPages (run Kernel.step k events).spaces := by
  have hinv : Reachable (run Kernel.step k events) ∧ Owned sharedPages (run Kernel.step k events).spaces := by
    refine Along.invariant_under (G := fun k ↦ k.mem.AllocsGranted) (I := fun k ↦ Reachable k ∧
      Owned sharedPages k.spaces)
      (fun event k ↦ (onward_step event k).le) (fun hle hgranted ↦ hgranted.anti hle) htidy
      (And.intro h howned) (fun k event hk hgives hgranted ↦ ?_) hgranted
    exact ⟨hk.1.step event, owned_step hk.1 hk.2 hgives hgranted⟩
  exact hinv.2

theorem owned_afterBoot (htidy : Tidy (Kernel.boot phys apicBase wp null) events)
    (hgranted : (afterBoot phys apicBase wp null events).mem.AllocsGranted) :
    Owned sharedPages (afterBoot phys apicBase wp null events).spaces :=
  owned_run (.boot phys apicBase wp null) owned_boot htidy hgranted

theorem Live.mem_liveRoots (hlive : Live k.ctxs i) : (k.ctxs (some i)).pgd ∈ liveRoots k.ctxs := ⟨i, hlive, rfl⟩

/-- A live process has the pages of its page table. -/
theorem spaces_page_of_live (hlive : Live k.ctxs i) (page : ℕ) :
    k.spaces.page (k.ctxs (some i)).pgd page = k.mem.phys.userPage (k.ctxs (some i)).pgd page :=
  spaces_page k.mem hlive.mem_liveRoots page

/-- The live process finds the page with this frame behind it. -/
def Finds (k : Kernel) (i : Fin maxProcesses) (page : ℕ) (backing : Backing ℕ) : Prop :=
  Live k.ctxs i ∧ k.mem.phys.userPage (k.ctxs (some i)).pgd page = some backing

theorem Finds.page_eq (h : Finds k i page backing) : k.spaces.page (k.ctxs (some i)).pgd page = some backing :=
  (spaces_page_of_live h.1 page).trans h.2

theorem Finds.maps (h : Finds k i page backing) : k.spaces.Maps (k.ctxs (some i)).pgd page backing.frame :=
  ⟨backing, h.page_eq, rfl⟩

/-- Frames behind pages are in use and back one page only, in one space unless the page lies below the DATA segment,
where it cannot be written. -/
structure FramesApart (k : Kernel) : Prop where
  allocated : ∀ i page backing, Finds k i page backing → k.mem.allocated .user backing.frame = true
  read_only : ∀ i page backing, Finds k i page backing → pageAddr page < dataStart → backing.write = false
  page_inj : ∀ i j page page' backing backing', Finds k i page backing → Finds k j page' backing' →
    backing.frame = backing'.frame → page = page'
  apart : ∀ i j page backing backing', Finds k i page backing → Finds k j page backing' → dataStart ≤ pageAddr page →
    backing.frame = backing'.frame → (k.ctxs (some i)).pgd = (k.ctxs (some j)).pgd

theorem framesApart_of_owned (howned : Owned sharedPages k.spaces) : FramesApart k := by
  constructor
  case allocated => exact fun i page backing hfinds ↦ howned.used hfinds.maps
  case read_only => exact fun i page backing hfinds hlow ↦ howned.guarded hlow hfinds.page_eq
  case page_inj =>
    intro i j page page' backing backing' hfinds hfinds' hframe
    exact howned.page_inj hfinds.maps (hframe ▸ hfinds'.maps)
  case apart =>
    intro i j page backing backing' hfinds hfinds' hhigh hframe
    exact howned.apart (not_lt.2 hhigh) hfinds.maps (hframe ▸ hfinds'.maps)

/-- A run of the whole machine that does not store in memory of the kernel and gives up no frame that another
space has. -/
structure Clean (k : Kernel) (events : List Event) : Prop where
  safe : NoStrayStores k events
  gives_own : Along fullStep (fun k event ↦ GivesOwn event k) k events

theorem Clean.tidy (h : Clean k events) : Tidy k events := h.safe.along_iff.1 h.gives_own

theorem Clean.of_append (h : Clean k (events ++ later)) : Clean k events ∧ Clean (run fullStep k events) later := by
  obtain ⟨hsafe, hsafe'⟩ := along_append_iff.1 h.safe
  obtain ⟨hgives, hgives'⟩ := along_append_iff.1 h.gives_own
  exact ⟨⟨hsafe, hgives⟩, hsafe', hgives'⟩

/-- A clean run leads to a state with owned frames that the other machine reaches too. -/
theorem Clean.reaches (hclean : Clean (Kernel.boot phys apicBase wp null) events)
    (hgranted : (fullBoot phys apicBase wp null events).mem.AllocsGranted) :
    Reachable (fullBoot phys apicBase wp null events) ∧
      Owned sharedPages (fullBoot phys apicBase wp null events).spaces := by
  have hrun : fullBoot phys apicBase wp null events = afterBoot phys apicBase wp null events := hclean.safe.run_eq
  rw [hrun] at hgranted ⊢
  exact ⟨⟨phys, apicBase, wp, null, events, rfl⟩, owned_afterBoot hclean.tidy hgranted⟩

/-- The frames stay apart in a clean run. -/
theorem framesApart_of_tidy (hclean : Clean (Kernel.boot phys apicBase wp null) events)
    (hgranted : (fullBoot phys apicBase wp null events).mem.AllocsGranted) :
    FramesApart (fullBoot phys apicBase wp null events) :=
  framesApart_of_owned (hclean.reaches hgranted).2

/-- A shrink of the DATA segment gives up pages that are not shared. -/
def ShrinksData (k : Kernel) (event : Event) : Prop :=
  Asks event k .shrink → ∀ addr ∈ k.shrunkPages k.regs.rsi k.regs.rdx, dataStart ≤ addr

instance (k : Kernel) (event : Event) : Decidable (ShrinksData k event) := by
  unfold ShrinksData
  infer_instance

theorem Clean.of_data (hsafe : NoStrayStores k events) (h : Along fullStep ShrinksData k events) : Clean k events :=
  ⟨hsafe, h.mono fun _ _ hdata hasks addr haddr hlow ↦ absurd hlow (not_lt.2 (hdata hasks addr haddr))⟩

/-- Init grows its DATA segment by a page, touches it, forks and gives the page up again. -/
def growForkShrink : List Event :=
  launchInit :: callEvents 4 1 1 ++ [.store (dataStart + pageSize) 7] ++ callEvents 10 0 0 ++ callEvents 5 1 1

theorem framesApart_of_tidy_shrink : FramesApart (fullBoot (fun _ _ ↦ 0) .reset true .zero growForkShrink) := by
  refine framesApart_of_tidy (.of_data ?_ ?_) ?_
  · decide +kernel
  · decide +kernel
  · unfold AllocsGranted
    decide +kernel

/-- The same with a page of RODATA, which the child has from the fork. -/
def growForkShrinkShared : List Event :=
  launchInit :: callEvents 4 1 0 ++ [.load rodataStart] ++ callEvents 10 0 0 ++ callEvents 5 1 0

/-- The frame is given up under the child. -/
theorem shrinkShared_not_apart : ¬ FramesApart (fullBoot (fun _ _ ↦ 0) .reset true .zero growForkShrinkShared) := by
  intro hapart
  have hlive : Live (fullBoot (fun _ _ ↦ 0) .reset true .zero growForkShrinkShared).ctxs ⟨2, by decide⟩ := by
    unfold Live
    decide +kernel
  have hpage : ((fullBoot (fun _ _ ↦ 0) .reset true .zero growForkShrinkShared).mem.phys.userPage
      ((fullBoot (fun _ _ ↦ 0) .reset true .zero growForkShrinkShared).ctxs (some ⟨2, by decide⟩)).pgd
      (rodataStart / pageSize)).map Backing.frame = some 25614 := by decide +kernel
  obtain ⟨backing, hbacking, hframe⟩ := Option.map_eq_some_iff.1 hpage
  have hused := hapart.allocated _ _ backing ⟨hlive, hbacking⟩
  have hfree : (fullBoot (fun _ _ ↦ 0) .reset true .zero growForkShrinkShared).mem.allocated .user 25614 = false := by
    decide +kernel
  rw [hframe, hfree] at hused
  exact Bool.noConfusion hused

end Apart

section Away

/-- Before each event of the run another page table is in use. -/
abbrev Away (root : ℕ) (k : Kernel) (events : List Event) : Prop := Along Kernel.step (fun k _ ↦ k.cr3 ≠ root) k events

/-- What all parties together may do that leave this space alone. -/
def rightsBut (root : ℕ) (tidy strict : Prop) : Rights ℕ ℕ ℕ where
  theirs := {root}
  known := {root}
  theirs_sub := subset_rfl
  given := Set.univ
  renewed := Set.univ
  stored := Set.univ
  tidy := tidy
  strict := strict

/-- A space whose page table is not in use is not acted on; by induction on the events. -/
theorem acts_away {tidy : Prop} (h : Reachable k) (hroot : root ∈ liveRoots k.ctxs) (haway : Away root k events)
    (htidy : tidy → Tidy k events) (hgranted : (run Kernel.step k events).mem.AllocsGranted) :
    root ∈ liveRoots (run Kernel.step k events).ctxs ∧
      Acts (rightsBut root tidy (k.wp = true)) k (run Kernel.step k events) := by
  induction events generalizing k with
  | nil => exact ⟨hroot, .refl⟩
  | cons event events ih =>
    obtain ⟨hne, haway'⟩ := along_cons_iff.1 haway
    have hgranted₁ : (Kernel.step event k).mem.AllocsGranted := hgranted.anti (onward_run _ events).le
    have hwithin : (rights event k).Within (rightsBut root tidy (k.wp = true)) :=
      { theirs := Set.singleton_subset_iff.2 ⟨hroot, fun heq ↦ hne heq.symm⟩
        known := Set.singleton_subset_iff.2 hroot
        given := Set.subset_univ _
        renewed := Set.subset_univ _
        stored := Set.subset_univ _
        tidy := fun ht ↦ (along_cons_iff.1 (htidy ht)).1
        strict := id }
    have hfirst : Acts (rightsBut root tidy (k.wp = true)) k (Kernel.step event k) :=
      Evolves.mono (h.acts_step event hgranted₁) hwithin
    have hroot₁ : root ∈ liveRoots (Kernel.step event k).ctxs := Evolves.live hfirst (Set.mem_singleton root) hroot
    have hrest := ih (h.step event) hroot₁ haway' (fun ht ↦ (along_cons_iff.1 (htidy ht)).2) hgranted
    rw [(onward_step _ _).wp_eq] at hrest
    exact ⟨hrest.1, hfirst.trans hrest.2⟩

theorem page_away (h : Reachable k) (hlive : Live k.ctxs i) (haway : Away (k.ctxs (some i)).pgd k events)
    (hgranted : (run Kernel.step k events).mem.AllocsGranted) (page : ℕ) :
    (run Kernel.step k events).mem.phys.userPage (k.ctxs (some i)).pgd page =
      k.mem.phys.userPage (k.ctxs (some i)).pgd page := by
  obtain ⟨hroot, hacts⟩ := acts_away h hlive.mem_liveRoots haway False.elim hgranted
  have hsame := congrFun (Evolves.page_eq hacts (Set.mem_singleton _)) page
  calc (run Kernel.step k events).mem.phys.userPage (k.ctxs (some i)).pgd page
    _ = (run Kernel.step k events).spaces.page (k.ctxs (some i)).pgd page := (spaces_page _ hroot page).symm
    _ = k.spaces.page (k.ctxs (some i)).pgd page := hsame
    _ = k.mem.phys.userPage (k.ctxs (some i)).pgd page := spaces_page_of_live hlive page

/-- The translations of a process are those it left behind, whatever the others do without stray stores. -/
theorem userPage_away (h : SafelyReachable k) (hlive : Live k.ctxs i) (hsafe : NoStrayStores k events)
    (haway : Along fullStep (fun k' _ ↦ k'.cr3 ≠ (k.ctxs (some i)).pgd) k events)
    (hgranted : (run fullStep k events).mem.AllocsGranted) (page : ℕ) :
    (run fullStep k events).mem.phys.userPage (k.ctxs (some i)).pgd page =
      k.mem.phys.userPage (k.ctxs (some i)).pgd page := by
  rw [hsafe.run_eq] at hgranted ⊢
  exact page_away h.reachable hlive (hsafe.along_iff.1 haway) hgranted page

/-- While the parent runs. -/
theorem userPage_away_child :
    (run fullStep (run fullStep blankBoot (launchInit :: callEvents 10 0 0))
        (.store dataStart 5 :: callEvents 4 1 1)).mem.phys.userPage
        ((run fullStep blankBoot (launchInit :: callEvents 10 0 0)).ctxs (some ⟨2, by decide⟩)).pgd
          (dataStart / pageSize) =
      (run fullStep blankBoot (launchInit :: callEvents 10 0 0)).mem.phys.userPage
        ((run fullStep blankBoot (launchInit :: callEvents 10 0 0)).ctxs (some ⟨2, by decide⟩)).pgd
        (dataStart / pageSize) := by
  refine userPage_away (safelyReachable_blankBoot _ ?_) ?_ ?_ ?_ ?_ _
  · decide +kernel
  · unfold Live
    decide +kernel
  · decide +kernel
  · decide +kernel
  · unfold AllocsGranted
    decide +kernel

/-- The byte that user mode reads at an address. -/
def PhysMem.userByte (phys : PhysMem) (root addr : ℕ) : Option ℕ :=
  (phys.userPage root (addr / pageSize)).map fun backing ↦ phys.byteAt backing.frame (addr % pageSize)

/-- It is found in the spaces. -/
theorem Sound.userByte_eq {intact : Fin maxProcesses → Prop} {roots : ℕ → Prop}
    (h : Sound intact roots k.mem k.ctxs k.current) (hroot : root ∈ liveRoots k.ctxs) (addr : ℕ) :
    k.mem.phys.userByte root addr = (k.spaces.page root (addr / pageSize)).map fun backing ↦
      k.spaces.data backing.frame (addr % pageSize) := by
  have hpage : k.spaces.page root (addr / pageSize) = _ := spaces_page k.mem hroot (addr / pageSize)
  rw [hpage]
  unfold PhysMem.userByte
  rcases h.tables.userPage_cases (h.liveRoots_sub root hroot) (addr / pageSize) with
    ⟨-, hnone⟩ | ⟨pfn, _, -, husable, -, -, hsome⟩
  · rw [hnone]
    rfl
  · have hplain : ¬ Region.osPt.Contains pfn := fun hpt ↦ Region.noConfusion (husable.contains.eq hpt)
    rw [hsome, Option.map_some, Option.map_some, Kernel.spaces, spaces_data _ hplain]

/-- In a tidy run the process finds the bytes that it left. -/
theorem byte_away (h : Reachable k) (howned : Owned sharedPages k.spaces) (hroot : root ∈ liveRoots k.ctxs)
    (haway : Away root k events) (htidy : Tidy k events)
    (hgranted : (run Kernel.step k events).mem.AllocsGranted) {addr : ℕ}
    (hsafe : k.wp = false → dataStart ≤ addr) :
    (run Kernel.step k events).mem.phys.userByte root addr = k.mem.phys.userByte root addr := by
  have htidy' : True → Tidy k events := fun _ ↦ htidy
  obtain ⟨hroot', hacts⟩ := acts_away h hroot haway htidy' hgranted
  obtain ⟨_, hsound⟩ := (h.inv (hgranted.anti (onward_run k events).le)).sound
  obtain ⟨_, hsound'⟩ := ((h.run events).inv hgranted).sound
  have hpage := congrFun (Evolves.page_eq hacts (Set.mem_singleton root)) (addr / pageSize)
  rw [hsound.userByte_eq hroot, hsound'.userByte_eq hroot', hpage]
  rcases hmapped : k.spaces.page root (addr / pageSize) with _ | backing
  · rfl
  · -- the safe addresses begin with a page
    have hsafe' : addr / pageSize ∉ sharedPages ∨ k.wp = true := by
      cases hbit : k.wp with
      | true => exact Or.inr rfl
      | false =>
        have hhigh := hsafe hbit
        have haligned : dataStart % 4096 = 0 := by decide
        refine Or.inl fun hlow ↦ ?_
        simp only [sharedPages, pageAddr, pageSize, Set.mem_ofPred_eq] at hlow
        omega
    have hframe := hacts.data_eq howned trivial (Set.mem_singleton root) hsafe' ⟨backing, hmapped, rfl⟩
    rw [Option.map_some, Option.map_some, hframe]

/-- What user mode reads in a space is what the process left there, when the others run a clean course: at every
address with the write-protect bit set, and from the DATA segment on without it. -/
theorem userByte_away (hclean : Clean (Kernel.boot phys apicBase wp null) (events ++ later))
    (hlive : Live (fullBoot phys apicBase wp null events).ctxs i)
    (haway : Along fullStep (fun k _ ↦ k.cr3 ≠ ((fullBoot phys apicBase wp null events).ctxs (some i)).pgd)
      (fullBoot phys apicBase wp null events) later)
    (hgranted : (fullBoot phys apicBase wp null (events ++ later)).mem.AllocsGranted) {addr : ℕ}
    (hsafe : wp = false → dataStart ≤ addr) :
    (fullBoot phys apicBase wp null (events ++ later)).mem.phys.userByte
        ((fullBoot phys apicBase wp null events).ctxs (some i)).pgd addr =
      (fullBoot phys apicBase wp null events).mem.phys.userByte
        ((fullBoot phys apicBase wp null events).ctxs (some i)).pgd addr := by
  obtain ⟨hfirst, hsecond⟩ := hclean.of_append
  have hrun : fullBoot phys apicBase wp null events = afterBoot phys apicBase wp null events := hfirst.safe.run_eq
  have hsplit : fullBoot phys apicBase wp null (events ++ later) =
      run Kernel.step (afterBoot phys apicBase wp null events) later :=
    hclean.safe.run_eq.trans (run_append _ _ _)
  have haway' : Away ((fullBoot phys apicBase wp null events).ctxs (some i)).pgd
      (fullBoot phys apicBase wp null events) later :=
    hsecond.safe.along_iff.1 haway
  have htidy' : Tidy (fullBoot phys apicBase wp null events) later := hsecond.tidy
  have hwp : (afterBoot phys apicBase wp null events).wp = wp := (onward_run _ events).wp_eq
  rw [hrun] at hlive haway' htidy'
  rw [hsplit] at hgranted
  rw [hsplit, hrun]
  have howned := owned_afterBoot hfirst.tidy (hgranted.anti (onward_run _ later).le)
  exact byte_away ⟨phys, apicBase, wp, null, events, rfl⟩ howned hlive.mem_liveRoots haway' htidy' hgranted fun hbit ↦
    hsafe (hwp.symm.trans hbit)

theorem userByte_away_child :
    (fullBoot (fun _ _ ↦ 0) .reset false .zero (launchInit :: callEvents 10 0 0 ++
      [.store dataStart 5])).mem.phys.userByte
        ((fullBoot (fun _ _ ↦ 0) .reset false .zero (launchInit :: callEvents 10 0 0)).ctxs (some ⟨2, by decide⟩)).pgd
        dataStart =
      (fullBoot (fun _ _ ↦ 0) .reset false .zero (launchInit :: callEvents 10 0 0)).mem.phys.userByte
        ((fullBoot (fun _ _ ↦ 0) .reset false .zero (launchInit :: callEvents 10 0 0)).ctxs (some ⟨2, by decide⟩)).pgd
        dataStart := by
  refine userByte_away (.of_data ?_ ?_) ?_ ?_ ?_ fun _ ↦ le_rfl
  · decide +kernel
  · decide +kernel
  · unfold Live
    decide +kernel
  · decide +kernel
  · unfold AllocsGranted
    decide +kernel

end Away

end GemOS
