import GemOS.Process.ProcessActs

/-!
# The pages of a fork as acts

`copy_mm` founds a space, lends it the CODE and RODATA pages of the parent and copies the DATA and STACK pages. Each
page comes once, so that the child has nothing there yet (`Unvisited`). A copy that faults ends the walk with the page
taken and not copied; the acts up to that point are the same.
-/

namespace GemOS

open Foundation TableForest Memory Kernel AddrSpaces

variable {roots : ℕ → Prop} {live : Set ℕ} {R : Rights ℕ ℕ ℕ} {parent child : ℕ} {m m₁ m' : Memory} {addr : ℕ}
  {addrs addrs' : List ℕ} {k k' : Kernel}

/-- The child has none of these pages, which are all different. -/
structure Unvisited (child : ℕ) (addrs : List ℕ) (m : Memory) : Prop where
  user : ∀ addr ∈ addrs, UserAddr addr
  apart : addrs.Pairwise fun addr other ↦ addr / 4096 ≠ other / 4096
  vacant : ∀ addr ∈ addrs, m.phys.pageEntry child addr = 0

/-- Pages at these addresses came below the child's root, and nothing else changed below any root. -/
structure Fills (roots : ℕ → Prop) (child : ℕ) (addrs : List ℕ) (m m' : Memory) : Prop where
  fosters : Fosters roots child m m'
  others : ∀ addr, UserAddr addr → (∀ other ∈ addrs, addr / 4096 ≠ other / 4096) →
    m'.phys.pageEntry child addr = m.phys.pageEntry child addr

namespace Fills

theorem refl (h : Tables roots m) (addrs : List ℕ) : Fills roots child addrs m m := ⟨.refl h, fun _ _ _ ↦ rfl⟩

theorem append (first : Fills roots child addrs m m₁) (second : Fills roots child addrs' m₁ m') :
    Fills roots child (addrs ++ addrs') m m' where
  fosters := first.fosters.trans second.fosters
  others addr haddr hother :=
    (second.others addr haddr fun other hmem ↦ hother other (List.mem_append_right addrs hmem)).trans
      (first.others addr haddr fun other hmem ↦ hother other (List.mem_append_left addrs' hmem))

theorem tables (h : Fills roots child addrs m m') : Tables roots m' := h.fosters.carries.tables

/-- The pages still to come are not visited yet. -/
theorem unvisited (h : Fills roots child addrs m m') (hnew : Unvisited child (addrs ++ addrs') m) :
    Unvisited child addrs' m' := by
  obtain ⟨-, hlater, hcross⟩ := List.pairwise_append.1 hnew.apart
  refine ⟨fun addr hmem ↦ hnew.user addr (List.mem_append_right addrs hmem), hlater, fun addr hmem ↦ ?_⟩
  have hmem' := List.mem_append_right addrs hmem
  rw [h.others addr (hnew.user addr hmem') fun other hother ↦ (hcross other hother addr hmem).symm]
  exact hnew.vacant addr hmem'

/-- One page is mapped. -/
theorem of_mapsPage {pfn flags linkFlags : ℕ} (hmaps : MapsPage roots m m' child addr pfn flags linkFlags)
    (hflags : UserFlags flags) (haddr : UserAddr addr) (hread : addr < dataStart → flags = 0x5) (hchild : roots child) :
    Fills roots child [addr] m m' where
  fosters := .of_mapsPage hmaps (.of_mapsPage hmaps hflags haddr hread)
  others other hother hne := by
    have hpage := hne addr (List.mem_singleton_self addr)
    have hlow := haddr.2
    have hlow' := hother.2
    rw [PhysMem.pageEntry, hmaps.pages child _ _ hchild rfl, if_neg]
    · rfl
    · exact fun hand ↦ hpage ((indices_eq_iff (by omega) (by omega)).1 hand.2)

/-- Then a frame of user data is overwritten. -/
theorem copied (h : Fills roots child addrs m m') (hchild : roots child) {pfn : ℕ}
    (hpfn : Region.user.Usable pfn) (src : ℕ) :
    Fills roots child addrs m { m' with phys := m'.phys.copy pfn src } where
  fosters := h.fosters.trans (.of_copy h.tables hpfn src)
  others other hother hne :=
    (entry_copy h.tables hpfn hchild (by simp [tablePath]) _).trans (h.others other hother hne)

end Fills

/-- The pages came by acts. -/
structure Raises (roots : ℕ → Prop) (live : Set ℕ) (R : Rights ℕ ℕ ℕ) (child : ℕ) (addrs : List ℕ)
    (m m' : Memory) : Prop extends Fills roots child addrs m m' where
  acts : Evolves sharedPages R (m.spaces live) (m'.spaces live)

theorem Raises.append (first : Raises roots live R child addrs m m₁)
    (second : Raises roots live R child addrs' m₁ m') :
    Raises roots live R child (addrs ++ addrs') m m' :=
  ⟨first.toFills.append second.toFills, first.acts.trans second.acts⟩

/-- The pages came from those of the parent. -/
structure Bequeaths (roots : ℕ → Prop) (live : Set ℕ) (parent child : ℕ) (addrs : List ℕ) (m m' : Memory) : Prop
    extends Fills roots child addrs m m' where
  clones : Clones sharedPages parent child (addrs.map fun addr ↦ addr / pageSize) (m.spaces live) (m'.spaces live)

namespace Bequeaths

theorem refl (h : Tables roots m) : Bequeaths roots live parent child [] m m := ⟨.refl h [], .nil _⟩

theorem append (first : Bequeaths roots live parent child addrs m m₁)
    (second : Bequeaths roots live parent child addrs' m₁ m') :
    Bequeaths roots live parent child (addrs ++ addrs') m m' := by
  refine ⟨first.toFills.append second.toFills, ?_⟩
  rw [List.map_append]
  exact first.clones.append second.clones

theorem raises (h : Bequeaths roots live parent child addrs m m') (hchild : child ∈ live)
    (hparentMine : parent ∉ R.theirs)
    (hchildMine : child ∉ R.theirs) : Raises roots live R child addrs m m' :=
  ⟨h.toFills, h.clones.evolves hchild hparentMine hchildMine⟩

end Bequeaths

theorem Unvisited.left (h : Unvisited child (addrs ++ addrs') m) : Unvisited child addrs m where
  user addr hmem := h.user addr (List.mem_append_left addrs' hmem)
  apart := (List.pairwise_append.1 h.apart).1
  vacant addr hmem := h.vacant addr (List.mem_append_left addrs' hmem)

theorem Unvisited.head {addr : ℕ} (h : Unvisited child (addr :: addrs) m) :
    UserAddr addr ∧ m.phys.pageEntry child addr = 0 :=
  ⟨h.user addr (List.mem_cons_self ..), h.vacant addr (List.mem_cons_self ..)⟩

/-- The CODE and RODATA loops, by induction on the pages. -/
theorem sharePages_bequeaths (hsub : ∀ r ∈ live, roots r) (hparent : parent ∈ live)
    (hchild : child ∈ live) (h : Tables roots m)
    {seg : MmSegment} (hwrite : seg.writable = false) (vaddrs : List ℕ) (hlow : ∀ vaddr ∈ vaddrs, vaddr < dataStart)
    (hnew : Unvisited child vaddrs m) (hgranted : (sharePages parent child seg vaddrs m).AllocsGranted) :
    Bequeaths roots live parent child vaddrs m (sharePages parent child seg vaddrs m) := by
  induction vaddrs generalizing m with
  | nil => exact .refl h
  | cons vaddr vaddrs ih =>
    obtain ⟨haddr, hvacant⟩ := hnew.head
    have hgranted₁ : (sharePage parent child seg vaddr m).AllocsGranted := hgranted.anti (le_sharePages _ _ _ _ _)
    have hfirst : Bequeaths roots live parent child [vaddr] m (sharePage parent child seg vaddr m) := by
      rcases h.page_cases (hsub parent hparent) haddr.slot with
        ⟨hzero, hnone, -⟩ | ⟨pt, pfn, flags, htable, husable, hflags, hentry, hsome, -⟩
      · have hsame : sharePage parent child seg vaddr m = m := by rw [sharePage, hnone]
        rw [hsame]
        refine ⟨.refl h _, .cons (.none ?_) (.nil _)⟩
        rw [spaces_page _ hparent]
        exact (h.userPage_eq_none_iff (hsub parent hparent) haddr).2 hzero
      · have hframe : ((m.phys pt (pteIndex vaddr) &&& flagMask) >>> pageShift) % 2 ^ 32 = pfn := by
          rw [frame_of_pte husable hflags ((PhysMem.entry_of_tableAt htable _).symm.trans hentry),
            Nat.mod_eq_of_lt (husable.contains.lt.trans (by norm_num))]
        have hshare : sharePage parent child seg vaddr m = (installPtable child seg vaddr pfn m).2 := by
          rw [sharePage, hsome, ← hframe]
        rw [hshare] at hgranted₁ ⊢
        have hmaps := installPtable_given h (hsub child hchild) haddr.slot haddr.ne_zero seg husable hgranted₁
        rw [hwrite] at hmaps
        have hlist : (installPtable child seg vaddr pfn m).2.pglists .user = m.pglists .user := by
          unfold installPtable
          simp only [if_neg haddr.ne_zero, if_neg husable.ne_zero]
          exact linkTables_user _ _ _ _
        exact ⟨.of_mapsPage hmaps (Or.inl rfl) haddr (fun _ ↦ rfl) (hsub child hchild),
          .cons (hmaps.inherits h hsub hchild haddr
          (hlow vaddr (List.mem_cons_self ..)) hlist hvacant hparent hflags hentry) (.nil _)⟩
    rw [sharePages] at hgranted ⊢
    exact hfirst.append (ih hfirst.tables (fun other hmem ↦ hlow other (List.mem_cons_of_mem _ hmem))
      (hfirst.unvisited hnew)
      hgranted)

/-- Mapping a page of the child leaves the entry of the parent where it was found. -/
theorem MapsPage.source {pfn flags linkFlags pt index : ℕ} (h : Tables roots m) (hparent : roots parent)
    (haddr : UserAddr addr)
    (hne : parent ≠ child) (hsome : getUserPte m.phys parent addr = some (pt, index))
    (hmaps : MapsPage roots m m' child addr pfn flags linkFlags) :
    ∃ flags, UserFlags flags ∧ Region.user.Usable ((m'.phys pt index &&& flagMask) >>> pageShift) ∧
      m.phys.pageEntry parent addr = makeEntry ((m'.phys pt index &&& flagMask) >>> pageShift) flags := by
  rcases h.page_cases hparent haddr.slot with ⟨-, hnone, -⟩ | ⟨pt', src, flags, htable, husable,
    hflags, hentry, hpte, -⟩
  · rw [hsome] at hnone
    exact absurd hnone (by simp)
  · rw [hsome] at hpte
    obtain ⟨rfl, rfl⟩ := Prod.mk.inj (Option.some.inj hpte)
    have htable' : m'.phys.tableAt parent (tablePath addr) = some pt := (hmaps.tableAt_other hparent hne).trans htable
    have hpage : m'.phys pt (pteIndex addr) = makeEntry src flags := by
      rw [← PhysMem.entry_of_tableAt htable', hmaps.pages _ _ _ hparent rfl, if_neg fun hand ↦ hne hand.1]
      exact hentry
    rw [frame_of_pte husable hflags hpage]
    exact ⟨flags, hflags, husable, hentry⟩

/-- Where the DATA and STACK loops may end: with the pages bequeathed, or at a copy that faults after some of them. -/
abbrev Brings (roots : ℕ → Prop) (live : Set ℕ) (R : Rights ℕ ℕ ℕ) (child : ℕ) (addrs : List ℕ)
    (p : Prog Kernel Unit) (k : Kernel) : Prop :=
  Spec p k
    (fun _ k' ↦ ∃ m, k' = { k with mem := m } ∧ k.mem ≤ m ∧
      (m.AllocsGranted → Bequeaths roots live k.ctx.pgd child addrs k.mem m))
    fun k' ↦ ∃ m, k.mem ≤ m ∧ Departs { k with mem := m } k' ∧
      (m.AllocsGranted → Quits ∅ { k with mem := m } k' ∧ ∃ done, Raises roots live R child done k.mem m)

section Copies

variable (hok : ContextOk k.ctx) (hsub : ∀ r ∈ live, roots r) (hparent : k.ctx.pgd ∈ live) (hchild : child ∈ live)
  (hparentMine : k.ctx.pgd ∉ R.theirs) (hchildMine : k.mem.AllocsGranted → child ∉ R.theirs)

include hok hsub hparent hchild hchildMine

theorem copyPage_brings (h : k.mem.AllocsGranted → Tables roots k.mem) (hne : k.mem.AllocsGranted → k.ctx.pgd ≠ child)
    (seg : MmSegment) (haddr : UserAddr addr) (hdata : dataStart ≤ addr)
    (hvacant : k.mem.AllocsGranted → k.mem.phys.pageEntry child addr = 0) :
    Brings roots live R child [addr] (copyPage child seg addr) k := by
  unfold copyPage
  apply Spec.read_bind
  cases hsome : getUserPte k.mem.phys k.ctx.pgd addr with
  | none =>
    refine Spec.pure ⟨k.mem, rfl, le_rfl, fun hgranted ↦ ⟨.refl (h hgranted) _, .cons (.none ?_) (.nil _)⟩⟩
    rw [spaces_page _ hparent, (h hgranted).userPage_eq_none_iff (hsub _ hparent) haddr]
    rcases (h hgranted).page_cases (hsub _ hparent) haddr.slot with ⟨hzero, -, -⟩ | ⟨_, _, _, -, -, -, -, hpte, -⟩
    · exact hzero
    · rw [hsome] at hpte
      exact absurd hpte (by simp)
  | some slot =>
    obtain ⟨pt, index⟩ := slot
    apply Spec.call_bind
    apply Spec.read_bind
    have hle := le_installPtable child seg addr 0 k.mem
    have hmaps := fun hgranted ↦
      installPtable_fresh (h (AllocsGranted.anti hle hgranted))
        (hsub child hchild) haddr.slot haddr.ne_zero seg hgranted
    have htakes := fun hgranted ↦
      installPtable_takes (h (AllocsGranted.anti hle hgranted)) (hsub child hchild) haddr seg hgranted
    change Spec (copyFrame (installPtable child seg addr 0 k.mem).1
      (((installPtable child seg addr 0 k.mem).2.phys pt index &&& flagMask) >>> pageShift))
      { k with mem := (installPtable child seg addr 0 k.mem).2 } _ _
    generalize (installPtable child seg addr 0 k.mem).1 = pfn at *
    generalize (installPtable child seg addr 0 k.mem).2 = m₁ at *
    have hread : addr < dataStart → (if seg.writable then 0x7 else 0x5) = 0x5 := fun hlow ↦ absurd hdata (not_le.2 hlow)
    have hsource : m₁.AllocsGranted → ∃ flags, UserFlags flags ∧
        Region.user.Usable ((m₁.phys pt index &&& flagMask) >>> pageShift) ∧
        k.mem.phys.pageEntry k.ctx.pgd addr = makeEntry ((m₁.phys pt index &&& flagMask) >>> pageShift) flags :=
      fun hgranted ↦ MapsPage.source (h (hgranted.anti hle)) (hsub _ hparent) haddr (hne (hgranted.anti hle)) hsome
        (hmaps hgranted).toMapsPage
    generalize (m₁.phys pt index &&& flagMask) >>> pageShift = src at *
    have hquits : Spec (copyFrame pfn src) { k with mem := m₁ } (fun _ _ ↦ True) fun k' ↦
        m₁.AllocsGranted → Quits ∅ { k with mem := m₁ } k' := by
      by_cases hgranted : m₁.AllocsGranted
      · obtain ⟨_, -, husable, -⟩ := hsource hgranted
        have hspec : Spec (copyFrame pfn src) { k with mem := m₁ } (fun _ _ ↦ True) (Quits ∅ { k with mem := m₁ }) :=
          copyFrame_quits fun errorCode ↦ ⟨hok.not_demandPaged husable.contains.lt errorCode,
            hok.not_demandPaged (hmaps hgranted).usable.contains.lt errorCode⟩
        exact hspec.mono (fun _ _ ↦ id) fun _ hquits _ ↦ hquits
      · exact (copyFrame_spec _ _ _).mono (fun _ _ _ ↦ trivial) fun _ _ hand ↦ absurd hand hgranted
    have htaken : m₁.AllocsGranted → Fills roots child [addr] k.mem m₁ := fun hgranted ↦
      .of_mapsPage (hmaps hgranted).toMapsPage (userFlags_page _) haddr hread (hsub child hchild)
    refine ((copyFrame_spec _ _ _).and hquits).mono ?_ ?_
    · rintro _ _ ⟨⟨-, -, rfl⟩, -⟩
      refine ⟨_, rfl, hle, fun hgranted ↦ ?_⟩
      have htables := h (AllocsGranted.anti hle hgranted)
      obtain ⟨flags, hflags, husable, hentry⟩ := hsource hgranted
      refine ⟨(htaken hgranted).copied (hsub child hchild) (hmaps hgranted).usable src, .cons ?_ (.nil _)⟩
      exact (hmaps hgranted).inherits htables hsub hchild (userFlags_page _) haddr hdata (htakes hgranted)
        (hvacant (hgranted.anti hle)) hparent husable hflags hentry
    · -- a fault finds the page taken and nothing in it
      rintro k' ⟨⟨-, hdeparts⟩, hquit⟩
      refine ⟨m₁, hle, hdeparts, fun hgranted ↦ ⟨hquit hgranted, [addr], htaken hgranted, .single ?_⟩⟩
      exact (hmaps hgranted).step (h (hgranted.anti hle)) hsub hchild (hchildMine (hgranted.anti hle))
        (userFlags_page _) haddr
        hread (htakes hgranted) fun _ ↦ hvacant (hgranted.anti hle)

include hparentMine

/-- The DATA and STACK loops, by induction on the pages. -/
theorem copyPages_brings (h : k.mem.AllocsGranted → Tables roots k.mem) (hne : k.mem.AllocsGranted → k.ctx.pgd ≠ child)
    (seg : MmSegment) (vaddrs : List ℕ) (huser : ∀ vaddr ∈ vaddrs, UserAddr vaddr ∧ dataStart ≤ vaddr)
    (hnew : k.mem.AllocsGranted → Unvisited child vaddrs k.mem) :
    Brings roots live R child vaddrs (copyPages child seg vaddrs) k := by
  induction vaddrs generalizing k with
  | nil => exact Spec.pure ⟨k.mem, rfl, le_rfl, fun hgranted ↦ .refl (h hgranted)⟩
  | cons vaddr vaddrs ih =>
    obtain ⟨haddr, hdata⟩ := huser vaddr (List.mem_cons_self ..)
    have hfirst : Brings roots live R child [vaddr] (copyPage child seg vaddr) k :=
      copyPage_brings hok hsub hparent hchild hchildMine h hne seg haddr hdata fun hgranted ↦ (hnew hgranted).head.2
    unfold copyPages
    refine hfirst.bind ?_
    rintro _ _ ⟨m₁, rfl, hle₁, hbequeaths₁⟩
    have hrest := ih (k := { k with mem := m₁ }) hok hparent hparentMine
      (fun hgranted ↦ hchildMine (AllocsGranted.anti hle₁ hgranted)) (fun hgranted ↦ (hbequeaths₁ hgranted).tables)
      (fun hgranted ↦ hne (AllocsGranted.anti hle₁ hgranted))
        (fun other hmem ↦ huser other (List.mem_cons_of_mem _ hmem))
      fun hgranted ↦ (hbequeaths₁ hgranted).unvisited (hnew (AllocsGranted.anti hle₁ hgranted))
    refine hrest.mono ?_ ?_
    · rintro _ _ ⟨m₂, rfl, hle₂, hbequeaths₂⟩
      refine ⟨m₂, rfl, hle₁.trans hle₂, fun hgranted ↦ ?_⟩
      exact (hbequeaths₁ (hgranted.anti hle₂)).append (hbequeaths₂ hgranted)
    · rintro k' ⟨m₂, hle₂, hdeparts, hraises₂⟩
      refine ⟨m₂, hle₁.trans hle₂, hdeparts, fun hgranted ↦ ?_⟩
      obtain ⟨hquits, done, hraises⟩ := hraises₂ hgranted
      have hgranted₁ : m₁.AllocsGranted := hgranted.anti hle₂
      have hfirst : Raises roots live R child [vaddr] k.mem m₁ :=
        (hbequeaths₁ hgranted₁).raises hchild hparentMine (hchildMine (hgranted₁.anti hle₁))
      exact ⟨hquits, _, hfirst.append hraises⟩

end Copies

/-- The pages that a fork visits come in ascending order. -/
theorem copiedPages_pairwise {ctx : ExecContext} (h : ContextOk ctx) :
    (copiedPages ctx).Pairwise fun addr other ↦ addr / 4096 < other / 4096 := by
  have hbelow : ∀ start stop, (pagesBelow start stop).Pairwise fun addr other ↦ addr / 4096 < other / 4096 := by
    intro start stop
    unfold pagesBelow pagesFrom
    rw [List.pairwise_map]
    refine (List.pairwise_lt_range' (s := 0) _).imp fun hlt ↦ ?_
    simp only [pageSize]
    omega
  have hsizes : codeStart + codePages <<< pageShift = 0x100008000 ∧ stackTopPage = 0x7FFFFF000 := by decide
  have hcode : ∀ addr ∈ pagesBelow (ctx.mms .code).start (ctx.mms .code).nextFree, addr < 0x100008000 := by
    intro addr haddr
    have hhigh := (mem_pagesBelow haddr).2
    rwa [h.code_next, hsizes.1] at hhigh
  have hrodata : ∀ addr ∈ pagesBelow (ctx.mms .rodata).start (ctx.mms .rodata).nextFree,
      0x140000000 ≤ addr ∧ addr < 0x180000000 := by
    intro addr haddr
    obtain ⟨hlow, hhigh⟩ := mem_pagesBelow haddr
    rw [h.start_eq .rodata] at hlow
    exact ⟨hlow, hhigh.trans h.rodata_next.2.1⟩
  have hdata : ∀ addr ∈ pagesBelow (ctx.mms .data).start (ctx.mms .data).nextFree,
      0x180000000 ≤ addr ∧ addr < 0x7FF000000 := by
    intro addr haddr
    obtain ⟨hlow, hhigh⟩ := mem_pagesBelow haddr
    rw [h.start_eq .data] at hlow
    exact ⟨hlow, hhigh.trans h.data_next.2.1⟩
  unfold copiedPages
  simp only [List.nil_append, List.pairwise_append, List.mem_append, List.pairwise_singleton, hbelow, true_and]
  refine ⟨⟨fun addr haddr other hother ↦ ?_, fun addr haddr other hother ↦ ?_⟩, fun addr haddr other hother ↦ ?_⟩
  · have hlow := hcode addr haddr
    have hhigh := hrodata other hother
    omega
  · have hhigh := hdata other hother
    rcases haddr with haddr | haddr
    · have hlow := hcode addr haddr
      omega
    · have hlow := hrodata addr haddr
      omega
  · have hhigh : other = 0x7FFFFF000 := (List.mem_singleton.1 hother).trans hsizes.2
    rcases haddr with (haddr | haddr) | haddr
    · have hlow := hcode addr haddr
      omega
    · have hlow := hrodata addr haddr
      omega
    · have hlow := hdata addr haddr
      omega

/-- The pages that are lent lie below those that are copied. -/
theorem lent_lt_dataStart {ctx : ExecContext} (h : ContextOk ctx) {seg : MmSeg} (hseg : seg = .code ∨ seg = .rodata) :
    ∀ addr ∈ pagesBelow (ctx.mms seg).start (ctx.mms seg).nextFree, UserAddr addr ∧ addr < dataStart := by
  intro addr haddr
  refine ⟨(h.shared_pages hseg).2 addr haddr, (mem_pagesBelow haddr).2.trans_le ?_⟩
  rcases hseg with rfl | rfl
  · rw [h.code_next]
    decide
  · exact h.rodata_next.2.1.le

theorem mem_copiedPages_user {ctx : ExecContext} (h : ContextOk ctx) : ∀ addr ∈ copiedPages ctx, UserAddr addr := by
  intro addr haddr
  simp only [copiedPages, List.nil_append, List.mem_append, List.mem_singleton] at haddr
  rcases haddr with ((haddr | haddr) | haddr) | rfl
  · exact (h.shared_pages (Or.inl rfl)).2 addr haddr
  · exact (h.shared_pages (Or.inr rfl)).2 addr haddr
  · exact (h.data_pages addr haddr).1
  · decide

/-- The pages of the child so far, and where they came from. -/
structure Growing (roots : ℕ → Prop) (live : Set ℕ) (parent pgd : ℕ) (m₀ : Memory) (addrs : List ℕ) (m : Memory) : Prop
    extends Sprouting roots parent pgd m₀ addrs m where
  bequeaths : m.AllocsGranted → Bequeaths (fun r ↦ roots r ∨ r = pgd) (insert pgd live) parent pgd addrs m₀ m

/-- The space of the child was founded and filled from that of the parent. -/
structure Forked (roots : ℕ → Prop) (live : Set ℕ) (parent pgd : ℕ) (addrs : List ℕ) (m m' : Memory) : Prop where
  fresh : ¬ roots pgd
  tables : Tables (fun r ↦ roots r ∨ r = pgd) m'
  clones : Clones sharedPages parent pgd (addrs.map fun addr ↦ addr / pageSize)
    { m.spaces live with live := insert pgd live } (m'.spaces (insert pgd live))

/-- A fork was cut short: the acts until then, and where the fault led. -/
structure Severed (roots : ℕ → Prop) (live : Set ℕ) (R : Rights ℕ ℕ ℕ) (child : CtxPtr) (k : Kernel) (pgd : ℕ)
    (m : Memory) (k' : Kernel) : Prop where
  le : k.mem ≤ m
  departs : Departs (k.withTable child pgd m) k'
  begun : m.AllocsGranted → Begun roots k.mem m pgd
  acts : m.AllocsGranted → Evolves sharedPages R (k.mem.spaces live) (m.spaces (insert pgd live))
  quits : m.AllocsGranted → Quits ∅ (k.withTable child pgd m) k'

section CopyMm

variable {childPtr : CtxPtr} {pgd : ℕ} {m₀ : Memory} (hne : k.current ≠ childPtr) (hok : ContextOk k.ctx)
  (hsub : ∀ r ∈ live, roots r) (hparent : k.ctx.pgd ∈ live) (hparentMine : k.ctx.pgd ∉ R.theirs)
  (hknown : ∀ r ∈ R.known, roots r) (hle : k.mem ≤ m₀)
  (hbegun : m₀.AllocsGranted → Begun roots k.mem m₀ pgd ∧ ∀ path i, m₀.phys.entry pgd path i = 0)
  (hfound : m₀.AllocsGranted → m₀.spaces (insert pgd live) = { k.mem.spaces live with live := insert pgd live })

include hok hbegun in
/-- The table of the child is empty at first. -/
theorem unvisited_copiedPages (hgranted : m₀.AllocsGranted) : Unvisited pgd (copiedPages k.ctx) m₀ where
  user := mem_copiedPages_user hok
  apart := (copiedPages_pairwise hok).imp Nat.ne_of_lt
  vacant _ _ := (hbegun hgranted).2 _ _

theorem insert_sub {pgd : ℕ} (hsub : ∀ r ∈ live, roots r) : ∀ r ∈ insert pgd live, roots r ∨ r = pgd :=
  fun r hr ↦ (Set.mem_insert_iff.1 hr).symm.imp_left (hsub r)

include hsub hparent hbegun in
/-- The pages that are lent. -/
theorem Growing.share {seg : MmSegment} (hwrite : seg.writable = false) {vaddrs : List ℕ}
    (h : Growing roots live k.ctx.pgd pgd m₀ addrs m) (huser : ∀ vaddr ∈ vaddrs, UserAddr vaddr ∧ vaddr < dataStart)
    (hnew : m₀.AllocsGranted → Unvisited pgd (addrs ++ vaddrs) m₀) :
    Growing roots live k.ctx.pgd pgd m₀ (addrs ++ vaddrs) (sharePages k.ctx.pgd pgd seg vaddrs m) where
  toSprouting := h.toSprouting.share (hsub _ hparent) hbegun hwrite fun vaddr hvaddr ↦ (huser vaddr hvaddr).1
  bequeaths hgranted := by
    have hbefore : m.AllocsGranted := hgranted.anti (le_sharePages _ _ _ _ _)
    have hfirst := h.bequeaths hbefore
    exact hfirst.append (sharePages_bequeaths (insert_sub hsub) (Set.mem_insert_of_mem pgd hparent)
      (Set.mem_insert pgd live)
      hfirst.tables hwrite vaddrs (fun vaddr hvaddr ↦ (huser vaddr hvaddr).2)
        (hfirst.unvisited (hnew (hbefore.anti h.le)))
      hgranted)

include hne hok hsub hparent hparentMine hknown hle hbegun hfound in
/-- The pages that are copied. -/
theorem Growing.copy (h : Growing roots live k.ctx.pgd pgd m₀ addrs m) (seg : MmSegment) {vaddrs : List ℕ}
    (huser : ∀ vaddr ∈ vaddrs, UserAddr vaddr ∧ dataStart ≤ vaddr)
    (hnew : m₀.AllocsGranted → Unvisited pgd (addrs ++ vaddrs) m₀) :
    Spec (copyPages pgd seg vaddrs) (k.withTable childPtr pgd m)
      (fun _ k' ↦ ∃ m', k' = k.withTable childPtr pgd m' ∧ Growing roots live k.ctx.pgd pgd m₀ (addrs ++ vaddrs) m')
      fun k' ↦ ∃ m', Severed roots live R childPtr k pgd m' k' := by
  have hctx := withTable_ctx hne pgd m
  have hfresh : m.AllocsGranted → ¬ roots pgd := fun hgranted ↦ (hbegun (hgranted.anti h.le)).1.fresh
  have hstrange : m.AllocsGranted → pgd ∉ R.known := fun hgranted hmem ↦ hfresh hgranted (hknown pgd hmem)
  have hmine : m.AllocsGranted → pgd ∉ R.theirs := fun hgranted hmem ↦ hstrange hgranted (R.theirs_sub hmem)
  have hbrings : Brings (fun r ↦ roots r ∨ r = pgd) (insert pgd live) R pgd vaddrs (copyPages pgd seg vaddrs)
      (k.withTable childPtr pgd m) := by
    refine copyPages_brings (hctx.symm ▸ hok) (insert_sub hsub) (hctx.symm ▸ Set.mem_insert_of_mem pgd hparent)
      (Set.mem_insert pgd live) (hctx.symm ▸ hparentMine) hmine (fun hgranted ↦ (h.bequeaths hgranted).tables)
      (fun hgranted heq ↦ ?_) seg vaddrs huser fun hgranted ↦ ?_
    · rw [hctx] at heq
      exact hfresh hgranted (heq ▸ hsub _ hparent)
    · exact (h.bequeaths hgranted).unvisited (hnew (AllocsGranted.anti h.le hgranted))
  refine ((h.toSprouting.copy hne (hsub _ hparent) hle hbegun seg huser).and hbrings).mono ?_ ?_
  · rintro _ _ ⟨⟨m', rfl, hsprouting⟩, m'', heq, hle', hbequeaths⟩
    obtain rfl : m' = m'' := congrArg Kernel.mem heq
    rw [hctx] at hbequeaths
    exact ⟨m', rfl, hsprouting, fun hgranted ↦
      (h.bequeaths (AllocsGranted.anti hle' hgranted)).append (hbequeaths hgranted)⟩
  · rintro k' ⟨-, m', hle', hdeparts, hraises⟩
    have hbefore : m'.AllocsGranted → m.AllocsGranted := fun hgranted ↦ AllocsGranted.anti hle' hgranted
    have hstart : m'.AllocsGranted → m₀.AllocsGranted := fun hgranted ↦ (hbefore hgranted).anti h.le
    have hfilled : m'.AllocsGranted → Raises _ _ R pgd addrs m₀ m := fun hgranted ↦
      (h.bequeaths (hbefore hgranted)).raises (Set.mem_insert pgd live) hparentMine (hmine (hbefore hgranted))
    refine ⟨m', hle.trans (h.le.trans hle'), hdeparts, fun hgranted ↦ ?_, fun hgranted ↦ ?_, fun hgranted ↦ ?_⟩
    · obtain ⟨-, done, hdone⟩ := hraises hgranted
      exact (hbegun (hstart hgranted)).1.fosters ((hfilled hgranted).fosters.trans hdone.fosters)
    · obtain ⟨-, done, hdone⟩ := hraises hgranted
      have hstep : Step sharedPages R (k.mem.spaces live) _ :=
        found_step k.mem (fun hmem ↦ hfresh (hbefore hgranted) (hsub pgd hmem)) (hstrange (hbefore hgranted))
      rw [← hfound (hstart hgranted)] at hstep
      exact ((hfilled hgranted).acts.trans hdone.acts).head hstep
    · exact (hraises hgranted).1

include hok hsub hparent hbegun hfound in
/-- The kernel mappings finish the table. -/
theorem Growing.finish {config : OsConfigs} (h : Growing roots live k.ctx.pgd pgd m₀ (copiedPages k.ctx) m)
    (hle : k.mem ≤ m₀)
    (hanchors : k.mem.AllocsGranted → ∀ addr, Anchor addr → k.mem.phys.pageEntry k.ctx.pgd addr ≠ 0)
    (hgranted : (installOsPts pgd config m).AllocsGranted) :
    Forked roots live k.ctx.pgd pgd (copiedPages k.ctx) k.mem (installOsPts pgd config m) := by
  have hbefore := hgranted.anti (le_installOsPts pgd config m)
  have hstart := hbefore.anti h.le
  obtain ⟨hbegun₀, hzero⟩ := hbegun hstart
  have hbequeaths := h.bequeaths hbefore
  have hcode : codeStart ∈ copiedPages k.ctx := by simp [copiedPages, hok.code_first]
  have hmapped := hbegun₀.persists.anchors _ codeStart (hsub _ hparent) (Or.inl rfl)
    (hanchors (hstart.anti hle) codeStart (Or.inl rfl))
  have hanchor := (h.populates hbefore).anchor hbegun₀.tables (Or.inl (hsub _ hparent))
    (Or.inr rfl) hcode (Or.inl rfl) hmapped
  have hmaps := installOsPts_spec hbequeaths.tables (Or.inr rfl) (PhysMem.top_ne_zero (by decide) hanchor) hgranted
  refine ⟨hbegun₀.fresh, hmaps.extend.tables, ?_⟩
  rw [spaces_mapsKernel hbequeaths.tables (insert_sub hsub) hmaps (installOsPts_user pgd config m), ← hfound hstart]
  exact hbequeaths.clones

end CopyMm

/-- `copy_mm` founds the space of the child and fills it, or is cut short. -/
theorem copyMm_acts {childPtr : CtxPtr} (hne : k.current ≠ childPtr) (hok : ContextOk k.ctx)
    (htables : k.mem.AllocsGranted → Tables roots k.mem) (hsub : ∀ r ∈ live, roots r) (hparent : k.ctx.pgd ∈ live)
    (hparentMine : k.ctx.pgd ∉ R.theirs) (hknown : ∀ r ∈ R.known, roots r)
    (hanchors : k.mem.AllocsGranted → ∀ addr, Anchor addr → k.mem.phys.pageEntry k.ctx.pgd addr ≠ 0) :
    Spec (copyMm childPtr) k
      (fun _ k' ↦ ∃ pgd m, k' = k.withTable childPtr pgd m ∧
        (m.AllocsGranted → Forked roots live k.ctx.pgd pgd (copiedPages k.ctx) k.mem m))
      fun k' ↦ ∃ pgd m, Severed roots live R childPtr k pgd m k' := by
  have hle : k.mem ≤ (osPfnAlloc .osPt k.mem).2.zeroFrame (osPfnAlloc .osPt k.mem).1 :=
    (le_osPfnAlloc .osPt k.mem).trans (le_zeroFrame _ _)
  have hgrant : ((osPfnAlloc .osPt k.mem).2.zeroFrame (osPfnAlloc .osPt k.mem).1).AllocsGranted →
      Memory.Grant .osPt k.mem (osPfnAlloc .osPt k.mem).2 (osPfnAlloc .osPt k.mem).1 := fun hgranted ↦
    osPfnAlloc_grant (htables (hgranted.anti hle)).regions_ok hgranted
  have hbegun := fun hgranted ↦ Begun.start (htables (AllocsGranted.anti hle hgranted)) (hgrant hgranted)
  have hfound := fun hgranted ↦ spaces_begun (htables (AllocsGranted.anti hle hgranted)) hsub (hgrant hgranted)
  unfold copyMm
  apply Spec.call_bind
  rw [show (pfnAlloc .osPt k).1 = (osPfnAlloc .osPt k.mem).1 from rfl]
  apply Spec.update_bind
  apply Spec.update_bind
  change Spec _ (shareSegments (osPfnAlloc .osPt k.mem).1 (k.withTable childPtr (osPfnAlloc .osPt k.mem).1
    ((osPfnAlloc .osPt k.mem).2.zeroFrame (osPfnAlloc .osPt k.mem).1))) _ _
  clear hgrant
  generalize (osPfnAlloc .osPt k.mem).2.zeroFrame (osPfnAlloc .osPt k.mem).1 = m₀ at *
  generalize (osPfnAlloc .osPt k.mem).1 = pgd at *
  have hnew := fun hgranted ↦ unvisited_copiedPages hok hbegun hgranted
  have hstart : Growing roots live k.ctx.pgd pgd m₀ [] m₀ :=
    ⟨⟨le_rfl, fun _ ↦ .nil m₀⟩, fun hgranted ↦ .refl (hbegun hgranted).1.tables⟩
  have hcode := hstart.share hsub hparent hbegun (hok.shared_pages (Or.inl rfl)).1 (lent_lt_dataStart hok (Or.inl rfl))
    fun hgranted ↦ (hnew hgranted).left.left.left
  have hshared := hcode.share hsub hparent hbegun (hok.shared_pages (Or.inr rfl)).1 (lent_lt_dataStart hok (Or.inr rfl))
    fun hgranted ↦ (hnew hgranted).left.left
  rw [shareSegments_eq hne]
  generalize sharePages k.ctx.pgd pgd (k.ctx.mms .rodata) _ _ = m₁ at *
  apply Spec.read_bind
  rw [withTable_ctx hne, hok.stack_pages]
  refine ((hshared.copy hne hok hsub hparent hparentMine hknown hle hbegun hfound (k.ctx.mms .data) hok.data_pages
    fun hgranted ↦ (hnew hgranted).left).mono (fun _ _ ↦ id) fun _ ⟨m, hcut⟩ ↦ ⟨pgd, m, hcut⟩).bind ?_
  rintro _ _ ⟨m₂, rfl, hcopied⟩
  have hstack : ∀ vaddr ∈ [stackTopPage], UserAddr vaddr ∧ dataStart ≤ vaddr := by
    intro vaddr hvaddr
    rw [List.mem_singleton.1 hvaddr]
    decide
  refine ((hcopied.copy hne hok hsub hparent hparentMine hknown hle hbegun hfound (k.ctx.mms .stack) hstack hnew).mono
    (fun _ _ ↦ id) fun _ ⟨m, hcut⟩ ↦ ⟨pgd, m, hcut⟩).bind ?_
  rintro _ _ ⟨m₃, rfl, hcopied₃⟩
  exact Spec.update ⟨pgd, installOsPts pgd (k.withTable childPtr pgd m₃).config m₃, rfl,
    hcopied₃.finish hok hsub hparent hbegun hfound hle hanchors⟩

end GemOS
