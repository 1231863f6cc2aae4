import GemOS.Process.Populate

/-!
# The address space of a new process

A page table begins as a cleared frame, gets its user pages, and is finished by the kernel mappings. Until then its
window is empty, and a copy that faults leaves it that way. The address spaces of the other processes persist
throughout.
-/

namespace GemOS

open Foundation TableForest Memory Kernel

variable {roots spaces : ℕ → Prop} {parent child pgd : ℕ} {m m₁ m' : Memory} {addr : ℕ} {addrs : List ℕ}

/-- The user may write below the first entry of a table, unless that entry is empty. -/
def TopWritable (m : Memory) (root : ℕ) : Prop :=
  m.phys.entry root [] 0 = 0 ∨ (m.phys.entry root [] 0).testBit 1 = true

/-- A page below the first entry of a table. -/
theorem PhysMem.top_ne_zero {phys : PhysMem} {root : ℕ} (htop : pgdIndex addr = 0)
    (hpage : phys.pageEntry root addr ≠ 0) :
    phys root 0 ≠ 0 := by
  obtain ⟨table, htable, -⟩ := walk_of_entryAt_ne_zero hpage
  intro hzero
  have hnone : phys.tableAt root [0] = none := by
    rw [← List.nil_append [0], PhysMem.tableAt_concat_entry, PhysMem.entry_nil, hzero, tableOf_zero]
  have hpath : tablePath addr = [0] ++ [pudIndex addr, pmdIndex addr] := by rw [tablePath, htop, List.singleton_append]
  rw [hpath, show walk tableOf phys root _ = phys.tableAt root _ from rfl, PhysMem.tableAt_append_none hnone] at htable
  exact absurd htable (by simp)

/-- Clearing a frame that was handed out cleared changes nothing. -/
theorem Grant.zeroFrame (h : Memory.Grant .osPt m m' pgd) : Memory.Grant .osPt m (m'.zeroFrame pgd) pgd := by
  refine ⟨h.usable, h.not_allocated, h.allocated_iff, ?_, h.regions_ok, h.pmd_eq, h.apic_eq⟩
  have hzero : (m'.zeroFrame pgd).phys = m'.phys.zero pgd := rfl
  rw [hzero, h.phys_eq]
  funext pfn i
  unfold PhysMem.zero
  simp only [if_true]
  split <;> rfl

/-- Mapping a page with links that user code may write through. -/
theorem TopWritable.mapsPage {root pfn flags : ℕ} (h : TopWritable m root)
    (hmaps : MapsPage roots m m' root addr pfn flags 0x7) (hroot : roots root) : TopWritable m' root := by
  rcases hmaps.links root [] 0 hroot (by simp) with hsame | ⟨-, -, -, table, hentry⟩
  · rw [TopWritable, hsame]
    exact h
  · refine Or.inr ?_
    rw [hentry, makeEntry, Nat.testBit_or, show Nat.testBit 0x7 1 = true from rfl, Bool.or_true]

theorem Populates.topWritable (h : Populates roots parent child addrs m m') (htables : Tables roots m)
    (hchild : roots child) (htop : TopWritable m child) : TopWritable m' child := by
  induction h with
  | nil => exact htop
  | skip _ _ ih => exact ih htables htop
  | share user _ _ _ maps _ ih => exact ih maps.extend.tables (htop.mapsPage maps hchild)
  | @copy _ _ src _ _ _ _ m₁ _ user data _ _ leaf_ok _ _ maps _ ih =>
    have htables₁ := maps.extend.tables
    refine ih (carries_copy htables₁ maps.usable src).tables ?_
    rw [TopWritable, entry_copy htables₁ maps.usable hchild (by simp)]
    exact htop.mapsPage maps.toMapsPage hchild

/-- Kernel mappings below one root leave the address spaces below the others. -/
theorem Persists.of_mapsKernel {root : ℕ} (h : MapsKernel roots m m' root)
    (hpmd : m'.osPmdPfn = m.osPmdPfn ∨ ∃ m₁, Memory.Grant .osPt m m₁ m'.osPmdPfn) :
    Persists (fun r ↦ roots r ∧ r ≠ root) roots roots m m' where
  tables := h.extend.tables
  root_kept _ hr := hr.1
  kernel_eq r path i hr hlength _ := h.others r path i hr.1 (by omega) (Or.inl hr.2)
  top_eq r hr _ := h.others r [] 0 hr.1 (by simp) (Or.inl hr.2)
  anchors r addr hr _ hmapped := by
    rwa [PhysMem.pageEntry, h.others r _ _ hr.1 (by simp [tablePath]) (Or.inl hr.2)]
  read_only hread r hr addr haddr hlow := by
    rw [PhysMem.pageEntry, h.others r _ _ hr (by simp [tablePath]) (Or.inr haddr.slot)]
    exact hread r hr addr haddr hlow
  not_table pfn hpfn htable := by
    rcases h.extend.table_new pfn htable with hold | hclear
    · exact hold
    · rw [hpfn] at hclear
      exact Bool.noConfusion hclear
  still_allocated pfn := h.extend.still_allocated .osPt pfn
  apic_eq := h.extend.apic_eq
  pmd_eq := hpmd.imp id fun ⟨_, hgrant⟩ ↦ ⟨hgrant.usable.contains.lt.trans (by norm_num), hgrant.not_allocated⟩

/-- A page table was begun below a fresh root. -/
structure Begun (roots : ℕ → Prop) (m m' : Memory) (pgd : ℕ) : Prop where
  persists : Persists roots roots (fun r ↦ roots r ∨ r = pgd) m m'
  fresh : ¬ roots pgd
  others : ∀ r path i, roots r → path.length ≤ 3 → m'.phys.entry r path i = m.phys.entry r path i
  window_clear : m'.phys.entry pgd [0, 0] 0 = 0

/-- A page table with pages at these addresses was finished below a fresh root. -/
structure Finished (roots : ℕ → Prop) (m m' : Memory) (pgd : ℕ) (addrs : List ℕ) : Prop where
  persists : Persists roots roots (fun r ↦ roots r ∨ r = pgd) m m'
  fresh : ¬ roots pgd
  others : ∀ r path i, roots r → path.length ≤ 3 → m'.phys.entry r path i = m.phys.entry r path i
  pages : ∀ addr, UserAddr addr → m'.phys.pageEntry pgd addr ≠ 0 → ∃ other ∈ addrs, addr / 4096 = other / 4096
  mapped : KernelMapped m' pgd
  anchors : ∀ addr, Anchor addr → m'.phys.pageEntry pgd addr ≠ 0
  top_writable : (m'.phys.entry pgd [] 0).testBit 1 = true

namespace Begun

/-- `os_pfn_alloc` and the clearing of the new table. -/
theorem start (h : Tables roots m) (hgrant : Memory.Grant .osPt m m' pgd) :
    Begun roots m (m'.zeroFrame pgd) pgd ∧ ∀ path i, (m'.zeroFrame pgd).phys.entry pgd path i = 0 := by
  have hgrant' := Grant.zeroFrame hgrant
  have hentry := (h.add_root hgrant').2
  refine ⟨⟨.of_add_root h hgrant', fun hroot ↦ ?_, fun r path i hr hlength ↦ ?_, hentry _ _⟩,
    fun path i ↦ hentry path i⟩
  · have hallocated := h.table_allocated pgd (TableForest.Node.of_root hroot)
    rw [hgrant.not_allocated] at hallocated
    exact Bool.noConfusion hallocated
  · exact Tables.entry_congr (fun _ ↦ h.grant_phys hgrant') hr hlength i

theorem tables (h : Begun roots m m₁ pgd) : Tables (fun r ↦ roots r ∨ r = pgd) m₁ := h.persists.tables

theorem fosters (h : Begun roots m m₁ pgd) (hfosters : Fosters (fun r ↦ roots r ∨ r = pgd) pgd m₁ m') :
    Begun roots m m' pgd where
  persists := h.persists.trans hfosters.carries fun _ ↦ Or.inl
  fresh := h.fresh
  others r path i hr hlength := by
    rw [hfosters.others r path i (Or.inl hr) (fun heq ↦ h.fresh (heq ▸ hr)) hlength]
    exact h.others r path i hr hlength
  window_clear := hfosters.carries.window_clear (Or.inr rfl) h.window_clear

/-- The kernel mappings finish the table. -/
theorem finish (h : Begun roots m m₁ pgd) {config : OsConfigs} (hwritable : TopWritable m₁ pgd)
    (hanchors : ∀ addr, Anchor addr → m₁.phys.pageEntry pgd addr ≠ 0)
    (hpages : ∀ addr, UserAddr addr → m₁.phys.pageEntry pgd addr ≠ 0 → ∃ other ∈ addrs, addr / 4096 = other / 4096)
    (hgranted : (installOsPts pgd config m₁).AllocsGranted) :
      Finished roots m (installOsPts pgd config m₁) pgd addrs := by
  have hroot : (fun r ↦ roots r ∨ r = pgd) pgd := Or.inr rfl
  have htop : m₁.phys pgd 0 ≠ 0 := PhysMem.top_ne_zero (by decide) (hanchors codeStart (Or.inl rfl))
  have hmaps := installOsPts_spec h.tables hroot htop hgranted
  have hpersists := Persists.of_mapsKernel hmaps (installOsPts_pmd h.tables hroot htop hgranted)
  have hne : ∀ r, roots r → r ≠ pgd := fun r hr heq ↦ h.fresh (heq ▸ hr)
  refine ⟨h.persists.trans hpersists fun r hr ↦ ⟨Or.inl hr, hne r hr⟩, h.fresh, fun r path i hr hlength ↦ ?_,
    fun addr haddr hmapped ↦ ?_, hmaps.kernelMapped, fun addr haddr ↦ ?_, ?_⟩
  · rw [hmaps.others r path i (Or.inl hr) hlength (Or.inl (hne r hr))]
    exact h.others r path i hr hlength
  · rw [PhysMem.pageEntry, hmaps.others pgd _ _ hroot (by simp [tablePath]) (Or.inr haddr.slot)] at hmapped
    exact hpages addr haddr hmapped
  · rw [PhysMem.pageEntry, hmaps.others pgd _ _ hroot (by simp [tablePath]) (Or.inr haddr.userAddr.slot)]
    exact hanchors addr haddr
  · have hslot : UserSlot [] 0 := rfl
    rw [hmaps.others pgd [] 0 hroot (by simp) (Or.inr hslot)]
    exact hwritable.resolve_left htop

end Begun

theorem mem_pagesBelow {start stop : ℕ} (h : addr ∈ pagesBelow start stop) : start ≤ addr ∧ addr < stop := by
  obtain ⟨n, hn, rfl⟩ := mem_pagesFrom h
  simp only [pageSize] at *
  omega

namespace ContextOk

variable {ctx : ExecContext}

theorem shared_pages (h : ContextOk ctx) {seg : MmSeg} (hseg : seg = .code ∨ seg = .rodata) :
    (ctx.mms seg).writable = false ∧
      ∀ vaddr ∈ pagesBelow (ctx.mms seg).start (ctx.mms seg).nextFree, UserAddr vaddr := by
  have hflags := h.flags_eq seg
  have hstart := h.start_eq seg
  have hcode := h.code_next
  have hrodata := h.rodata_next
  rcases hseg with rfl | rfl
  · refine ⟨?_, fun vaddr hvaddr ↦ ?_⟩
    · rw [MmSegment.writable, hflags]
      change decide ((mmRd ||| mmEx) &&& mmWr ≠ 0) = false
      decide
    obtain ⟨hlow, hhigh⟩ := mem_pagesBelow hvaddr
    rw [hcode] at hhigh
    rw [hstart] at hlow
    simp only [initSegments, codeStart, codePages, pageShift, Nat.shiftLeft_eq] at hlow hhigh
    constructor <;> omega
  · refine ⟨?_, fun vaddr hvaddr ↦ ?_⟩
    · rw [MmSegment.writable, hflags]
      change decide (mmRd &&& mmWr ≠ 0) = false
      decide
    obtain ⟨hlow, hhigh⟩ := mem_pagesBelow hvaddr
    rw [hstart] at hlow
    simp only [initSegments, rodataStart, dataStart] at *
    constructor <;> omega

theorem data_pages (h : ContextOk ctx) :
    ∀ vaddr ∈ pagesBelow (ctx.mms .data).start (ctx.mms .data).nextFree, UserAddr vaddr ∧ dataStart ≤ vaddr := by
  intro vaddr hvaddr
  obtain ⟨hlow, hhigh⟩ := mem_pagesBelow hvaddr
  have hstart := h.start_eq .data
  have hnext := h.data_next
  rw [hstart] at hlow
  simp only [initSegments, dataStart, stackStart, maxStackSize] at *
  exact ⟨⟨by omega, by omega⟩, by omega⟩

theorem stack_pages (h : ContextOk ctx) :
    pagesDownTo (ctx.mms .stack).nextFree (ctx.mms .stack).stop = [stackTopPage] := by
  rw [h.stack_next, h.stop_eq .stack]
  change pagesDownTo stackTopPage stackStart = [stackTopPage]
  decide

theorem code_first (h : ContextOk ctx) : codeStart ∈ pagesBelow (ctx.mms .code).start (ctx.mms .code).nextFree := by
  rw [h.start_eq .code, h.code_next]
  change codeStart ∈ pagesBelow codeStart (codeStart + codePages <<< pageShift)
  decide

end ContextOk

/-- The child has a page table. -/
def Kernel.withTable (k : Kernel) (child : CtxPtr) (pgd : ℕ) (m : Memory) : Kernel :=
  { k.updateCtx child fun ctx ↦ { ctx with pgd := pgd } with mem := m }

theorem withTable_ctx {k : Kernel} {child : CtxPtr} (hne : k.current ≠ child) (pgd : ℕ) (m : Memory) :
    (k.withTable child pgd m).ctx = k.ctx := Function.update_of_ne hne _ _

/-- `copy_mm` was cut short: the state in which a page copy faulted, and where that led. -/
structure CutShort (roots : ℕ → Prop) (child : CtxPtr) (k : Kernel) (pgd : ℕ) (m : Memory) (k' : Kernel) : Prop where
  le : k.mem ≤ m
  begun : m.AllocsGranted → Begun roots k.mem m pgd
  departs : Departs (k.withTable child pgd m) k'

/-- How far the pages of the child have come since its table was begun. -/
structure Sprouting (roots : ℕ → Prop) (parent pgd : ℕ) (m₀ : Memory) (addrs : List ℕ) (m : Memory) : Prop where
  le : m₀ ≤ m
  populates : m.AllocsGranted → Populates (fun r ↦ roots r ∨ r = pgd) parent pgd addrs m₀ m

section CopyMm

variable {k : Kernel} {child : CtxPtr} {m₀ : Memory} (hne : k.current ≠ child)
  (hparent : roots k.ctx.pgd) (hle : k.mem ≤ m₀)
  (hbegun : m₀.AllocsGranted → Begun roots k.mem m₀ pgd ∧ ∀ path i, m₀.phys.entry pgd path i = 0)

include hbegun in
theorem Sprouting.begun (h : Sprouting roots parent pgd m₀ addrs m) (hgranted : m.AllocsGranted) :
    Begun roots k.mem m pgd := by
  obtain ⟨hstart, -⟩ := hbegun (hgranted.anti h.le)
  exact hstart.fosters ((h.populates hgranted).fosters hstart.tables)

include hparent hbegun in
/-- The pages that are shared. -/
theorem Sprouting.share {seg : MmSegment} (hwrite : seg.writable = false) {vaddrs : List ℕ}
    (h : Sprouting roots k.ctx.pgd pgd m₀ addrs m) (huser : ∀ vaddr ∈ vaddrs, UserAddr vaddr) :
    Sprouting roots k.ctx.pgd pgd m₀ (addrs ++ vaddrs) (sharePages k.ctx.pgd pgd seg vaddrs m) where
  le := h.le.trans (le_sharePages _ _ _ _ _)
  populates hgranted := by
    have hbefore := hgranted.anti (le_sharePages _ _ _ _ _)
    exact (h.populates hbefore).append (sharePages_spec (h.begun hbegun hbefore).tables (Or.inl hparent) (Or.inr rfl)
      hwrite vaddrs huser hgranted)

include hne hparent hle hbegun in
/-- The pages that are copied. -/
theorem Sprouting.copy (h : Sprouting roots k.ctx.pgd pgd m₀ addrs m) (seg : MmSegment) {vaddrs : List ℕ}
    (huser : ∀ vaddr ∈ vaddrs, UserAddr vaddr ∧ dataStart ≤ vaddr) :
    Spec (copyPages pgd seg vaddrs) (k.withTable child pgd m)
      (fun _ k' ↦ ∃ m', k' = k.withTable child pgd m' ∧ Sprouting roots k.ctx.pgd pgd m₀ (addrs ++ vaddrs) m')
      fun k' ↦ ∃ pgd m', CutShort roots child k pgd m' k' := by
  have hctx := withTable_ctx hne pgd m
  have hcopies : Copies (fun r ↦ roots r ∨ r = pgd) pgd vaddrs (copyPages pgd seg vaddrs)
      (k.withTable child pgd m) := by
    refine copyPages_copies (fun hgranted ↦ (h.begun hbegun hgranted).tables) ?_ (Or.inr rfl) (fun hgranted ↦ ?_) seg
      vaddrs huser
    · rw [hctx]
      exact Or.inl hparent
    · rw [hctx]
      rintro rfl
      exact (h.begun hbegun hgranted).fresh hparent
  refine hcopies.mono ?_ ?_
  · rintro _ _ ⟨m', rfl, hle', hpopulates⟩
    rw [hctx] at hpopulates
    exact ⟨m', rfl, h.le.trans hle', fun hgranted ↦ (h.populates (hgranted.anti hle')).append (hpopulates hgranted)⟩
  · rintro k' ⟨m', hfault⟩
    refine ⟨pgd, m', hle.trans (h.le.trans hfault.le), fun hgranted ↦ ?_, hfault.departs⟩
    exact (h.begun hbegun (hgranted.anti hfault.le)).fosters (hfault.fosters hgranted)

include hparent hle hbegun in
/-- The kernel mappings finish the table. -/
theorem Sprouting.finish {config : OsConfigs} (h : Sprouting roots k.ctx.pgd pgd m₀ addrs m)
    (hcode : codeStart ∈ addrs) (hstack : stackTopPage ∈ addrs) (huser : ∀ other ∈ addrs, UserAddr other)
    (hanchors : k.mem.AllocsGranted → ∀ addr, Anchor addr → k.mem.phys.pageEntry k.ctx.pgd addr ≠ 0)
    (hgranted : (installOsPts pgd config m).AllocsGranted) :
    Finished roots k.mem (installOsPts pgd config m) pgd addrs := by
  have hbefore := hgranted.anti (le_installOsPts pgd config m)
  have hstart := hbefore.anti h.le
  obtain ⟨hbegun₀, hzero⟩ := hbegun hstart
  have hpopulates := h.populates hbefore
  have hpages : ∀ addr, UserAddr addr → m.phys.pageEntry pgd addr ≠ 0 → ∃ other ∈ addrs,
      addr / 4096 = other / 4096 := by
    intro addr haddr hmapped
    rcases hpopulates.pages hbegun₀.tables (Or.inr rfl) hmapped with hold | ⟨other, hother, hpage⟩
    · exact absurd (hzero _ _) hold
    · have hlt := haddr.2
      have hlt' := (huser other hother).2
      exact ⟨other, hother, (indices_eq_iff (by omega) (by omega)).1 hpage⟩
  refine (h.begun hbegun hbefore).finish (hpopulates.topWritable hbegun₀.tables (Or.inr rfl) (Or.inl (hzero _ _)))
    (fun addr haddr ↦ ?_) hpages hgranted
  have hmapped := hbegun₀.persists.anchors _ addr hparent haddr (hanchors (hstart.anti hle) addr haddr)
  refine hpopulates.anchor hbegun₀.tables (Or.inl hparent) (Or.inr rfl) ?_ haddr hmapped
  rcases haddr with rfl | rfl
  · exact hcode
  · exact hstack

include hne in
theorem shareSegments_eq (m : Memory) :
    shareSegments pgd (k.withTable child pgd m) = k.withTable child pgd
      (sharePages k.ctx.pgd pgd (k.ctx.mms .rodata) (pagesBelow (k.ctx.mms .rodata).start (k.ctx.mms .rodata).nextFree)
        (sharePages k.ctx.pgd pgd (k.ctx.mms .code)
          (pagesBelow (k.ctx.mms .code).start (k.ctx.mms .code).nextFree) m)) := by
  unfold shareSegments
  rw [withTable_ctx hne]
  rfl

end CopyMm

/-- The pages that `copy_mm` visits. -/
def copiedPages (ctx : ExecContext) : List ℕ :=
  [] ++ pagesBelow (ctx.mms .code).start (ctx.mms .code).nextFree ++
    pagesBelow (ctx.mms .rodata).start (ctx.mms .rodata).nextFree ++
      pagesBelow (ctx.mms .data).start (ctx.mms .data).nextFree ++ [stackTopPage]

/-- `copy_mm` finishes a page table for the child, or is cut short. -/
theorem copyMm_builds {k : Kernel} {child : CtxPtr} (hne : k.current ≠ child) (hok : ContextOk k.ctx)
    (htables : k.mem.AllocsGranted → Tables roots k.mem) (hparent : roots k.ctx.pgd)
    (hanchors : k.mem.AllocsGranted → ∀ addr, Anchor addr → k.mem.phys.pageEntry k.ctx.pgd addr ≠ 0) :
    Spec (copyMm child) k
      (fun _ k' ↦ ∃ pgd m, k' = k.withTable child pgd m ∧ k.mem ≤ m ∧
        (m.AllocsGranted → Finished roots k.mem m pgd (copiedPages k.ctx)))
      fun k' ↦ ∃ pgd m, CutShort roots child k pgd m k' := by
  have hle : k.mem ≤ (osPfnAlloc .osPt k.mem).2.zeroFrame (osPfnAlloc .osPt k.mem).1 :=
    (le_osPfnAlloc .osPt k.mem).trans (le_zeroFrame _ _)
  have hbegun : ((osPfnAlloc .osPt k.mem).2.zeroFrame (osPfnAlloc .osPt k.mem).1).AllocsGranted →
      Begun roots k.mem ((osPfnAlloc .osPt k.mem).2.zeroFrame (osPfnAlloc .osPt k.mem).1) (osPfnAlloc .osPt k.mem).1 ∧
        ∀ path i, ((osPfnAlloc .osPt k.mem).2.zeroFrame (osPfnAlloc .osPt k.mem).1).phys.entry
          (osPfnAlloc .osPt k.mem).1
          path i = 0 := by
    intro hgranted
    have hbefore := htables (hgranted.anti hle)
    exact Begun.start hbefore (osPfnAlloc_grant hbefore.regions_ok hgranted)
  unfold copyMm
  apply Spec.call_bind
  rw [show (pfnAlloc .osPt k).1 = (osPfnAlloc .osPt k.mem).1 from rfl]
  apply Spec.update_bind
  apply Spec.update_bind
  change Spec _ (shareSegments (osPfnAlloc .osPt k.mem).1 (k.withTable child (osPfnAlloc .osPt k.mem).1
    ((osPfnAlloc .osPt k.mem).2.zeroFrame (osPfnAlloc .osPt k.mem).1))) _ _
  generalize (osPfnAlloc .osPt k.mem).2.zeroFrame (osPfnAlloc .osPt k.mem).1 = m₀ at *
  generalize (osPfnAlloc .osPt k.mem).1 = pgd at *
  obtain ⟨hcodeRead, hcodeUser⟩ := hok.shared_pages (Or.inl rfl)
  obtain ⟨hrodataRead, hrodataUser⟩ := hok.shared_pages (Or.inr rfl)
  have hstart : Sprouting roots k.ctx.pgd pgd m₀ [] m₀ := ⟨le_rfl, fun _ ↦ .nil m₀⟩
  have hshared := (hstart.share hparent hbegun hcodeRead hcodeUser).share hparent hbegun hrodataRead hrodataUser
  rw [shareSegments_eq hne]
  generalize sharePages k.ctx.pgd pgd (k.ctx.mms .rodata) _ _ = m₁ at *
  apply Spec.read_bind
  rw [withTable_ctx hne, hok.stack_pages]
  refine (hshared.copy hne hparent hle hbegun (k.ctx.mms .data) hok.data_pages).bind ?_
  rintro _ _ ⟨m₂, rfl, hcopied⟩
  have hstack : ∀ vaddr ∈ [stackTopPage], UserAddr vaddr ∧ dataStart ≤ vaddr := by
    intro vaddr hvaddr
    rw [List.mem_singleton.1 hvaddr]
    decide
  refine (hcopied.copy hne hparent hle hbegun (k.ctx.mms .stack) hstack).bind ?_
  rintro _ _ ⟨m₃, rfl, hcopied₃⟩
  refine Spec.update ⟨pgd, installOsPts pgd (k.withTable child pgd m₃).config m₃, rfl,
    hle.trans (hcopied₃.le.trans (le_installOsPts _ _ _)), hcopied₃.finish hparent hle hbegun ?_ ?_ ?_ hanchors⟩
  · simp [hok.code_first]
  · simp
  · intro other hother
    simp only [List.nil_append, List.mem_append] at hother
    rcases hother with ((hother | hother) | hother) | hother
    · exact hcodeUser other hother
    · exact hrodataUser other hother
    · exact (hok.data_pages other hother).1
    · exact (hstack other hother).1

end GemOS
