import GemOS.Process.Crowding

/-!
# Touching page after page

A process whose tables for the DATA segment exist touches one page of it after the other. Each fault takes the next
frame of the user region and writes one entry, so that the state after thousands of them is written down in one step.
-/

namespace GemOS

open Foundation Memory

variable {phys : PhysMem} {m m' : Memory} {pgd pud pmd blocks first count b i : ℕ} {pt : ℕ → ℕ}

/-- Page `i` of block `b` of 2 MB in DATA. -/
def dataPage (b i : ℕ) : ℕ := dataStart + b * 2 ^ 21 + i * 4096

theorem dataPage_indices (hb : b < 512) (hi : i < 512) :
    pgdIndex (dataPage b i) = 0 ∧ pudIndex (dataPage b i) = 6 ∧ pmdIndex (dataPage b i) = b ∧
      pteIndex (dataPage b i) = i := by
  simp only [pgdIndex_eq, pudIndex_eq, pmdIndex_eq, pteIndex_eq, dataPage, dataStart]
  refine ⟨?_, ?_, ?_, ?_⟩ <;> omega

/-- The tables on the way to the first blocks of DATA. -/
structure DataTables (phys : PhysMem) (pgd pud pmd : ℕ) (pt : ℕ → ℕ) (blocks : ℕ) : Prop where
  few : blocks ≤ 512
  pud_entry : phys pgd 0 = makeEntry pud 0x7
  pmd_entry : phys pud 6 = makeEntry pmd 0x7
  pt_entry : ∀ b < blocks, phys pmd b = makeEntry (pt b) 0x7
  pud_lt : pud < 2 ^ 32
  pmd_lt : pmd < 2 ^ 32
  pt_lt : ∀ b < blocks, pt b < 2 ^ 32

namespace DataTables

variable (h : DataTables phys pgd pud pmd pt blocks) (hb : b < blocks) (hi : i < 512)

include h hb hi

/-- A fault finds all tables. -/
theorem linkTables_eq (errorCode : ℕ) (hphys : m.phys = phys) :
    linkTables (pageTableStyle errorCode) (tablePath (dataPage b i)) pgd m = (pt b, m) := by
  obtain ⟨hpgd, hpud, hpmd, -⟩ := dataPage_indices (hb.trans_le h.few) hi
  have hlink : ∀ t index u, u < 2 ^ 32 → phys t index = makeEntry u 0x7 →
      linkTable (pageTableStyle errorCode) t index m = (u, m) := by
    intro t index u hu hentry
    have hflags : TableFlags 0x7 := Or.inl (Or.inr rfl)
    rw [linkTable, hphys, hentry, (pageTableStyle_sound errorCode).present_entry hflags,
      (pageTableStyle_sound errorCode).frame_entry hu hflags]
    rfl
  simp only [tablePath, hpgd, hpud, hpmd, linkTables, hlink _ _ _ h.pud_lt h.pud_entry,
    hlink _ _ _ h.pmd_lt h.pmd_entry, hlink _ _ _ (h.pt_lt b hb) (h.pt_entry b hb)]

theorem hwWalk_none (habsent : phys (pt b) i = 0) : hwWalk phys pgd (dataPage b i) = none := by
  obtain ⟨hpgd, hpud, hpmd, hpte⟩ := dataPage_indices (hb.trans_le h.few) hi
  have hframe : ∀ u, u < 2 ^ 32 → hwFrame (makeEntry u 0x7) = u := fun u hu ↦ hwFrame_makeEntry hu (by norm_num)
  have hflags : TableFlags 0x7 := Or.inl (Or.inr rfl)
  simp only [hwWalk, hpgd, hpud, hpmd, hpte, h.pud_entry, hframe _ h.pud_lt, h.pmd_entry,
    hframe _ h.pmd_lt, h.pt_entry b hb, hframe _ (h.pt_lt b hb), habsent]
  simp [hwTranslate, hflags.present, hflags.small]

end DataTables

namespace Kernel

variable {k : Kernel} {addr : ℕ}

/-- A store to a page that is not there yet, but may be. -/
theorem step_store_absent (hmode : k.mode = .user) (hcanonical : Canonical addr)
    (hwalk : hwWalk k.mem.phys k.cr3 addr = none) (hdemand : demandPaged k.ctx addr (pfError false true true) = true)
    (value : ℕ) :
    step (.store addr value) k =
      { k.notePageFault addr with mem := installPageTable k.ctx.pgd addr (pfError false true true) k.mem } := by
  rw [step_user hmode]
  have hfault : userProgram (.store addr value) k = userPageFault addr (pfError false true true) k := by
    simp only [userProgram, userProgramWith, userStoreWith, userTouchWith, bind, Prog.bind, Prog.read,
      not_not.2 hcanonical, if_false, hwalk]
  have hserved : userPageFault addr (pfError false true true) k = .ret ()
      { k.notePageFault addr with mem := installPageTable k.ctx.pgd addr (pfError false true true) k.mem } := by
    have hdemand' : demandPaged (k.notePageFault addr).ctx addr (pfError false true true) = true := hdemand
    simp only [userPageFault, userPageFaultWith, doPageFault, bind, Prog.bind, Prog.read,
      Prog.update, hdemand', if_true]
    rfl
  rw [Prog.final, hfault, hserved]

end Kernel

/-- Touch `n` is of page `n % 511 + 1` of block `n / 511`: the first page of each block is left alone. -/
def touchAddr (n : ℕ) : ℕ := dataPage (n / 511) (n % 511 + 1)

def touchEvent (n : ℕ) : Event := .store (touchAddr n) 0

/-- The entries written by the first touches, whose frames start at index `first` of the user region. -/
def touchedPhys (pt : ℕ → ℕ) (first : ℕ) (phys : PhysMem) : ℕ → PhysMem
  | 0 => phys
  | n + 1 =>
    (touchedPhys pt first phys n).write (pt (n / 511)) (n % 511 + 1) (makeEntry (Region.user.base + first + n) 0x7)

theorem touchedPhys_of_ne (pt : ℕ → ℕ) (first : ℕ) (phys : PhysMem) {t i : ℕ} :
    ∀ n, (∀ j < n, t = pt (j / 511) → i ≠ j % 511 + 1) → touchedPhys pt first phys n t i = phys t i
  | 0, _ => rfl
  | n + 1, hne =>
    (if_neg fun hand ↦ hne n (Nat.lt_succ_self n) hand.1 hand.2).trans
      (touchedPhys_of_ne pt first phys n fun j hj ↦ hne j (hj.trans (Nat.lt_succ_self n)))

/-- What the first touches did to memory. -/
structure Touched (pt : ℕ → ℕ) (first count : ℕ) (m m' : Memory) : Prop where
  row : Row .user first count (m.pglists .user) (m'.pglists .user)
  others : ∀ other, other ≠ .user → m'.pglists other = m.pglists other
  phys_eq : m'.phys = touchedPhys pt first m.phys count
  pmd_eq : m'.osPmdPfn = m.osPmdPfn
  apic_eq : m'.apicBase = m.apicBase
  trace_eq : m'.trace = rowEvents .user first count ++ m.trace

/-- The process can touch the pages of the first blocks: they lie below `next_free`, their tables exist and none of
them is mapped. -/
structure Untouched (k : Kernel) (pud pmd : ℕ) (pt : ℕ → ℕ) (blocks : ℕ) : Prop where
  mode_eq : k.mode = .user
  cr3_eq : k.cr3 = k.ctx.pgd
  tables : DataTables k.mem.phys k.ctx.pgd pud pmd pt blocks
  apart : ∀ b < blocks, pt b ≠ k.ctx.pgd ∧ pt b ≠ pud ∧ pt b ≠ pmd
  pt_inj : ∀ b < blocks, ∀ b' < blocks, pt b = pt b' → b = b'
  absent : ∀ b < blocks, ∀ i < 512, i ≠ 0 → k.mem.phys (pt b) i = 0
  start_eq : (k.ctx.mms .data).start = dataStart
  below : dataStart + blocks * 2 ^ 21 ≤ (k.ctx.mms .data).nextFree
  inside : dataStart + blocks * 2 ^ 21 ≤ (k.ctx.mms .data).stop

namespace Kernel

variable {k : Kernel}

/-- The state after the first touches, with memory `m`. -/
def afterTouches (k : Kernel) (count : ℕ) (m : Memory) : Kernel :=
  { k with
    mem := m
    cr2 := if count = 0 then k.cr2 else touchAddr (count - 1)
    stats.pageFaults := k.stats.pageFaults + count }

end Kernel

section Run

variable {k : Kernel}

theorem Touched.dataTables (h : Untouched k pud pmd pt blocks) (hcount : count ≤ 511 * blocks)
    (htouched : Touched pt first count k.mem m) : DataTables m.phys k.ctx.pgd pud pmd pt blocks := by
  have htables := h.tables
  have hkept : ∀ t i, (∀ b < blocks, t ≠ pt b) → m.phys t i = k.mem.phys t i := by
    intro t i hne
    rw [htouched.phys_eq]
    exact touchedPhys_of_ne _ _ _ _ fun j hj heq ↦ absurd heq (hne _ (by omega))
  refine { htables with pud_entry := ?_, pmd_entry := ?_, pt_entry := fun b hb ↦ ?_ }
  · rw [hkept _ _ fun b hb ↦ (h.apart b hb).1.symm, htables.pud_entry]
  · rw [hkept _ _ fun b hb ↦ (h.apart b hb).2.1.symm, htables.pmd_entry]
  · rw [hkept _ _ fun b hb ↦ (h.apart b hb).2.2.symm, htables.pt_entry b hb]

theorem Untouched.demandPaged (h : Untouched k pud pmd pt blocks) (hb : b < blocks) (hi : i < 512) :
    demandPaged k.ctx (dataPage b i) (pfError false true true) = true := by
  have hstart := h.start_eq
  have hbelow := h.below
  have hinside := h.inside
  have hpage : dataPage b i < dataStart + blocks * 2 ^ 21 := by
    unfold dataPage
    omega
  have hlow : dataStart ≤ dataPage b i := by
    unfold dataPage
    omega
  have hpresent : ¬ pfError false true true &&& 0x1 ≠ 0 := by decide
  rw [GemOS.demandPaged, if_neg hpresent, if_pos ⟨by omega, by omega⟩, decide_eq_true (by omega)]

/-- One more touch. -/
theorem Untouched.step_touch (h : Untouched k pud pmd pt blocks) (htouched : Touched pt first count k.mem m)
    (hcount : count < 511 * blocks) (hscan : first + count < Region.user.scanned)
    (hfree : count < (k.mem.pglists .user).freePages) :
    ∃ m', Touched pt first (count + 1) k.mem m' ∧
      Kernel.step (touchEvent count) (k.afterTouches count m) = k.afterTouches (count + 1) m' := by
  have hb : count / 511 < blocks := by omega
  have hi : count % 511 + 1 < 512 := by omega
  have htables := htouched.dataTables h hcount.le
  have habsent : m.phys (pt (count / 511)) (count % 511 + 1) = 0 := by
    rw [htouched.phys_eq, touchedPhys_of_ne]
    · exact h.absent _ hb _ hi (by omega)
    · intro j hj heq
      have hblock := h.pt_inj _ hb _ (by omega) heq
      omega
  have hwalk := htables.hwWalk_none hb hi habsent
  rw [← h.cr3_eq] at hwalk
  have hpage : (dataPage (count / 511) (count % 511 + 1)) < 2 ^ 47 := by
    have hfew := h.tables.few
    unfold dataPage dataStart
    omega
  have hinstalled : installPageTable k.ctx.pgd (dataPage (count / 511) (count % 511 + 1)) (pfError false true true) m =
      (osPfnAlloc .user m).2.writeEntry (pt (count / 511)) (count % 511 + 1)
        (makeEntry (Region.user.base + first + count) 0x7) := by
    rw [installPageTable, htables.linkTables_eq hb hi _ rfl, (dataPage_indices (hb.trans_le h.tables.few) hi).2.2.2,
      htouched.row.alloc hscan hfree]
    rfl
  have hstep := Kernel.step_store_absent (k := k.afterTouches count m) h.mode_eq (Or.inl hpage) hwalk
    (h.demandPaged hb hi) 0
  refine ⟨(osPfnAlloc .user m).2.writeEntry (pt (count / 511)) (count % 511 + 1)
    (makeEntry (Region.user.base + first + count) 0x7), ?_,
      hstep.trans (congrArg (k.afterTouches (count + 1)) hinstalled)⟩
  rw [htouched.row.alloc hscan hfree]
  refine ⟨?_, fun other hother ↦ ?_, ?_, htouched.pmd_eq, htouched.apic_eq, congrArg _ htouched.trace_eq⟩
  · simpa only [Memory.writeEntry, Function.update_self] using htouched.row.next hscan
  · exact (Function.update_of_ne hother _ _).trans (htouched.others other hother)
  · exact congrArg (fun phys : PhysMem ↦ phys.write _ _ _) htouched.phys_eq

/-- Touches one after the other. -/
theorem Untouched.run_touches (h : Untouched k pud pmd pt blocks) (hfilled : Filled .user first (k.mem.pglists .user))
    (hcount : count ≤ 511 * blocks) (hscan : first + count ≤ Region.user.scanned)
    (hfree : count ≤ (k.mem.pglists .user).freePages) :
    ∃ m, Touched pt first count k.mem m ∧
      run Kernel.step k ((List.range count).map touchEvent) = k.afterTouches count m := by
  induction count with
  | zero => exact ⟨k.mem, ⟨.refl hfilled, fun _ _ ↦ rfl, rfl, rfl, rfl, rfl⟩, rfl⟩
  | succ count ih =>
    obtain ⟨m, htouched, hrun⟩ := ih (by omega) (by omega) (by omega)
    obtain ⟨m', htouched', hstep⟩ := h.step_touch htouched hcount hscan hfree
    refine ⟨m', htouched', ?_⟩
    rw [List.range_succ, List.map_append, run_append, hrun]
    exact hstep

/-- Memory after touches up to the end of a word of the bitmap. Of the frames that are last-level tables only the
first entry is looked up without going through the touches. -/
def Memory.touch (pt : ℕ → ℕ) (blocks first last : ℕ) (m : Memory) : Memory where
  pglists := Function.update m.pglists .user ((m.pglists .user).fillUp .user first last)
  phys t i := if i ≠ 0 ∧ ∃ b < blocks, t = pt b then touchedPhys pt first m.phys (last - first) t i else m.phys t i
  osPmdPfn := m.osPmdPfn
  apicBase := m.apicBase
  trace := rowEvents .user first (last - first) ++ m.trace

theorem Touched.eq_touch {last : ℕ} (h : Touched pt first (last - first) m m') (hfirst : first ≤ last)
    (hlast : last ≤ Region.user.scanned) (hword : last % 32 = 0) (hblocks : last - first ≤ 511 * blocks) :
    m' = m.touch pt blocks first last := by
  have hlists : m'.pglists = (m.touch pt blocks first last).pglists := by
    funext other
    by_cases hother : other = .user
    · rw [hother, h.row.eq_fillUp hfirst hlast hword, Memory.touch]
      simp only [Function.update_self]
    · rw [h.others other hother]
      exact (Function.update_of_ne hother _ _).symm
  have hphys : m'.phys = (m.touch pt blocks first last).phys := by
    funext t i
    rw [h.phys_eq]
    change _ = if _ then _ else _
    split
    · rfl
    · rename_i hslot
      exact touchedPhys_of_ne _ _ _ _ fun j hj ht hi ↦ hslot ⟨by omega, j / 511, by omega, ht⟩
  have htrace := h.trace_eq
  have hpmd := h.pmd_eq
  have hapic := h.apic_eq
  obtain ⟨lists, phys, pmd, apic, trace⟩ := m'
  simp only at hlists hphys htrace hpmd hapic
  rw [hlists, hphys, htrace, hpmd, hapic]
  rfl

end Run

section Worn

/-- Init makes a child, takes seven times 1024 pages of DATA and touches the first page of each block of 2 MB. -/
def wideEvents : List Event :=
  launchInit :: (callEvents 10 0 0 ++ callEvents 4 1024 1 ++ List.replicate 6 (.syscall fun _ ↦ 0) ++
    (List.range' 1 13).map fun b ↦ .store (dataPage b 0) 0)

def wide : Kernel := run Kernel.step blankBoot wideEvents

/-- The last-level tables of the fourteen blocks. -/
def widePt (b : ℕ) : ℕ := if b = 0 then 8204 else 8219 + b

theorem untouched_wide : Untouched wide 8200 8203 widePt 14 := by
  have hstate : wide.mode = .user ∧ wide.cr3 = 8199 ∧ wide.ctx.pgd = 8199 ∧ (wide.ctx.mms .data).start = dataStart ∧
      dataStart + 14 * 2 ^ 21 ≤ (wide.ctx.mms .data).nextFree ∧
        dataStart + 14 * 2 ^ 21 ≤ (wide.ctx.mms .data).stop := by
    decide +kernel
  obtain ⟨hmode, hcr3, hpgd, hstart, hbelow, hinside⟩ := hstate
  have htables : wide.mem.phys 8199 0 = makeEntry 8200 0x7 ∧ wide.mem.phys 8200 6 = makeEntry 8203 0x7 ∧
      (∀ b < 14, wide.mem.phys 8203 b = makeEntry (widePt b) 0x7) ∧
      ∀ b < 14, ∀ i < 512, i ≠ 0 → wide.mem.phys (widePt b) i = 0 := by decide +kernel
  have hpt : (∀ b < 14, widePt b < 2 ^ 32) ∧ (∀ b < 14, widePt b ≠ 8199 ∧ widePt b ≠ 8200 ∧ widePt b ≠ 8203) ∧
      ∀ b < 14, ∀ b' < 14, widePt b = widePt b' → b = b' := by decide
  have hdata : DataTables wide.mem.phys wide.ctx.pgd 8200 8203 widePt 14 := by
    rw [hpgd]
    exact ⟨by decide, htables.1, htables.2.1, htables.2.2.1, by decide, by decide, hpt.1⟩
  exact ⟨hmode, hcr3.trans hpgd.symm, hdata, hpgd ▸ hpt.2.1, hpt.2.2, htables.2.2.2, hstart, hbelow, hinside⟩

/-- The first 29 frames of the user region are in use. -/
theorem filled_wide : Filled .user 29 (wide.mem.pglists .user) := by
  have hlist : (wide.mem.pglists .user).size = Region.user.frames ∧
      (wide.mem.pglists .user).startAddress = Region.user.base * 4096 ∧ (wide.mem.pglists .user).lastFreePos = 0 ∧
      ∀ w < Region.user.frames / 256, (wide.mem.pglists .user).bitmap w =
        if w < 0 then BitVec.allOnes 32 else if w = 0 then 0x1fffffff#32 else 0#32 := by decide +kernel
  obtain ⟨hsize, hstart, hcursor, hwords⟩ := hlist
  exact .of_words ⟨hsize, hstart, by rw [hcursor]; decide⟩ hcursor hwords

/-- Then it touches 7139 pages more: the frames of the user region inside the identity window are all in use. -/
def worn : Kernel := wide.afterTouches 7139 (wide.mem.touch widePt 14 29 7168)

theorem worn_eq : worn = run Kernel.step wide ((List.range 7139).map touchEvent) := by
  have hfree : (wide.mem.pglists .user).freePages = 105443 := by decide +kernel
  have hcount : 7168 - 29 ≤ 511 * 14 := by decide
  have hscan : 7168 ≤ Region.user.scanned := by decide
  obtain ⟨m, htouched, hrun⟩ := untouched_wide.run_touches filled_wide hcount hscan (by rw [hfree]; decide)
  rw [worn, ← htouched.eq_touch (by decide) hscan (by decide) hcount]
  exact hrun.symm

theorem reachable_worn (events : List Event) : Reachable (run Kernel.step worn events) := by
  rw [worn_eq]
  exact ((reachable_blankBoot wideEvents).run _).run events

end Worn

end GemOS
