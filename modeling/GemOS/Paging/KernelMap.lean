import GemOS.Paging.InstallSpec

/-!
# Kernel mappings of a process table

`install_os_pts` gives every process table the identity window over the first `OS_PT_MAPS` 2 MB pages
and then the page of the local APIC. Both are 2 MB entries that user mode cannot use; with granted
allocations no slot of a user segment changes.
-/

namespace GemOS

open Foundation TableForest Memory

/-- `struct os_configs`. -/
structure OsConfigs where
  globalMapping : ℕ
  apicTickInterval : ℕ
  debug : ℕ
  advGlobal : ℕ
  deriving DecidableEq

/-- `install_apic_mapping`. -/
def installApicMapping (pl4 : ℕ) (config : OsConfigs) (m : Memory) : Memory :=
  let address := m.apicBase.hugePage
  let pmd := linkTables apicStyle [pgdIndex address, pudIndex address] pl4 m
  pmd.2.writeEntry pmd.1 (pmdIndex address)
    (if config.globalMapping ≠ 0 ∧ config.advGlobal ≠ 0 then address ||| 0x183 ||| (1 <<< 52)
      else if config.globalMapping ≠ 0 then address ||| 0x183
      else address ||| 0x83)

/-- The table below an entry in `remove_apic_mapping`; without one the source goes on with an
uninitialized frame number, here `0`. -/
def apicNext (e : ℕ) : ℕ := if e &&& 0x1 = 0 then 0 else ((e >>> pageShift) <<< pageShift) >>> pageShift

/-- `remove_apic_mapping`. -/
def removeApicMapping (pl4 : ℕ) (m : Memory) : Memory :=
  let address := m.apicBase.hugePage
  let pud := apicNext (m.phys pl4 (pgdIndex address))
  let pmd := apicNext (m.phys pud (pudIndex address))
  m.writeEntry pmd (pmdIndex address) 0

/-- The loop of `install_os_pts` over the entries `pfn, pfn + 1, …` of the window. -/
def writeWindow (config : OsConfigs) (pmd : ℕ) : ℕ → ℕ → Memory → Memory
  | _, 0, m => m
  | pfn, remaining + 1, m =>
    writeWindow config pmd (pfn + 1) remaining
      (m.writeEntry pmd pfn ((pfn <<< 21) ||| (if config.globalMapping ≠ 0 then 0x183 else 0x83)))

/-- `install_os_pts`. -/
def installOsPts (pl4 : ℕ) (config : OsConfigs) (m : Memory) : Memory :=
  let pud := linkTable osPtsStyle pl4 0 m
  let pmd := linkTable osPtsStyle pud.1 0 pud.2
  let linked :=
    if osPtsStyle.present (pud.2.phys pud.1 0) then pmd.2 else { pmd.2 with osPmdPfn := pmd.1 }
  installApicMapping pl4 config (writeWindow config pmd.1 0 osPtMaps linked)

variable {roots : ℕ → Prop} {m : Memory} {root t i : ℕ} {path : List ℕ}

section HugePage

variable {apic : ApicBase} {base flags e : ℕ}

theorem KernelFlags.testBit_seven (h : KernelFlags flags) : flags.testBit 7 = true := by
  rcases h with rfl | rfl | rfl <;> decide

theorem tableOf_huge (base : ℕ) (h : KernelFlags flags) : tableOf (base ||| flags) = none := by
  refine if_pos (Or.inr fun hand ↦ ?_)
  have hbit := congrArg (fun x ↦ x.testBit 7) hand
  simp only [Nat.testBit_and, Nat.testBit_or, h.testBit_seven] at hbit
  revert hbit
  simp
  decide

/-- The slot of a 2 MB page never links a table. -/
theorem KernelPageSlot.not_link (h : KernelPageSlot apic path i base) (hok : EntryOk apic path i e) :
    tableOf e = none := by
  cases hok with
  | empty => exact tableOf_zero
  | userTable hslot => exact absurd h hslot.not_kernelPage
  | userPage hslot => exact absurd h hslot.not_kernelPage
  | kernelTable hslot => exact absurd h.length_eq hslot.length_lt.ne
  | kernelPage _ hflags => exact tableOf_huge _ hflags

/-- Writing a 2 MB page of the kernel. -/
theorem writeHuge_spec (h : Tables roots m) (hroot : roots root)
    (htable : m.phys.tableAt root path = some t) (hslot : KernelPageSlot m.apicBase path i base)
    (hflags : KernelFlags flags) :
    Extends roots m (m.writeEntry t i (base ||| flags)) ∧
      ∀ root' path' j, roots root' → path'.length ≤ 3 →
        (m.writeEntry t i (base ||| flags)).phys.entry root' path' j =
          if root' = root ∧ path' = path ∧ j = i then base ||| flags
          else m.phys.entry root' path' j := by
  have hlength : path.length ≤ 3 := by
    rw [hslot.length_eq]
    norm_num
  have hnone := tableOf_huge base hflags
  have hold := h.entry_ok root path i hroot hlength
  rw [PhysMem.entry_of_tableAt htable] at hold
  have hwrite : Writable tableOf 3 roots m.phys path t i (base ||| flags) := by
    refine ⟨fun _ ↦ hslot.not_link hold, fun _ g hg ↦ ?_⟩
    rw [hnone] at hg
    exact absurd hg (by simp)
  refine ⟨⟨?_, fun pfn hpfn ↦ ?_, fun _ _ ↦ id, fun pfn hpfn ↦ ?_, rfl⟩, ?_⟩
  · refine h.writeEntry hroot hlength htable hwrite (.kernelPage hslot hflags) fun g _ hg ↦ ?_
    rw [hnone] at hg
    exact absurd hg (by simp)
  · rcases h.isTable_writeEntry hroot hlength htable hwrite hpfn with hold' | ⟨-, hlink⟩
    · exact Or.inl hold'
    · rw [hnone] at hlink
      exact absurd hlink (by simp)
  · refine PhysMem.write_of_ne ?_
    rintro rfl
    exact hpfn (h.table_usable _ (Tables.isTable_of_tableAt hroot hlength htable)).contains
  · exact fun root' path' j hroot' hlength' ↦
      h.entry_writeEntry hroot hlength htable hwrite hroot' hlength' j

/-- A write to the slot of a 2 MB page moves no table. -/
theorem tableAt_writeHuge (h : Tables roots m) (hroot : roots root)
    (htable : m.phys.tableAt root path = some t) (hslot : KernelPageSlot m.apicBase path i base)
    (value : ℕ) {path' : List ℕ} (hlength' : path'.length ≤ 2) :
    (m.writeEntry t i value).phys.tableAt root path' = m.phys.tableAt root path' := by
  refine walk_setEntry h.separated hroot (by rw [hslot.length_eq]; norm_num) htable hroot
    (by omega) ?_
  rintro ⟨-, hlead⟩
  have hle := hlead.length_le
  rw [List.length_append, hslot.length_eq, List.length_singleton] at hle
  omega

end HugePage

/-- The window flags chosen by the configuration. -/
def windowFlags (config : OsConfigs) : ℕ := if config.globalMapping ≠ 0 then 0x183 else 0x83

theorem kernelFlags_window (config : OsConfigs) : KernelFlags (windowFlags config) := by
  unfold windowFlags
  split
  · exact Or.inr (Or.inl rfl)
  · exact Or.inl rfl

theorem writeWindow_granted {config : OsConfigs} {pmd : ℕ} (remaining pfn : ℕ) (m : Memory) :
    (writeWindow config pmd pfn remaining m).AllocsGranted ↔ m.AllocsGranted := by
  induction remaining generalizing pfn m with
  | zero => exact Iff.rfl
  | succ remaining ih => exact ih (pfn + 1) _

/-- The window loop writes its own entries, by induction on the entries left. -/
theorem writeWindow_spec (config : OsConfigs) (hroot : roots root) (remaining pfn : ℕ) (m : Memory)
    (h : Tables roots m) (htable : m.phys.tableAt root [0, 0] = some t)
    (hfit : pfn + remaining ≤ osPtMaps) :
    Extends roots m (writeWindow config t pfn remaining m) ∧
      ∀ root' path' j, roots root' → path'.length ≤ 3 →
        (writeWindow config t pfn remaining m).phys.entry root' path' j =
          if root' = root ∧ path' = [0, 0] ∧ pfn ≤ j ∧ j < pfn + remaining then
            (j <<< 21) ||| windowFlags config
          else m.phys.entry root' path' j := by
  induction remaining generalizing pfn m with
  | zero =>
    refine ⟨Extends.refl h, fun root' path' j _ _ ↦ ?_⟩
    rw [if_neg (by omega)]
    rfl
  | succ remaining ih =>
    have hslot : KernelPageSlot m.apicBase [0, 0] pfn (pfn <<< 21) := .window pfn (by omega)
    obtain ⟨hext, hentries⟩ := writeHuge_spec h hroot htable hslot (kernelFlags_window config)
    have htable' : (m.writeEntry t pfn ((pfn <<< 21) ||| windowFlags config)).phys.tableAt root [0, 0] =
        some t := (tableAt_writeHuge h hroot htable hslot _ (by simp)).trans htable
    obtain ⟨hext', hentries'⟩ := ih (pfn + 1) _ hext.tables htable' (by omega)
    refine ⟨hext.trans hext', fun root' path' j hroot' hlength' ↦ ?_⟩
    refine (hentries' root' path' j hroot' hlength').trans ?_
    rw [hentries root' path' j hroot' hlength']
    by_cases hpath : root' = root ∧ path' = [0, 0]
    · obtain ⟨rfl, rfl⟩ := hpath
      by_cases hj : j = pfn
      · subst hj
        simp
      · simp only [hj, and_false, if_false, true_and]
        exact if_congr (by omega) rfl rfl
    · have hnot : ∀ p : Prop, ¬ (root' = root ∧ path' = [0, 0] ∧ p) := fun p hp ↦ hpath ⟨hp.1, hp.2.1⟩
      rw [if_neg (hnot _), if_neg (hnot _), if_neg (hnot _)]

/-- Kernel mappings were added below `root`: no slot on the way to a user page changed, the window and
the APIC page are there. -/
structure MapsKernel (roots : ℕ → Prop) (m m' : Memory) (root : ℕ) : Prop where
  extend : Extends roots m m'
  others : ∀ root' path' j, roots root' → path'.length ≤ 3 → root' ≠ root ∨ UserSlot path' j →
    m'.phys.entry root' path' j = m.phys.entry root' path' j
  window : ∀ i < osPtMaps, ∃ flags, KernelFlags flags ∧
    m'.phys.entry root [0, 0] i = (i <<< 21) ||| flags
  apic : ∃ flags, KernelFlags flags ∧
    m'.phys.entry root [pgdIndex m.apicBase.hugePage, pudIndex m.apicBase.hugePage]
      (pmdIndex m.apicBase.hugePage) = m.apicBase.hugePage ||| flags

/-- The two levels above the APIC page. -/
theorem linkApic_spec (h : Tables roots m) (hroot : roots root)
    (hpgd : pgdIndex m.apicBase.hugePage = 0 → m.phys root 0 ≠ 0)
    (hgranted : (linkTables apicStyle [pgdIndex m.apicBase.hugePage, pudIndex m.apicBase.hugePage]
      root m).2.AllocsGranted) :
    let linked := linkTables apicStyle [pgdIndex m.apicBase.hugePage, pudIndex m.apicBase.hugePage] root m
    Extends roots m linked.2 ∧
      linked.2.phys.tableAt root [pgdIndex m.apicBase.hugePage, pudIndex m.apicBase.hugePage] =
        some linked.1 ∧
      ∀ root' path' j, roots root' → path'.length ≤ 3 →
        linked.2.phys.entry root' path' j = m.phys.entry root' path' j ∨
          (root' = root ∧ KernelTableSlot m.apicBase path' j ∧ m.phys.entry root' path' j = 0) := by
  intro linked
  have hpmd : ∀ (m₁ : Memory), m₁.apicBase = m.apicBase →
      LinkSlot m₁.apicBase [pgdIndex m.apicBase.hugePage] (pudIndex m.apicBase.hugePage)
        apicStyle.flags := fun m₁ hapic ↦ Or.inr ⟨hapic ▸ .apicPmd, rfl⟩
  by_cases hzero : pgdIndex m.apicBase.hugePage = 0
  · -- the APIC page shares the first-level entry of the user segments
    obtain ⟨hsame, htable⟩ := linkTable_follow (i := 0) apicStyle_sound h hroot PhysMem.tableAt_nil
      (by simp) (Or.inl ⟨rfl, Or.inl rfl⟩) (hpgd hzero)
    obtain ⟨hext, hnext, hentries⟩ := linkTable_spec apicStyle_sound h hroot
      (show m.phys.tableAt root [0] = some _ by simpa using htable) (by simp) (by simpa [hzero] using hpmd m rfl)
      (by simpa [linkTables, hzero, hsame] using hgranted)
    have hlinked : linked = linkTable apicStyle (linkTable apicStyle root 0 m).1
        (pudIndex m.apicBase.hugePage) m := by
      simp only [linked, linkTables, hzero, hsame]
    rw [hlinked, hzero]
    refine ⟨hext, hnext, fun root' path' j hroot' hlength' ↦ ?_⟩
    rw [hentries root' path' j hroot' hlength']
    split
    · rename_i hslot
      obtain ⟨rfl, rfl, rfl, hempty⟩ := hslot
      have hkernel : KernelTableSlot m.apicBase [pgdIndex m.apicBase.hugePage] _ := .apicPmd
      rw [hzero] at hkernel
      exact Or.inr ⟨rfl, hkernel, hempty⟩
    · exact Or.inl rfl
  · have hslots : ∀ front i back,
        [pgdIndex m.apicBase.hugePage, pudIndex m.apicBase.hugePage] = front ++ i :: back →
          LinkSlot m.apicBase ([] ++ front) i apicStyle.flags := by
      intro front i back hsplit
      rcases front with _ | ⟨a, _ | ⟨b, front⟩⟩
      · simp only [List.nil_append, List.cons.injEq] at hsplit
        rw [← hsplit.1]
        exact Or.inr ⟨.apicPud hzero, rfl⟩
      · simp only [List.cons_append, List.nil_append, List.cons.injEq] at hsplit
        rw [← hsplit.1, ← hsplit.2.1]
        exact hpmd m rfl
      · have hlength := congrArg List.length hsplit
        simp at hlength
    obtain ⟨hext, htable, hlinks⟩ := linkTables_spec apicStyle_sound hroot _ [] root m h
      PhysMem.tableAt_nil (by simp) hslots hgranted
    refine ⟨hext, htable, fun root' path' j hroot' hlength' ↦ ?_⟩
    rcases hlinks root' path' j hroot' hlength' with hsame | ⟨hempty, hroot₂, ⟨back, hsplit⟩, -⟩
    · exact Or.inl hsame
    · have hslot := hslots path' j back (by rw [← List.nil_append [_, _], ← hsplit]; simp)
      rcases hslot with ⟨huser, hflags⟩ | ⟨hkernel, -⟩
      · rcases hflags with hflags | hflags <;> exact absurd hflags (by decide)
      · exact Or.inr ⟨hroot₂, hkernel, hempty⟩

/-- The last write of `install_apic_mapping`. -/
theorem installApicMapping_eq (root : ℕ) (config : OsConfigs) (m : Memory) :
    ∃ flags, KernelFlags flags ∧ installApicMapping root config m =
      (linkTables apicStyle [pgdIndex m.apicBase.hugePage, pudIndex m.apicBase.hugePage] root m).2.writeEntry
        (linkTables apicStyle [pgdIndex m.apicBase.hugePage, pudIndex m.apicBase.hugePage] root m).1
        (pmdIndex m.apicBase.hugePage) (m.apicBase.hugePage ||| flags) := by
  unfold installApicMapping
  simp only
  split
  · exact ⟨_, Or.inr (Or.inr rfl), by rw [Nat.lor_assoc]⟩
  · split
    · exact ⟨_, Or.inr (Or.inl rfl), rfl⟩
    · exact ⟨_, Or.inl rfl, rfl⟩

/-- The APIC page is mapped at its own slot; only slots of kernel tables may change otherwise. -/
theorem installApicMapping_spec {config : OsConfigs} (h : Tables roots m) (hroot : roots root)
    (hpgd : m.phys root 0 ≠ 0) (hgranted : (installApicMapping root config m).AllocsGranted) :
    Extends roots m (installApicMapping root config m) ∧
      (∃ flags, KernelFlags flags ∧
        (installApicMapping root config m).phys.entry root
          [pgdIndex m.apicBase.hugePage, pudIndex m.apicBase.hugePage] (pmdIndex m.apicBase.hugePage) =
            m.apicBase.hugePage ||| flags) ∧
      ∀ root' path' j, roots root' → path'.length ≤ 3 →
        root' ≠ root ∨ ¬ KernelTableSlot m.apicBase path' j ∧
          ¬ (path' = [pgdIndex m.apicBase.hugePage, pudIndex m.apicBase.hugePage] ∧
            j = pmdIndex m.apicBase.hugePage) →
        (installApicMapping root config m).phys.entry root' path' j = m.phys.entry root' path' j := by
  obtain ⟨hext, htable, hlinks⟩ := linkApic_spec h hroot (fun _ ↦ hpgd) hgranted
  obtain ⟨flags, hflags, heq⟩ := installApicMapping_eq root config m
  have hslot : ∀ apic, apic = m.apicBase → KernelPageSlot apic
      [pgdIndex m.apicBase.hugePage, pudIndex m.apicBase.hugePage] (pmdIndex m.apicBase.hugePage)
      m.apicBase.hugePage := fun apic hapic ↦ hapic ▸ .apic
  obtain ⟨hext', hentries⟩ := writeHuge_spec hext.tables hroot htable (hslot _ hext.apic_eq) hflags
  rw [heq]
  refine ⟨hext.trans hext', ⟨flags, hflags, ?_⟩, fun root' path' j hroot' hlength' hoff ↦ ?_⟩
  · rw [hentries root _ _ hroot (by simp), if_pos ⟨rfl, rfl, rfl⟩]
  · have hother : ¬ (root' = root ∧
        path' = [pgdIndex m.apicBase.hugePage, pudIndex m.apicBase.hugePage] ∧
          j = pmdIndex m.apicBase.hugePage) := by
      rintro ⟨rfl, hpage⟩
      rcases hoff with hne | ⟨-, hpage'⟩
      · exact hne rfl
      · exact hpage' hpage
    rw [hentries root' path' j hroot' hlength', if_neg hother]
    rcases hlinks root' path' j hroot' hlength' with hsame | ⟨rfl, hkernel, -⟩
    · exact hsame
    · rcases hoff with hne | ⟨htab, -⟩
      · exact absurd rfl hne
      · exact absurd hkernel htab

theorem Extends.of_osPmdPfn (h : Tables roots m) (pfn : ℕ) : Extends roots m { m with osPmdPfn := pfn } :=
  ⟨h.congr h.regions_ok rfl (fun _ _ ↦ rfl) h.table_allocated, fun _ ↦ Or.inl, fun _ _ ↦ id,
    fun _ _ ↦ rfl, rfl⟩

theorem installApicMapping_granted_of {config : OsConfigs} {pl4 : ℕ}
    (h : (installApicMapping pl4 config m).AllocsGranted) : m.AllocsGranted := linkTables_granted_of h

/-- `install_os_pts` on a table that already has its first entry. -/
theorem installOsPts_spec {config : OsConfigs} (h : Tables roots m) (hroot : roots root)
    (hpgd : m.phys root 0 ≠ 0) (hgranted : (installOsPts root config m).AllocsGranted) :
    MapsKernel roots m (installOsPts root config m) root := by
  obtain ⟨hsame, htable⟩ := linkTable_follow (i := 0) osPtsStyle_sound h hroot PhysMem.tableAt_nil
    (by simp) (Or.inl ⟨rfl, Or.inl rfl⟩) hpgd
  have hpud : (linkTable osPtsStyle root 0 m).2.phys.tableAt root [0] =
      some (linkTable osPtsStyle root 0 m).1 := by
    rw [hsame]
    simpa using htable
  have hslot : LinkSlot (linkTable osPtsStyle root 0 m).2.apicBase [0] 0 osPtsStyle.flags :=
    Or.inr ⟨.window, rfl⟩
  unfold installOsPts at hgranted ⊢
  simp only at hgranted ⊢
  generalize hpud' : linkTable osPtsStyle root 0 m = pud at *
  generalize hpmd' : linkTable osPtsStyle pud.1 0 pud.2 = pmd at *
  obtain ⟨linked, hlinked⟩ : ∃ linked, linked =
      (if osPtsStyle.present (pud.2.phys pud.1 0) then pmd.2 else { pmd.2 with osPmdPfn := pmd.1 }) :=
    ⟨_, rfl⟩
  rw [← hlinked] at hgranted ⊢
  have hgrantedLinked : linked.AllocsGranted :=
    (writeWindow_granted osPtMaps 0 linked).1 (installApicMapping_granted_of hgranted)
  have hgrantedPmd : pmd.2.AllocsGranted := by
    rw [hlinked] at hgrantedLinked
    split at hgrantedLinked <;> exact hgrantedLinked
  obtain ⟨hext₁, htable₁, hentries₁⟩ := linkTable_spec osPtsStyle_sound (hsame ▸ h) hroot hpud
    (by simp) hslot (by rw [hpmd']; exact hgrantedPmd)
  rw [hpmd'] at hext₁ htable₁ hentries₁
  have hextLinked : Extends roots pmd.2 linked := by
    rw [hlinked]
    split
    · exact Extends.refl hext₁.tables
    · exact Extends.of_osPmdPfn hext₁.tables _
  have hphysLinked : linked.phys = pmd.2.phys := by
    rw [hlinked]
    split <;> rfl
  obtain ⟨hext₂, hentries₂⟩ := writeWindow_spec config hroot osPtMaps 0 linked hextLinked.tables
    (by rw [hphysLinked]; exact htable₁) (by simp)
  generalize hwindow : writeWindow config pmd.1 0 osPtMaps linked = window at *
  have hext : Extends roots m window := hsame ▸ (hext₁.trans hextLinked).trans hext₂
  have hapic := hext.apic_eq
  have hkept : ∀ root' path' j, roots root' → path'.length ≤ 3 →
      root' ≠ root ∨ ¬ (path' = [0] ∧ j = 0) ∧ ¬ (path' = [0, 0] ∧ j < osPtMaps) →
      window.phys.entry root' path' j = m.phys.entry root' path' j := by
    intro root' path' j hroot' hlength' hoff
    rw [hentries₂ root' path' j hroot' hlength', hphysLinked, hentries₁ root' path' j hroot' hlength',
      hsame]
    rw [if_neg, if_neg]
    · rintro ⟨rfl, rfl, rfl, -⟩
      exact hoff.elim (fun hne ↦ hne rfl) fun hand ↦ hand.1 ⟨rfl, rfl⟩
    · rintro ⟨rfl, rfl, -, hj⟩
      exact hoff.elim (fun hne ↦ hne rfl) fun hand ↦ hand.2 ⟨rfl, by simpa using hj⟩
  have hpgd' : window.phys root 0 ≠ 0 := by
    have hentry := hkept root [] 0 hroot (by simp) (Or.inr (by simp))
    rw [PhysMem.entry_nil, PhysMem.entry_nil] at hentry
    rwa [hentry]
  obtain ⟨hext₃, ⟨flags, hflags, hpage⟩, hothers⟩ :=
    installApicMapping_spec hext.tables hroot hpgd' hgranted
  rw [hapic] at hpage hothers
  refine ⟨hext.trans hext₃, fun root' path' j hroot' hlength' hoff ↦ ?_, fun i hi ↦ ?_,
    ⟨flags, hflags, hpage⟩⟩
  · have hapicOff : root' ≠ root ∨ ¬ KernelTableSlot m.apicBase path' j ∧
        ¬ (path' = [pgdIndex m.apicBase.hugePage, pudIndex m.apicBase.hugePage] ∧
          j = pmdIndex m.apicBase.hugePage) := by
      refine hoff.imp id fun huser ↦ ⟨huser.not_kernelTable, ?_⟩
      rintro ⟨rfl, -⟩
      exact m.apicBase.not_user_pud huser.1 huser.2.1 huser.2.2
    have hwindowOff : root' ≠ root ∨ ¬ (path' = [0] ∧ j = 0) ∧ ¬ (path' = [0, 0] ∧ j < osPtMaps) := by
      refine hoff.imp id fun huser ↦ ⟨?_, ?_⟩
      · rintro ⟨rfl, rfl⟩
        exact absurd huser.2.1 (by decide)
      · rintro ⟨rfl, -⟩
        exact absurd huser.2.1 (by decide)
    rw [hothers root' path' j hroot' hlength' hapicOff, hkept root' path' j hroot' hlength' hwindowOff]
  · have hapicOff : ¬ KernelTableSlot m.apicBase [0, 0] i ∧
        ¬ ([0, 0] = [pgdIndex m.apicBase.hugePage, pudIndex m.apicBase.hugePage] ∧
          i = pmdIndex m.apicBase.hugePage) := by
      refine ⟨fun htab ↦ absurd htab.length_lt (by simp), ?_⟩
      rintro ⟨hpath, rfl⟩
      simp only [List.cons.injEq, and_true] at hpath
      have := m.apicBase.not_window_pmd hpath.1.symm hpath.2.symm
      omega
    refine ⟨windowFlags config, kernelFlags_window config, ?_⟩
    rw [hothers root [0, 0] i hroot (by simp) (Or.inr hapicOff), hentries₂ root [0, 0] i hroot (by simp),
      if_pos ⟨rfl, rfl, Nat.zero_le _, by simpa using hi⟩]

theorem writeWindow_pmd (config : OsConfigs) (pmd remaining pfn : ℕ) (m : Memory) :
    (writeWindow config pmd pfn remaining m).osPmdPfn = m.osPmdPfn := by
  induction remaining generalizing pfn m with
  | zero => rfl
  | succ remaining ih => exact ih (pfn + 1) _

/-- `os_pmd_pfn` stays, or becomes the frame of the new third-level table. -/
theorem installOsPts_pmd {config : OsConfigs} (h : Tables roots m) (hroot : roots root)
    (hpgd : m.phys root 0 ≠ 0) (hgranted : (installOsPts root config m).AllocsGranted) :
    (installOsPts root config m).osPmdPfn = m.osPmdPfn ∨
      ∃ m₁, Grant .osPt m m₁ (installOsPts root config m).osPmdPfn := by
  obtain ⟨hsame, htable⟩ := linkTable_follow (i := 0) osPtsStyle_sound h hroot PhysMem.tableAt_nil
    (by simp) (Or.inl ⟨rfl, Or.inl rfl⟩) hpgd
  have hallocated := h.table_allocated _ (Tables.isTable_of_tableAt hroot (by simp) htable)
  have hpmd : (linkTable osPtsStyle (linkTable osPtsStyle root 0 m).1 0 m).2.AllocsGranted := by
    have hlinked := (writeWindow_granted osPtMaps 0 _).1 (installApicMapping_granted_of hgranted)
    rw [hsame] at hlinked
    split at hlinked <;> exact hlinked
  have heq : (installOsPts root config m).osPmdPfn =
      (if osPtsStyle.present (m.phys (linkTable osPtsStyle root 0 m).1 0) then
        (linkTable osPtsStyle (linkTable osPtsStyle root 0 m).1 0 m).2
      else { (linkTable osPtsStyle (linkTable osPtsStyle root 0 m).1 0 m).2 with
        osPmdPfn := (linkTable osPtsStyle (linkTable osPtsStyle root 0 m).1 0 m).1 }).osPmdPfn := by
    refine ((linkTables_pmd _ _ _ _).trans (writeWindow_pmd _ _ _ _ _)).trans ?_
    rw [hsame]
  rw [heq]
  split
  · exact Or.inl (linkTable_pmd _ _ _ _)
  · rename_i habsent
    have hzero : m.phys (linkTable osPtsStyle root 0 m).1 0 = 0 := by
      by_contra hne
      exact habsent (decide_eq_true hne)
    obtain ⟨m₁, pfn, hgrant, hpfn, -⟩ := linkTable_empty osPtsStyle_sound h.regions_ok hzero (fun _ ↦ hallocated) hpmd
    rw [hpfn]
    exact Or.inr ⟨m₁, hgrant⟩

end GemOS
