import GemOS.Paging.Release

/-!
# Allocator calls only accumulate

No function of the model takes an allocator call back, so a run whose calls all succeeded had no failing
call at any point before.
-/

namespace GemOS

open Memory

theorem le_writeEntry (m : Memory) (pfn index value : ℕ) : m ≤ m.writeEntry pfn index value :=
  le_of_trace_eq rfl

theorem le_zeroFrame (m : Memory) (pfn : ℕ) : m ≤ m.zeroFrame pfn := le_of_trace_eq rfl

theorem le_linkTable (style : TableStyle) (table index : ℕ) (m : Memory) :
    m ≤ (linkTable style table index m).2 := by
  unfold linkTable
  split
  · exact le_rfl
  · have hlinked : m ≤ (osPfnAlloc .osPt m).2.writeEntry table index
        (makeEntry (osPfnAlloc .osPt m).1 style.flags) :=
      (le_osPfnAlloc .osPt m).trans (le_writeEntry _ _ _ _)
    simp only
    split
    · exact hlinked.trans (le_zeroFrame _ _)
    · exact hlinked

theorem le_linkTables (style : TableStyle) (path : List ℕ) (table : ℕ) (m : Memory) :
    m ≤ (linkTables style path table m).2 := by
  induction path generalizing table m with
  | nil => exact le_rfl
  | cons index path ih => exact (le_linkTable style table index m).trans (ih _ _)

theorem le_installPtable (base : ℕ) (mm : MmSegment) (address upfn : ℕ) (m : Memory) :
    m ≤ (installPtable base mm address upfn m).2 := by
  unfold installPtable
  simp only
  generalize (if address = 0 then mm.start else address) = addr
  refine (le_linkTables ptableStyle (tablePath addr) base m).trans (le_trans ?_ (le_writeEntry _ _ _ _))
  split
  · exact le_osPfnAlloc _ _
  · exact le_rfl

theorem le_fillPtes (table index startPfn : ℕ) (write : Bool) (remaining ctr : ℕ) (m : Memory) :
    m ≤ fillPtes table index startPfn write ctr remaining m := by
  induction remaining generalizing ctr m with
  | zero => exact le_rfl
  | succ remaining ih =>
    rw [fillPtes]
    refine le_trans (le_trans ?_ (le_writeEntry _ _ _ _)) (ih _ _)
    split
    · exact le_rfl
    · exact le_osPfnAlloc _ _

theorem le_installPtableMulti (pgd start count : ℕ) (write : Bool) (m : Memory) :
    m ≤ (installPtableMulti pgd start count write m).2 :=
  ((le_linkTables _ _ _ m).trans (le_osPfnAlloc _ _)).trans (le_fillPtes _ _ _ _ _ _ _)

theorem le_installPageTable (pgd addr errorCode : ℕ) (m : Memory) :
    m ≤ installPageTable pgd addr errorCode m :=
  ((le_linkTables _ _ _ m).trans (le_osPfnAlloc _ _)).trans (le_writeEntry _ _ _ _)

theorem le_doUnmapUser (pgd addr : ℕ) (m : Memory) : m ≤ (doUnmapUser pgd addr m).2 := by
  unfold doUnmapUser
  cases getUserPte m.phys pgd addr with
  | none => exact le_rfl
  | some slot => exact (le_osPfnFree _ _ m).trans (le_writeEntry _ _ _ _)

theorem le_writeWindow (config : OsConfigs) (pmd remaining pfn : ℕ) (m : Memory) :
    m ≤ writeWindow config pmd pfn remaining m := by
  induction remaining generalizing pfn m with
  | zero => exact le_rfl
  | succ remaining ih => exact (le_writeEntry _ _ _ _).trans (ih _ _)

theorem le_installOsPts (pl4 : ℕ) (config : OsConfigs) (m : Memory) : m ≤ installOsPts pl4 config m := by
  unfold installOsPts
  simp only
  have hpud := le_linkTable osPtsStyle pl4 0 m
  generalize linkTable osPtsStyle pl4 0 m = pud at *
  have hpmd := le_linkTable osPtsStyle pud.1 0 pud.2
  generalize linkTable osPtsStyle pud.1 0 pud.2 = pmd at *
  refine (hpud.trans hpmd).trans (le_trans ?_ ((le_writeWindow config _ osPtMaps 0 _).trans
    ((le_linkTables apicStyle _ pl4 _).trans (le_writeEntry _ _ _ _))))
  split
  · exact le_rfl
  · exact le_of_trace_eq rfl

theorem le_removeApicMapping (pl4 : ℕ) (m : Memory) : m ≤ removeApicMapping pl4 m :=
  le_writeEntry _ _ _ _

theorem le_foldl {ι : Type*} {f : Memory → ι → Memory} (hf : ∀ m i, m ≤ f m i) (indices : List ι) (m : Memory) :
    m ≤ indices.foldl f m := by
  induction indices generalizing m with
  | nil => exact le_rfl
  | cons i indices ih => exact (hf m i).trans (ih _)

theorem le_ptCleanup (level pfn : ℕ) (m : Memory) : m ≤ ptCleanup level pfn m := by
  induction level generalizing pfn m with
  | zero =>
    rw [ptCleanup]
    split
    · exact le_rfl
    · exact le_osPfnFree _ _ _
  | succ level ih =>
    rw [ptCleanup]
    have hcleaned : m ≤ (List.range' (cleanupFirst (level + 1)) (512 - cleanupFirst (level + 1))).foldl
        (fun m i ↦ if m.phys pfn i &&& 0x1 = 0 then m
          else (ptCleanup level (m.phys pfn i >>> 12) m).writeEntry pfn i 0) m := by
      refine le_foldl (fun m i ↦ ?_) _ m
      split
      · exact le_rfl
      · exact (ih _ _).trans (le_writeEntry _ _ _ _)
    split
    · exact hcleaned
    · exact hcleaned.trans (le_osPfnFree _ _ _)

end GemOS
