import GemOS.Process.Persistence
import GemOS.Process.StrayStores
import Mathlib.Order.CompletePartialOrder

/-!
# Where the records of the process table lie

The kernel takes one frame for `ctx_list` and then treats it as an array of `MAX_PROCESSES` records. The layout of
`struct exec_context` makes a record 432 bytes long, so nine of them end inside the frame; the others run into the
next frame, which the allocator hands out right after as the kernel stack of the swapper.
-/

namespace GemOS

open Foundation Memory

/-- The bytes of a frame. -/
def frameBytes (pfn : ℕ) : Set ℕ := Set.Ico (pfn * pageSize) ((pfn + 1) * pageSize)

/-- The bytes of the record that `get_ctx_by_pid` returns. -/
def recordBytes (k : Kernel) (pid : ℕ) : Set ℕ :=
  let start := k.bootFrames.ctxList * pageSize + pid * recordSize execContextFields
  Set.Ico start (start + recordSize execContextFields)

/-- The frame that a call of `os_pfn_alloc` returned. -/
def MemEvent.handed : MemEvent → Option ℕ
  | .alloc _ pfn _ => some pfn
  | .free _ _ _ => none

/-- The frames handed out so far, the last one first. -/
def Memory.handedOut (m : Memory) : List ℕ := m.trace.filterMap MemEvent.handed

/-- The record lies in the frame of the process table, and in no frame that was handed out for another purpose. -/
structure RecordApart (k : Kernel) (pid : ℕ) : Prop where
  inside : recordBytes k pid ⊆ frameBytes k.bootFrames.ctxList
  apart : ∀ pfn ∈ k.mem.handedOut.erase k.bootFrames.ctxList, Disjoint (recordBytes k pid) (frameBytes pfn)

theorem mem_frameBytes {pfn addr : ℕ} : addr ∈ frameBytes pfn ↔ addr / pageSize = pfn := by
  unfold frameBytes
  rw [Set.mem_Ico, pageSize]
  omega

theorem disjoint_frameBytes {pfn other : ℕ} (h : pfn ≠ other) : Disjoint (frameBytes pfn) (frameBytes other) := by
  rw [Set.disjoint_left]
  intro addr haddr haddr'
  exact h ((mem_frameBytes.1 haddr).symm.trans (mem_frameBytes.1 haddr'))

theorem handedOut_mono {m m' : Memory} (h : m ≤ m') {pfn : ℕ} (hpfn : pfn ∈ m.handedOut) : pfn ∈ m'.handedOut :=
  ((show m.trace <:+ m'.trace from h).filterMap _).subset hpfn

section Boot

variable {m : Memory} {region other : Region}

theorem pglists_osPfnAlloc_of_ne (h : other ≠ region) : (osPfnAlloc region m).2.pglists other = m.pglists other := by
  unfold osPfnAlloc
  simp only
  split
  · rfl
  · exact Function.update_of_ne h _ _

/-- A call of the allocator, read off the page list of its region. -/
theorem osPfnAlloc_of_list {pgl : PageList} (h : m.pglists region = pgl) (hpos : pgl.freePages ≠ 0) :
    (osPfnAlloc region m).1 = pgl.getFreePage.1 ∧ (osPfnAlloc region m).2.pglists region = pgl.getFreePage.2 ∧
      (osPfnAlloc region m).2.handedOut = pgl.getFreePage.1 :: m.handedOut := by
  subst h
  rw [osPfnAlloc_of_pos hpos]
  exact ⟨rfl, Function.update_self .., rfl⟩

theorem pglists_allocMany (h : other ≠ region) (count : ℕ) (m : Memory) :
    (Kernel.allocMany region count m).pglists other = m.pglists other := by
  induction count with
  | zero => rfl
  | succ count ih => exact (pglists_osPfnAlloc_of_ne h).trans ih

/-- The page list of the page-table region after some calls of the allocator at boot. -/
def bootList : ℕ → PageList
  | 0 => initPagelists .osPt
  | count + 1 => (bootList count).getFreePage.2

/-- The frames taken at boot are consecutive. -/
theorem bootAlloc_frames (phys : PhysMem) (apicBase : ApicBase) :
    (Kernel.bootAlloc (.init phys apicBase)).1 = ⟨0x2001, 0x2002, 0x2003, 0x2004⟩ ∧
      [0x2005, 0x2004, 0x2003, 0x2002, 0x2001] <+: (Kernel.bootAlloc (.init phys apicBase)).2.2.handedOut := by
  have hstart : (Kernel.allocMany .osDs Kernel.osDsFrames (.init phys apicBase)).pglists .osPt = bootList 0 :=
    pglists_allocMany (by decide) _ _
  unfold Kernel.bootAlloc
  generalize Kernel.allocMany .osDs Kernel.osDsFrames (.init phys apicBase) = m₀ at *
  obtain ⟨htss, hlist₁, hhanded₁⟩ := osPfnAlloc_of_list hstart (by decide +kernel)
  obtain ⟨hirq, hlist₂, hhanded₂⟩ := @osPfnAlloc_of_list _ _ (bootList 1) hlist₁ (by decide +kernel)
  obtain ⟨hidt, hlist₃, hhanded₃⟩ := @osPfnAlloc_of_list _ _ (bootList 2) hlist₂ (by decide +kernel)
  obtain ⟨hctxs, hlist₄, hhanded₄⟩ := @osPfnAlloc_of_list _ _ (bootList 3) hlist₃ (by decide +kernel)
  obtain ⟨-, -, hhanded₅⟩ := @osPfnAlloc_of_list _ _ (bootList 4) hlist₄ (by decide +kernel)
  have hframes : (bootList 0).getFreePage.1 = 0x2001 ∧ (bootList 1).getFreePage.1 = 0x2002 ∧
      (bootList 2).getFreePage.1 = 0x2003 ∧ (bootList 3).getFreePage.1 = 0x2004 ∧
        (bootList 4).getFreePage.1 = 0x2005 := by
    decide +kernel
  obtain ⟨h₁, h₂, h₃, h₄, h₅⟩ := hframes
  simp only [htss, hirq, hidt, hctxs, hhanded₅, hhanded₄, hhanded₃, hhanded₂, hhanded₁, h₁, h₂, h₃, h₄, h₅]
  exact ⟨trivial, List.prefix_append [0x2005, 0x2004, 0x2003, 0x2002, 0x2001] _⟩

end Boot

/-- The frame of the process table and the one behind it, in every reachable state. -/
theorem Reachable.bootFrames_eq {k : Kernel} (h : Reachable k) :
    k.bootFrames = ⟨0x2001, 0x2002, 0x2003, 0x2004⟩ ∧
      ∀ pfn ∈ [0x2005, 0x2004, 0x2003, 0x2002, 0x2001], pfn ∈ k.mem.handedOut := by
  obtain ⟨phys, apicBase, wp, null, events, rfl⟩ := h
  obtain ⟨hframes, hhanded⟩ := bootAlloc_frames phys apicBase
  have hmem : (Kernel.boot phys apicBase wp null).mem = (Kernel.bootAlloc (.init phys apicBase)).2.2 := by
    rw [Kernel.boot]
  have hboot : (Kernel.boot phys apicBase wp null).bootFrames = (Kernel.bootAlloc (.init phys apicBase)).1 := by
    rw [Kernel.boot]
  rw [← hmem] at hhanded
  rw [← hboot] at hframes
  generalize Kernel.boot phys apicBase wp null = k at *
  have hrun := onward_run k events
  exact ⟨hrun.boot_eq.trans hframes, fun pfn hpfn ↦ handedOut_mono hrun.le (hhanded.subset hpfn)⟩

/-- In a reachable state in which no frame was handed out twice, the record of a pid that `get_ctx_by_pid` accepts
lies in the frame of the process table and apart from all others exactly when it is one of the first nine. -/
theorem recordApart_iff {k : Kernel} (h : Reachable k) (hdistinct : k.mem.handedOut.Nodup) {pid : ℕ}
    (haccepted : getCtxByPid pid ≠ none) : RecordApart k pid ↔ pid ≤ 8 := by
  obtain ⟨hboot, hhanded⟩ := h.bootFrames_eq
  have hlist : k.bootFrames.ctxList = 0x2004 := by rw [hboot]
  have hbytes : recordBytes k pid = Set.Ico (0x2004 * 4096 + pid * 432) (0x2004 * 4096 + pid * 432 + 432) := by
    unfold recordBytes
    rw [hlist, recordSize_execContext, pageSize]
  constructor
  · intro hapart
    by_contra hpid
    have hlt : pid < maxProcesses := by
      by_contra hge
      exact haccepted (dif_neg hge)
    -- the last byte of the record lies in the swapper's stack
    have hstack : 0x2005 ∈ k.mem.handedOut.erase k.bootFrames.ctxList := by
      rw [hlist, hdistinct.mem_erase_iff]
      exact ⟨by decide, hhanded _ (List.mem_cons_self ..)⟩
    have hshared := hapart.apart _ hstack
    rw [Set.disjoint_left] at hshared
    apply @hshared (0x2004 * 4096 + pid * 432 + 431)
    · rw [hbytes, Set.mem_Ico]
      omega
    · rw [mem_frameBytes, pageSize]
      simp only [maxProcesses] at hlt
      omega
  · intro hpid
    have hinside : recordBytes k pid ⊆ frameBytes k.bootFrames.ctxList := by
      intro addr haddr
      rw [hbytes, Set.mem_Ico] at haddr
      rw [mem_frameBytes, hlist, pageSize]
      omega
    refine ⟨hinside, fun pfn hpfn ↦ ?_⟩
    exact (disjoint_frameBytes (hdistinct.mem_erase_iff.1 hpfn).1.symm).mono_left hinside

theorem recordApart_iff_fork :
    RecordApart (run Kernel.step blankBoot (launchInit :: callEvents 10 0 0)) 2 ↔ 2 ≤ 8 :=
  recordApart_iff (reachable_blankBoot (launchInit :: callEvents 10 0 0)) (by decide +kernel) (by decide)

/-- Slot 9 shares bytes with the swapper's kernel stack from boot on. -/
theorem record_nine_overlaps :
    Reachable blankBoot ∧ blankBoot.mem.handedOut.Nodup ∧ getCtxByPid 9 ≠ none ∧
      (blankBoot.ctxs swapper).osStackPfn ∈ blankBoot.mem.handedOut.erase blankBoot.bootFrames.ctxList ∧
        ¬ Disjoint (recordBytes blankBoot 9) (frameBytes (blankBoot.ctxs swapper).osStackPfn) := by
  refine ⟨reachable_blankBoot [], by decide +kernel, by decide, by decide +kernel, fun hdisjoint ↦ ?_⟩
  have hstack : (blankBoot.ctxs swapper).osStackPfn = 0x2005 := by decide +kernel
  have hlist : blankBoot.bootFrames.ctxList = 0x2004 := by decide +kernel
  have hrecord : 0x2005 * 4096 ∈ recordBytes blankBoot 9 := by
    unfold recordBytes
    rw [hlist, recordSize_execContext, pageSize]
    simp
  refine Set.disjoint_left.1 hdisjoint hrecord ?_
  rw [mem_frameBytes, hstack, pageSize]

end GemOS
