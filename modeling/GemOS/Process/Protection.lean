import GemOS.Paging.Identity
import GemOS.Process.Output
import GemOS.Process.Teardown

/-!
# What user mode reaches

The page table of a process shows user mode nothing but pages of its segments, and those of CODE and RODATA only for
reading.
-/

namespace GemOS

open Foundation TableForest Memory Kernel

variable {roots : ℕ → Prop} {k : Kernel} {i : Fin maxProcesses} {addr : ℕ}

/-- The address lies within the bounds of the segment. -/
def MmSegment.Contains (mm : MmSegment) (addr : ℕ) : Prop := mm.start ≤ addr ∧ addr ≤ mm.stop

/-- The four segments cover the user addresses. -/
theorem ContextOk.segment_cases {ctx : ExecContext} (h : ContextOk ctx) (haddr : UserAddr addr) :
    (addr < dataStart ∧ ((ctx.mms .code).Contains addr ∨ (ctx.mms .rodata).Contains addr)) ∨
      (ctx.mms .data).Contains addr ∨ (ctx.mms .stack).Contains addr := by
  obtain ⟨hlow, hhigh⟩ := haddr
  unfold MmSegment.Contains
  simp only [h.start_eq, h.stop_eq]
  simp only [initSegments, codeStart, rodataStart, dataStart, stackStart, maxStackSize] at *
  omega

/-- A page that user mode can access lies in a segment, and can be written in DATA and STACK only. -/
theorem Reachable.segment_of_userAccessible (h : Reachable k) (hgranted : k.mem.AllocsGranted)
    (hlive : Live k.ctxs i) {write : Bool}
    (haccess : UserAccessible k.mem.phys (k.ctxs (some i)).pgd addr write) :
    ∃ seg pte, ((k.ctxs (some i)).mms seg).Contains addr ∧ getUserPte k.mem.phys (k.ctxs (some i)).pgd addr = some pte ∧
      ((k.mem.phys pte.1 pte.2).testBit 1 = true ∨ write = true → seg = .data ∨ seg = .stack) := by
  obtain ⟨roots, hsound⟩ := (h.inv hgranted).sound
  have hroot := hsound.live_root i hlive
  obtain ⟨haddr, hentry, hwrite⟩ := (hsound.tables.userAccessible_iff hroot write).1 haccess
  rcases hsound.tables.page_cases hroot haddr.slot with ⟨hzero, -⟩ | ⟨pt, pfn, flags, htable, -, -, -, hsome, -⟩
  · exact absurd hzero hentry
  have hpte : k.mem.phys pt (pteIndex addr) = k.mem.phys.pageEntry (k.ctxs (some i)).pgd addr :=
    (PhysMem.entry_of_tableAt htable _).symm
  rcases (hsound.context_ok i hlive).segment_cases haddr with ⟨hlow, hsegment⟩ | hdata | hstack
  · have hclear := hsound.read_only _ hroot addr haddr hlow
    have hnever : ¬ ((k.mem.phys pt (pteIndex addr)).testBit 1 = true ∨ write = true) := by
      rw [hpte, hclear]
      rintro (hbit | htrue)
      · exact Bool.noConfusion hbit
      · have hwritable := hwrite htrue
        rw [PhysMem.pathWritable, Bool.and_eq_true] at hwritable
        exact Bool.noConfusion (hclear.symm.trans hwritable.2)
    rcases hsegment with hcode | hrodata
    · exact ⟨.code, _, hcode, hsome, fun hbit ↦ absurd hbit hnever⟩
    · exact ⟨.rodata, _, hrodata, hsome, fun hbit ↦ absurd hbit hnever⟩
  · exact ⟨.data, _, hdata, hsome, fun _ ↦ Or.inl rfl⟩
  · exact ⟨.stack, _, hstack, hsome, fun _ ↦ Or.inr rfl⟩

/-- So it is in runs without stray stores, as long as every frame is granted. -/
theorem userAccessible_segment (h : SafelyReachable k) (hgranted : k.mem.AllocsGranted) (hlive : Live k.ctxs i)
    {write : Bool} (haccess : UserAccessible k.mem.phys (k.ctxs (some i)).pgd addr write) :
    ∃ seg pte, ((k.ctxs (some i)).mms seg).Contains addr ∧ getUserPte k.mem.phys (k.ctxs (some i)).pgd addr = some pte ∧
      ((k.mem.phys pte.1 pte.2).testBit 1 = true ∨ write = true → seg = .data ∨ seg = .stack) :=
  h.reachable.segment_of_userAccessible hgranted hlive haccess

theorem userAccessible_segment_init :
    ∃ seg pte, ((initProcess.ctxs (some ⟨1, by decide⟩)).mms seg).Contains dataStart ∧
      getUserPte initProcess.mem.phys (initProcess.ctxs (some ⟨1, by decide⟩)).pgd dataStart = some pte ∧
      ((initProcess.mem.phys pte.1 pte.2).testBit 1 = true ∨ true = true → seg = .data ∨ seg = .stack) := by
  have hrun : (∀ event ∈ initProcess.mem.trace, event.Granted) ∧
      (initProcess.ctxs (some ⟨1, by decide⟩)).state ≠ .unused ∧
      UserAccessible initProcess.mem.phys (initProcess.ctxs (some ⟨1, by decide⟩)).pgd dataStart true :=
        by decide +kernel
  have hlive : Live initProcess.ctxs ⟨1, by decide⟩ := ⟨by decide, hrun.2.1⟩
  exact userAccessible_segment initProcess_safe hrun.1 hlive hrun.2.2

/-- The frame that the kernel reads out of the entry `get_user_pte` finds. -/
def PhysMem.pteFrame (phys : PhysMem) (pte : ℕ × ℕ) : ℕ := (phys pte.1 pte.2 >>> pteShift) &&& 0xffffffff

/-- The walk of the kernel finds a frame exactly when the processor lets user mode read it, and the same one. -/
def WalksAgree (phys : PhysMem) (pgd addr : ℕ) : Prop :=
  ∀ pfn, (∃ pte, getUserPte phys pgd addr = some pte ∧ phys.pteFrame pte = pfn) ↔
    ∃ mapping, hwWalk phys pgd addr = some mapping ∧ mapping.user = true ∧ mapping.pfn = pfn

theorem Tables.walksAgree {m : Memory} {root : ℕ} (h : Tables roots m) (hroot : roots root) :
    WalksAgree m.phys root addr := by
  intro pfn
  by_cases hslot : UserSlot (tablePath addr) (pteIndex addr)
  · rcases h.page_cases hroot hslot with ⟨-, hnone, hwalk⟩ | ⟨pt, frame, flags, htable, husable,
      hflags, hentry, hsome, hwalk⟩
    · rw [hnone, hwalk]
      simp
    · have hframe : m.phys.pteFrame (pt, pteIndex addr) = frame := by
        have hpte : m.phys pt (pteIndex addr) = makeEntry frame flags :=
          by rw [← hentry, PhysMem.pageEntry, PhysMem.entry_of_tableAt htable]
        rw [PhysMem.pteFrame, hpte, frame_lowWord_makeEntry (husable.contains.lt.trans (by norm_num)) hflags.tableFlags]
      rw [hsome, hwalk]
      simp [hframe]
  · rw [h.getUserPte_not_user hroot hslot]
    constructor
    · rintro ⟨pte, hnone, -⟩
      exact absurd hnone (by simp)
    · rintro ⟨mapping, hwalk, huser, -⟩
      exact Bool.noConfusion ((h.hwWalk_not_user hroot hslot hwalk).symm.trans huser)

/-- As long as every frame is granted both walks agree, and the kernel's addresses have no entry. -/
theorem Reachable.walks_agree_of_granted (h : Reachable k) (hgranted : k.mem.AllocsGranted) (hlive : Live k.ctxs i)
    (haddr : addr < 2 ^ 47) :
    WalksAgree k.mem.phys (k.ctxs (some i)).pgd addr ∧
      (KernelAddr k.mem.apicBase addr → getUserPte k.mem.phys (k.ctxs (some i)).pgd addr = none) := by
  obtain ⟨roots, hsound⟩ := (h.inv hgranted).sound
  have hroot := hsound.live_root i hlive
  refine ⟨hsound.tables.walksAgree hroot, fun hkernel ↦ hsound.tables.getUserPte_not_user hroot fun hslot ↦ ?_⟩
  exact hkernel.not_userAddr (userAddr_of_slot haddr hslot)

/-- So it is in runs without stray stores. -/
theorem walks_agree (h : SafelyReachable k) (hgranted : k.mem.AllocsGranted) (hlive : Live k.ctxs i)
    (haddr : addr < 2 ^ 47) :
    WalksAgree k.mem.phys (k.ctxs (some i)).pgd addr ∧
      (KernelAddr k.mem.apicBase addr → getUserPte k.mem.phys (k.ctxs (some i)).pgd addr = none) :=
  h.reachable.walks_agree_of_granted hgranted hlive haddr

theorem walks_agree_init :
    WalksAgree initProcess.mem.phys (initProcess.ctxs (some ⟨1, by decide⟩)).pgd codeStart ∧
      (KernelAddr initProcess.mem.apicBase codeStart →
        getUserPte initProcess.mem.phys (initProcess.ctxs (some ⟨1, by decide⟩)).pgd codeStart = none) := by
  have hrun : (∀ event ∈ initProcess.mem.trace, event.Granted) ∧
      (initProcess.ctxs (some ⟨1, by decide⟩)).state ≠ .unused := by decide +kernel
  have hlive : Live initProcess.ctxs ⟨1, by decide⟩ := ⟨by decide, hrun.2⟩
  exact walks_agree initProcess_safe hrun.1 hlive (by decide)

/-- User mode reaches frames of the user region only, as long as every frame is granted. -/
theorem userAccessible_userFrame (h : Reachable k) (hgranted : k.mem.AllocsGranted)
    (hlive : Live k.ctxs i) {write : Bool}
    (haccess : UserAccessible k.mem.phys (k.ctxs (some i)).pgd addr write) :
    ∃ mapping, hwWalk k.mem.phys (k.ctxs (some i)).pgd addr = some mapping ∧ Region.user.Usable mapping.pfn := by
  obtain ⟨roots, hsound⟩ := (h.inv hgranted).sound
  exact hsound.tables.userAccessible_usable (hsound.live_root i hlive) haccess

theorem userAccessible_userFrame_init :
    ∃ mapping, hwWalk initProcess.mem.phys (initProcess.ctxs (some ⟨1, by decide⟩)).pgd codeStart = some mapping ∧
      Region.user.Usable mapping.pfn := by
  have hrun : (∀ event ∈ initProcess.mem.trace, event.Granted) ∧
      (initProcess.ctxs (some ⟨1, by decide⟩)).state ≠ .unused ∧
      UserAccessible initProcess.mem.phys (initProcess.ctxs (some ⟨1, by decide⟩)).pgd codeStart false :=
        by decide +kernel
  have hlive : Live initProcess.ctxs ⟨1, by decide⟩ := ⟨by decide, hrun.2.1⟩
  have hreachable : Reachable initProcess := reachable_blankBoot [launchInit]
  exact userAccessible_userFrame hreachable hrun.1 hlive hrun.2.2

section Drained

/-- The frame of the two tables is mapped for user mode. -/
theorem userAccessible_pageTable :
    Reachable selfMapped ∧ Live selfMapped.ctxs ⟨2, by decide⟩ ∧
      UserAccessible selfMapped.mem.phys (selfMapped.ctxs (some ⟨2, by decide⟩)).pgd (rodataStart + 0x201000) false ∧
      ¬ ∃ mapping, hwWalk selfMapped.mem.phys (selfMapped.ctxs (some ⟨2, by decide⟩)).pgd (rodataStart + 0x201000) =
        some mapping ∧ Region.user.Usable mapping.pfn := by
  have hrun : (selfMapped.ctxs (some ⟨2, by decide⟩)).state ≠ .unused ∧
      UserAccessible selfMapped.mem.phys (selfMapped.ctxs (some ⟨2, by decide⟩)).pgd (rodataStart + 0x201000) false ∧
      hwWalk selfMapped.mem.phys (selfMapped.ctxs (some ⟨2, by decide⟩)).pgd (rodataStart + 0x201000) =
        some ⟨0x2020, true, false⟩ := by decide +kernel
  refine ⟨reachable_drained _, ⟨by decide, hrun.1⟩, hrun.2.1, ?_⟩
  rw [hrun.2.2]
  rintro ⟨mapping, hmapping, husable⟩
  cases hmapping
  exact absurd husable.1 (by decide)

theorem walks_disagree :
    SafelyReachable selfWritten ∧ Live selfWritten.ctxs ⟨2, by decide⟩ ∧
      ¬ WalksAgree selfWritten.mem.phys (selfWritten.ctxs (some ⟨2, by decide⟩)).pgd
        (dataStart + 2 ^ 30 + 5 * 2 ^ 21) := by
  have hrun : (selfWritten.ctxs (some ⟨2, by decide⟩)).state ≠ .unused ∧
      hwWalk selfWritten.mem.phys (selfWritten.ctxs (some ⟨2, by decide⟩)).pgd (dataStart + 2 ^ 30 + 5 * 2 ^ 21) =
        some ⟨0, true, true⟩ ∧
      getUserPte selfWritten.mem.phys (selfWritten.ctxs (some ⟨2, by decide⟩)).pgd (dataStart + 2 ^ 30 + 5 * 2 ^ 21) =
        none := by decide +kernel
  have hsafe : SafelyReachable selfWritten := (reachable_drained _).safely (by decide +kernel)
  refine ⟨hsafe, ⟨by decide, hrun.1⟩, fun hagree ↦ ?_⟩
  obtain ⟨pte, hpte, -⟩ := (hagree 0).2 ⟨_, hrun.2.1, rfl, rfl⟩
  exact absurd (hrun.2.2.symm.trans hpte) (by simp)

/-- The table for CODE of the child is also a table for DATA of init: a CODE page of the child can be written. -/
theorem userAccessible_code_writable :
    SafelyReachable codeMapped ∧ Live codeMapped.ctxs ⟨14, by decide⟩ ∧
      UserAccessible codeMapped.mem.phys (codeMapped.ctxs (some ⟨14, by decide⟩)).pgd codeStart true ∧
      ∀ seg, ((codeMapped.ctxs (some ⟨14, by decide⟩)).mms seg).Contains codeStart → seg = .code := by
  have hrun : (codeMapped.ctxs (some ⟨14, by decide⟩)).state ≠ .unused ∧
      UserAccessible codeMapped.mem.phys (codeMapped.ctxs (some ⟨14, by decide⟩)).pgd codeStart true :=
        by decide +kernel
  have hbounds : ∀ seg, seg ≠ .code → codeStart < ((codeMapped.ctxs (some ⟨14, by decide⟩)).mms seg).start := by
    have heach : codeStart < ((codeMapped.ctxs (some ⟨14, by decide⟩)).mms .rodata).start ∧
        codeStart < ((codeMapped.ctxs (some ⟨14, by decide⟩)).mms .data).start ∧
        codeStart < ((codeMapped.ctxs (some ⟨14, by decide⟩)).mms .stack).start := by decide +kernel
    intro seg hseg
    cases seg with
    | code => exact absurd rfl hseg
    | rodata => exact heach.1
    | data => exact heach.2.1
    | stack => exact heach.2.2
  have hsafe : SafelyReachable codeMapped := (reachable_lateDrained _).safely (by decide +kernel)
  refine ⟨hsafe, ⟨by decide, hrun.1⟩, hrun.2, fun seg hcontains ↦ ?_⟩
  by_contra hseg
  exact absurd hcontains.1 (Nat.not_le.2 (hbounds seg hseg))

end Drained

end GemOS
