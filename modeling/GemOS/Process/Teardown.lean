import GemOS.Paging.Cleanup
import GemOS.Process.Crowding
import GemOS.Process.RunInvariant

/-!
# Taking a process down

The tree that `pt_cleanup` is given is the page table of a process, without the APIC page. In a run whose allocations
are all granted its pages and its tables are given back once each.
-/

namespace GemOS

open Foundation TableForest Memory Kernel

variable {intact : Fin maxProcesses → Prop} {k : Kernel} {i : Fin maxProcesses}

theorem Inv.sound (h : Inv intact k) : ∃ roots, Sound intact roots k.mem k.ctxs k.current := by
  obtain ⟨roots, hshell | ⟨i, huser⟩ | hswapper | ⟨-, hsound⟩⟩ := h
  · exact ⟨roots, hshell.sound⟩
  · exact ⟨roots, huser.sound⟩
  · exact ⟨roots, hswapper.sound⟩
  · exact ⟨roots, hsound⟩

namespace Kernel

/-- `do_cleanup` with another way to take the page table down. -/
def cleanedWith (cleanup : ℕ → ℕ → Memory → Memory) (k : Kernel) : Kernel :=
  let freed := osPfnFree .osPt k.ctx.osStackPfn k.mem
  let unmapped := removeApicMapping k.ctx.pgd freed
  let cleaned := cleanup 4 k.ctx.pgd unmapped
  let released := osPfnFree .osPt cleaned.osPmdPfn cleaned
  let k₁ := { k with mem := released }.setState k.current .unused
  { k₁ with current := none, cr3 := swapperPgd, mode := .shell }

theorem doCleanup_eq_present (k : Kernel) : k.doCleanup = k.cleanedWith cleanupPresent := by
  rw [← ptCleanup_eq_present]
  rfl

/-- The exit of the last process. -/
theorem step_exit_last (peek : ℕ → ℕ) (hmode : k.mode = .user) (hcall : k.syscallRequested = some .exit)
    (hlast : k.saveRegs.retire.procExist = false) : step (.syscall peek) k = k.saveRegs.retire.doCleanup := by
  rw [step_user hmode]
  have hexit : (doSyscall peek).final k = k.saveRegs.doExit := by
    change (dispatch peek k.regs.rsi k.regs.rdx k.syscallRequested >>= fun result ↦
      Prog.update fun k ↦ { k with regs := { k.regs with rax := result } }).final k.saveRegs = _
    rw [hcall]
    rfl
  refine hexit.trans (if_neg ?_)
  rw [hlast]
  exact Bool.noConfusion

end Kernel

/-- The page table of a process is taken down with one free for each of its pages and tables. -/
theorem pageTable_cleansOnce (h : Reachable k) (hgranted : k.mem.AllocsGranted) (hlive : Live k.ctxs i)
    (hmapped : KernelMapped k.mem (k.ctxs (some i)).pgd) :
    CleansOnce (removeApicMapping (k.ctxs (some i)).pgd k.mem)
      (ptCleanup 4 (k.ctxs (some i)).pgd (removeApicMapping (k.ctxs (some i)).pgd k.mem)) (k.ctxs (some i)).pgd := by
  obtain ⟨roots, hsound⟩ := (h.inv hgranted).sound
  have hroot := hsound.live_root i hlive
  obtain ⟨htables, -, -, -, hbase, -, -, hclear⟩ := removeApicMapping_spec hsound.tables hroot hmapped
  refine htables.cleansOnce hroot ?_
  rw [ApicRemoved, hbase]
  exact hclear

theorem pageTable_cleansOnce_init :
    let k := run Kernel.step blankBoot [launchInit]
    CleansOnce (removeApicMapping (k.ctxs (some ⟨1, by decide⟩)).pgd k.mem)
      (ptCleanup 4 (k.ctxs (some ⟨1, by decide⟩)).pgd (removeApicMapping (k.ctxs (some ⟨1, by decide⟩)).pgd k.mem))
      (k.ctxs (some ⟨1, by decide⟩)).pgd := by
  intro k
  have hrun : (∀ event ∈ k.mem.trace, event.Granted) ∧ (k.ctxs (some ⟨1, by decide⟩)).state ≠ .unused ∧
      (∀ i < osPtMaps, k.mem.phys.entry (k.ctxs (some ⟨1, by decide⟩)).pgd [0, 0] i ≠ 0) ∧
      k.mem.phys.entry (k.ctxs (some ⟨1, by decide⟩)).pgd [pgdIndex k.mem.apicBase.hugePage,
        pudIndex k.mem.apicBase.hugePage]
        (pmdIndex k.mem.apicBase.hugePage) ≠ 0 := by decide +kernel
  have hlive : Live k.ctxs ⟨1, by decide⟩ := ⟨by decide, hrun.2.1⟩
  exact pageTable_cleansOnce (reachable_blankBoot [launchInit]) hrun.1 hlive ⟨hrun.2.2.1, hrun.2.2.2⟩

/-- No table is given back twice. -/
theorem CleansOnce.count_le {m m' : Memory} {root : ℕ} (h : CleansOnce m m' root) (t : ℕ) :
    (m'.trace.map MemEvent.freed).count (some (.osPt, t)) ≤
      (m.trace.map MemEvent.freed).count (some (.osPt, t)) + 1 := by
  obtain ⟨calls, hfrees, htrace⟩ := h.frees
  have hone : calls.count (.osPt, t) ≤ 1 := by
    have hnodup : (calls.filter fun call ↦ call.1 = .osPt).Nodup := hfrees.tables_nodup.of_map _
    rw [← List.count_filter (p := fun call : Region × ℕ ↦ decide (call.1 = .osPt)) (by rfl)]
    exact List.nodup_iff_count_le_one.1 hnodup _
  rw [htrace, List.count_append, List.count_map_of_injective _ _ (Option.some_injective _), List.count_reverse]
  omega

/-- The frame that serves as two tables of the child is given back twice. -/
theorem pageTable_freed_twice :
    Reachable selfMapped ∧ Live selfMapped.ctxs ⟨2, by decide⟩ ∧
      KernelMapped selfMapped.mem (selfMapped.ctxs (some ⟨2, by decide⟩)).pgd ∧
      ¬ CleansOnce (removeApicMapping (selfMapped.ctxs (some ⟨2, by decide⟩)).pgd selfMapped.mem)
        (ptCleanup 4 (selfMapped.ctxs (some ⟨2, by decide⟩)).pgd
          (removeApicMapping (selfMapped.ctxs (some ⟨2, by decide⟩)).pgd selfMapped.mem))
        (selfMapped.ctxs (some ⟨2, by decide⟩)).pgd := by
  rw [ptCleanup_eq_present]
  have hrun : (selfMapped.ctxs (some ⟨2, by decide⟩)).state ≠ .unused ∧
      ((cleanupPresent 4 (selfMapped.ctxs (some ⟨2, by decide⟩)).pgd
        (removeApicMapping (selfMapped.ctxs (some ⟨2, by decide⟩)).pgd
        selfMapped.mem)).trace.map MemEvent.freed).count (some (.osPt, 0x2020)) = 2 ∧
      ((removeApicMapping (selfMapped.ctxs (some ⟨2, by decide⟩)).pgd selfMapped.mem).trace.map MemEvent.freed).count
        (some (.osPt, 0x2020)) = 0 := by decide +kernel
  have hmapped : (∀ i < osPtMaps, selfMapped.mem.phys.entry (selfMapped.ctxs (some ⟨2, by decide⟩)).pgd [0, 0] i ≠ 0) ∧
      selfMapped.mem.phys.entry (selfMapped.ctxs (some ⟨2, by decide⟩)).pgd [pgdIndex selfMapped.mem.apicBase.hugePage,
        pudIndex selfMapped.mem.apicBase.hugePage] (pmdIndex selfMapped.mem.apicBase.hugePage) ≠ 0 := by decide +kernel
  refine ⟨reachable_drained _, ⟨by decide, hrun.1⟩, ⟨hmapped.1, hmapped.2⟩, fun hclean ↦ ?_⟩
  have hle := hclean.count_le 0x2020
  omega

end GemOS
