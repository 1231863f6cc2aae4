import GemOS.Paging.Release

/-!
# The kernel's own pages

Where the identity window and the APIC page are mapped, their addresses are translated to themselves, for the kernel
only.
-/

namespace GemOS

open Foundation TableForest Memory

variable {roots : ℕ → Prop} {m : Memory} {apic : ApicBase} {path : List ℕ} {root addr i e t base base' flags : ℕ}

/-- The addresses of the identity window and of the APIC page. -/
def KernelAddr (apic : ApicBase) (addr : ℕ) : Prop := addr < osPtMaps * 2 ^ 21 ∨ addr / 2 ^ 21 = apic.value / 2 ^ 21

theorem KernelAddr.not_userAddr (h : KernelAddr apic addr) : ¬ UserAddr addr := by
  rintro ⟨hlow, hhigh⟩
  have houtside := apic.outside_user
  rcases h with hwindow | hapic
  · simp only [osPtMaps] at hwindow
    omega
  · omega

theorem KernelAddr.lt (h : KernelAddr apic addr) : addr < 2 ^ 47 := by
  have hcanonical := apic.canonical
  rcases h with hwindow | hapic
  · simp only [osPtMaps] at hwindow
    omega
  · omega

/-- The slot of a kernel address. -/
theorem KernelAddr.slot (h : KernelAddr apic addr) :
    KernelPageSlot apic [pgdIndex addr, pudIndex addr] (pmdIndex addr) (addr / 2 ^ 21 * 2 ^ 21) := by
  rcases h with hwindow | hapic
  · have hpgd : pgdIndex addr = 0 := by
      rw [pgdIndex_eq]
      simp only [osPtMaps] at hwindow
      omega
    have hpud : pudIndex addr = 0 := by
      rw [pudIndex_eq]
      simp only [osPtMaps] at hwindow
      omega
    have hpmd : pmdIndex addr = addr / 2 ^ 21 := by
      rw [pmdIndex_eq]
      simp only [osPtMaps] at hwindow
      omega
    have hpage : addr / 2 ^ 21 < osPtMaps := Nat.div_lt_of_lt_mul (by rwa [Nat.mul_comm])
    rw [hpgd, hpud, hpmd, ← Nat.shiftLeft_eq]
    exact .window _ hpage
  · have hbase : apic.hugePage = addr / 2 ^ 21 * 2 ^ 21 := by
      rw [apic.hugePage_eq]
      omega
    have hindices : pgdIndex addr = pgdIndex apic.hugePage ∧ pudIndex addr = pudIndex apic.hugePage ∧
        pmdIndex addr = pmdIndex apic.hugePage := by
      simp only [pgdIndex_eq, pudIndex_eq, pmdIndex_eq]
      omega
    rw [hindices.1, hindices.2.1, hindices.2.2, ← hbase]
    exact .apic

/-- A slot of a 2 MB page is for one page only. -/
theorem KernelPageSlot.base_eq (h : KernelPageSlot apic path i base)
    (h' : KernelPageSlot apic path i base') : base = base' := by
  have hdiffer : ∀ i, i < osPtMaps → [0, 0] = [pgdIndex apic.hugePage, pudIndex apic.hugePage] →
      i ≠ pmdIndex apic.hugePage := by
    rintro i hi hpath rfl
    simp only [List.cons.injEq, and_true] at hpath
    exact absurd (apic.not_window_pmd hpath.1.symm hpath.2.symm) (by omega)
  generalize hpath : path = p at h'
  cases h with
  | window i hi =>
    cases h' with
    | window => rfl
    | apic => exact absurd rfl (hdiffer _ hi hpath)
  | apic =>
    cases h' with
    | window _ hi => exact absurd rfl (hdiffer _ hi hpath.symm)
    | apic => rfl

/-- A table that is not for user pages is linked with the write bit. -/
theorem EntryOk.writable_of_table (h : EntryOk apic path i e) (hslot : ¬ UserSlot path i)
    (htable : tableOf e = some t) :
    e.testBit 1 = true := by
  cases h with
  | empty => exact absurd htable (by simp [tableOf_zero])
  | userTable huser => exact absurd huser hslot
  | userPage huser => exact absurd huser hslot
  | kernelTable =>
    rw [makeEntry, pageShift, Nat.testBit_or, Nat.testBit_shiftLeft]
    rfl
  | kernelPage _ hflags =>
    rw [tableOf_huge _ hflags] at htable
    exact absurd htable (by simp)

/-- The frame of a 2 MB page. -/
theorem hwFrame_huge (hflags : KernelFlags flags) {page : ℕ} (hpage : page < 2 ^ 31) :
    hwFrame (page * 2 ^ 21 ||| flags) / 512 = page := by
  have hshift : hwFrame (page * 2 ^ 21 ||| flags) / 512 = (page * 2 ^ 21 ||| flags) >>> 21 % 2 ^ 31 := by
    rw [hwFrame, Nat.shiftRight_eq_div_pow]
    omega
  rw [hshift, Nat.shiftRight_or_distrib, Nat.or_mod_two_pow, Nat.shiftRight_eq_div_pow (page * 2 ^ 21),
    Nat.mul_div_cancel _ (by norm_num), Nat.mod_eq_of_lt hpage]
  have hnone : flags >>> 21 % 2 ^ 31 = 0 := by
    rcases hflags with rfl | rfl | rfl <;> decide
  rw [hnone, Nat.or_zero]

theorem KernelMapped.entry_ne_zero (h : KernelMapped m root) (hslot : KernelPageSlot m.apicBase path i base) :
    m.phys.entry root path i ≠ 0 := by
  cases hslot with
  | window i hi => exact h.window i hi
  | apic => exact h.apic

/-- Every address of the kernel is translated to itself, with the right to write, and not for user mode. -/
theorem Tables.hwWalk_kernelAddr (h : Tables roots m) (hroot : roots root) (hmapped : KernelMapped m root)
    (htop : (m.phys.entry root [] 0).testBit 1 = true) (haddr : KernelAddr m.apicBase addr) :
    hwWalk m.phys root addr = some ⟨addr / 4096, false, true⟩ := by
  have hlt := haddr.lt
  have hslot := haddr.slot
  have hentry := hmapped.entry_ne_zero hslot
  obtain ⟨pmd, hpmd, -⟩ := walk_of_entryAt_ne_zero hentry
  have hpud : m.phys.tableAt root ([pgdIndex addr] ++ [pudIndex addr]) = some pmd := hpmd
  rw [PhysMem.tableAt_concat_entry] at hpud
  obtain ⟨pud, hpgd⟩ : ∃ pud, m.phys.tableAt root ([] ++ [pgdIndex addr]) = some pud := by
    rcases hnone : m.phys.tableAt root ([] ++ [pgdIndex addr]) with _ | pud
    · have := PhysMem.tableAt_append_none hnone [pudIndex addr]
      exact absurd (this.symm.trans hpmd) (by simp)
    · exact ⟨pud, rfl⟩
  rw [PhysMem.tableAt_concat_entry] at hpgd
  have hpgdOk := h.entry_ok root [] (pgdIndex addr) hroot (by simp)
  have hpudOk := h.entry_ok root [pgdIndex addr] (pudIndex addr) hroot (by simp)
  have hpmdOk := h.entry_ok root [pgdIndex addr, pudIndex addr] (pmdIndex addr) hroot (by simp)
  have huser : ¬ UserSlot (tablePath addr) (pteIndex addr) := fun huser ↦
    haddr.not_userAddr (userAddr_of_slot hlt huser)
  have hpgdWritable : (m.phys.entry root [] (pgdIndex addr)).testBit 1 = true := by
    by_cases hzero : pgdIndex addr = 0
    · rw [hzero, htop]
    · exact hpgdOk.writable_of_table hzero hpgd
  have hpudWritable := hpudOk.writable_of_table huser hpud
  have hpgdPresent := (hpgdOk.shift_of_table (by simp) hpgd).1
  have hpudPresent := (hpudOk.shift_of_table (by simp) hpud).1
  obtain ⟨flags, hflags, hhuge⟩ : ∃ flags, KernelFlags flags ∧
      m.phys.entry root [pgdIndex addr, pudIndex addr] (pmdIndex addr) = addr / 2 ^ 21 * 2 ^ 21 ||| flags := by
    generalize m.phys.entry root [pgdIndex addr, pudIndex addr] (pmdIndex addr) = e at hpmdOk hentry
    cases hpmdOk with
    | empty => exact absurd rfl hentry
    | userTable hslot' => exact absurd hslot' huser
    | userPage _ hlast => exact absurd hlast (by simp)
    | kernelTable hslot' => exact absurd hslot'.length_lt (by simp)
    | kernelPage hslot' hflags => exact ⟨_, hflags, by rw [hslot'.base_eq hslot]⟩
  have hwalk : hwWalk m.phys root addr = some
      { pfn := hwFrame (addr / 2 ^ 21 * 2 ^ 21 ||| flags) / 512 * 512 + pteIndex addr
        user := (m.phys.entry root [] (pgdIndex addr)).testBit 2 &&
          (m.phys.entry root [pgdIndex addr] (pudIndex addr)).testBit 2 &&
          (addr / 2 ^ 21 * 2 ^ 21 ||| flags).testBit 2
        writable := true } := by
    have hbits : ∀ bit, flags.testBit bit = true → (addr / 2 ^ 21 * 2 ^ 21 ||| flags).testBit bit =
        true := fun bit hbit ↦ by
      rw [Nat.testBit_or, hbit, Bool.or_true]
    have hset : flags.testBit 0 = true ∧ flags.testBit 1 = true ∧ flags.testBit 7 = true := by
      rcases hflags with rfl | rfl | rfl <;> decide
    have hpresent := Nat.and_two_pow (addr / 2 ^ 21 * 2 ^ 21 ||| flags) 0
    have hlarge := Nat.and_two_pow (addr / 2 ^ 21 * 2 ^ 21 ||| flags) 7
    rw [hbits 0 hset.1] at hpresent
    rw [hbits 7 hset.2.2] at hlarge
    rw [h.hwWalk_eq hroot, hhuge, hwTranslate, if_neg, if_pos, hpgdWritable, hpudWritable, hbits 1 hset.2.1]
    · rfl
    · exact fun hzero ↦ absurd (hlarge.symm.trans hzero) (by decide)
    · rintro (hzero | hzero | hzero)
      · exact hpgdPresent hzero
      · exact hpudPresent hzero
      · exact absurd (hpresent.symm.trans hzero) (by decide)
  have hmapping := h.hwWalk_not_user hroot huser hwalk
  simp only at hmapping
  rw [hwalk, hmapping, hwFrame_huge hflags (by omega), pteIndex_eq]
  have hpage : addr / 2 ^ 21 * 512 + addr / 2 ^ 12 % 512 = addr / 4096 := by omega
  rw [hpage]

end GemOS
