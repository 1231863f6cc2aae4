import GemOS.Process.StrayStores
import GemOS.Process.RunInvariant

/-!
# Output of a user buffer

`do_write` looks up the page of the first byte and, unless the byte behind the last one is in the same page, the page of
that byte. Its walk uses the lower 48 bits of an address only. So it refuses a buffer that ends with the last page
below an unmapped one, it refuses an empty buffer in an unmapped page, and it reads through an address that is no
address at all.
-/

namespace GemOS

open Foundation Memory Kernel

variable {roots : ℕ → Prop} {k : Kernel} {i : Fin maxProcesses} {address length : ℕ}

/-- User mode can read every byte of the buffer. -/
def Readable (k : Kernel) (address length : ℕ) : Prop :=
  ∀ i < length, UserAccessible k.mem.phys k.cr3 (address + i) false

instance (k : Kernel) (address length : ℕ) : Decidable (Readable k address length) := by
  unfold Readable
  infer_instance

/-- The byte that user mode reads. -/
def userByte (k : Kernel) (addr : ℕ) : ℕ :=
  (hwWalk k.mem.phys k.cr3 addr).elim 0 fun mapping ↦ k.mem.phys.byteAt mapping.pfn (addr % pageSize)

/-- The bytes of the buffer. -/
def bufferBytes (k : Kernel) (address : ℕ) : ℕ → List ℕ
  | 0 => []
  | count + 1 => bufferBytes k address count ++ [userByte k (address + count)]

/-- A buffer that is short enough and readable is printed; for any other the call fails and reads nothing. -/
structure WritesBuffer (peek : ℕ → ℕ) (address length : ℕ) (k : Kernel) : Prop where
  prints : length ≤ maxWriteLen → Readable k address length →
    ∃ k', doWrite peek address length k = .ret length k' ∧
      k'.console = (bufferBytes k address length).takeWhile (· ≠ 0) :: k.console
  refuses : ¬(length ≤ maxWriteLen ∧ Readable k address length) → doWrite peek address length k = .ret minusOne k

/-- The walk of the kernel finds a page for user mode. -/
def FindsPage (k : Kernel) (addr : ℕ) : Prop := (getUserPte k.mem.phys k.ctx.pgd addr).isSome = true

/-- Where looking up the two ends tells about the whole buffer. -/
structure EndsTell (k : Kernel) (address length : ℕ) : Prop where
  unmapped : ¬FindsPage k address → length ≠ 0
  mapped : FindsPage k address → address < 2 ^ 48 → length ≠ 0 → (address + length) % pageSize = 0 →
    FindsPage k (address + length)
  above : FindsPage k address → 2 ^ 48 ≤ address → length ≠ 0 →
    address / pageSize ≠ addrAt address length / pageSize ∧ ¬FindsPage k (addrAt address length)

/-- What `do_write` checks. -/
theorem writable_iff (k : Kernel) (address length : ℕ) :
    k.writable address length = true ↔ length ≤ maxWriteLen ∧ FindsPage k address ∧
      (address / pageSize = addrAt address length / pageSize ∨ FindsPage k (addrAt address length)) := by
  have hshift : ∀ addr, addr >>> pageShift = addr / pageSize := fun addr ↦ Nat.shiftRight_eq_div_pow addr 12
  simp only [writable, Bool.and_eq_true, Bool.or_eq_true, decide_eq_true_eq, hshift, and_assoc]
  rfl

section InUser

/-- The kernel's walk ignores the upper sixteen bits, the processor does not. -/
theorem InUser.findsPage_iff (h : InUser (fun _ ↦ False) roots k i) {addr : ℕ} (hlow : addr < 2 ^ 48) :
    FindsPage k addr ↔ UserAccessible k.mem.phys k.cr3 addr false := by
  have hpgd : k.ctx.pgd = k.cr3 := by rw [h.ctx_eq, h.cr3_eq]
  rw [FindsPage, hpgd, h.sound.tables.userAccessible_iff h.root]
  by_cases hslot : UserSlot (tablePath addr) (pteIndex addr)
  · have huser : UserAddr addr := by
      have hindex := (userSlot_page_iff.1 hslot).1
      rw [pgdIndex_eq] at hindex
      exact userAddr_of_slot (by omega) hslot
    rcases h.sound.tables.page_cases h.root hslot with ⟨hzero, hnone, -⟩ | ⟨_, _, _, -, -, hflags, hentry, hsome, -⟩
    · simp [hnone, hzero]
    · simp [hsome, huser, hentry, hflags.tableFlags.ne_zero]
  · rw [h.sound.tables.getUserPte_not_user h.root hslot]
    exact iff_of_false (by simp) fun haccess ↦ hslot haccess.1.slot

/-- Accessible addresses are those of the user segments. -/
theorem InUser.userAddr (h : InUser (fun _ ↦ False) roots k i) {addr : ℕ}
    (haccess : UserAccessible k.mem.phys k.cr3 addr false) : UserAddr addr :=
  ((h.sound.tables.userAccessible_iff h.root false).1 haccess).1

/-- The bytes of a page are accessible together. -/
theorem InUser.accessible_page (h : InUser (fun _ ↦ False) roots k i) {addr other : ℕ}
    (haccess : UserAccessible k.mem.phys k.cr3 addr false) (hpage : addr / pageSize = other / pageSize) :
    UserAccessible k.mem.phys k.cr3 other false := by
  have huser := h.userAddr haccess
  obtain ⟨hlow, hhigh⟩ := huser
  unfold pageSize at hpage
  have hother : UserAddr other := ⟨by omega, by omega⟩
  obtain ⟨hpath, hindex⟩ := (indices_eq_iff (by omega) (by have := hother.2; omega)).2 hpage
  rw [h.sound.tables.userAccessible_iff h.root] at haccess ⊢
  refine ⟨hother, ?_, fun hwrite ↦ Bool.noConfusion hwrite⟩
  rw [PhysMem.pageEntry, ← hpath, ← hindex]
  exact haccess.2.1

/-- A buffer inside one page. -/
theorem InUser.readable_inside (h : InUser (fun _ ↦ False) roots k i)
    (hfirst : UserAccessible k.mem.phys k.cr3 address false) (hinside : address % pageSize + length ≤ pageSize) :
    Readable k address length := by
  intro j hj
  refine h.accessible_page hfirst ?_
  unfold pageSize at *
  omega

/-- A buffer in two pages; the byte behind its end is in the second one too. -/
theorem InUser.readable_across (h : InUser (fun _ ↦ False) roots k i)
    (hfirst : UserAccessible k.mem.phys k.cr3 address false) (hlength : length ≤ maxWriteLen)
    (hacross : pageSize < address % pageSize + length) :
    Readable k address length ↔ UserAccessible k.mem.phys k.cr3 (address + length) false := by
  unfold maxWriteLen at hlength
  have hpositive : 0 < length := by
    have hoffset := Nat.mod_lt address (show 0 < pageSize by decide)
    omega
  constructor
  · intro hread
    refine h.accessible_page (hread (length - 1) (Nat.sub_lt hpositive Nat.one_pos)) ?_
    unfold pageSize at *
    omega
  · intro hlast j hj
    by_cases hpage : address / pageSize = (address + j) / pageSize
    · exact h.accessible_page hfirst hpage
    · refine h.accessible_page hlast ?_
      unfold pageSize at *
      omega

/-- An access that user mode could make goes through. -/
theorem kernelLoad_accessible (peek : ℕ → ℕ) {addr : ℕ} (haccess : UserAccessible k.mem.phys k.cr3 addr false)
    (hplain : PlainPages k) :
    kernelLoad peek addr k = .ret (userByte k addr) (k.record k.mem.phys addr false) := by
  obtain ⟨hcanonical, mapping, hwalk, huser, -⟩ := haccess
  have hmay : mapping.KernelMay k.wp false := fun hwrite ↦ Bool.noConfusion hwrite
  have htouch : kernelTouch addr false touchRounds k = .ret () k := by
    change (if ¬Canonical addr then Prog.leave doGp else _ : Prog Kernel Unit) k = _
    rw [if_neg (not_not.2 hcanonical), hwalk]
    simp only [if_pos hmay]
    rfl
  have hwalk' : hwWalk (k.record k.mem.phys addr false).mem.phys (k.record k.mem.phys addr false).cr3 addr =
      some mapping :=
    hwalk
  change Prog.bind (kernelTouch addr false touchRounds) _ k = _
  rw [Prog.bind, htouch, userByte, hwalk]
  have hpage : (k.record k.mem.phys addr false).Plain mapping.pfn := hplain addr mapping hwalk huser
  simp only [Bind.bind, Prog.bind, Prog.update, Prog.read, hwalk', huser, hpage, and_self, if_true, Option.elim]
  rfl

/-- The bytes of a readable buffer are read; nothing but the record of accesses changes. -/
theorem loadBytes_readable (peek : ℕ → ℕ) (hplain : PlainPages k) (hread : Readable k address length) :
    ∃ accesses, loadBytes peek address length k = .ret
      (bufferBytes k address length) { k with accesses := accesses } := by
  induction length with
  | zero => exact ⟨k.accesses, rfl⟩
  | succ count ih =>
    obtain ⟨accesses, hload⟩ := ih fun j hj ↦ hread j (hj.trans (Nat.lt_succ_self count))
    have haccess := hread count (Nat.lt_succ_self count)
    have hwrap : addrAt address count = address + count := by
      refine Nat.mod_eq_of_lt ?_
      rcases haccess.1 with hlow | ⟨-, hhigh⟩
      · exact hlow.trans (by norm_num)
      · exact hhigh
    have hbyte : kernelLoad peek (addrAt address count) { k with accesses := accesses } =
        .ret (userByte k (address + count))
          (record k.mem.phys (address + count) false { k with accesses := accesses }) := by
      rw [hwrap]
      exact kernelLoad_accessible peek haccess hplain
    refine ⟨⟨address + count, false, decide (UserAccessible k.mem.phys k.cr3 (address + count) false)⟩ :: accesses, ?_⟩
    change Prog.bind (loadBytes peek address count) _ k = _
    rw [Prog.bind, hload]
    change Prog.bind (kernelLoad peek (addrAt address count)) _ _ = _
    rw [Prog.bind, hbyte]
    rfl

theorem doWrite_refuses (peek : ℕ → ℕ) (h : ¬k.writable address length = true) :
    doWrite peek address length k = .ret minusOne k := by
  change (if k.writable address length then _ else Pure.pure minusOne : Prog Kernel ℕ) k = _
  rw [if_neg h]
  rfl

/-- Past the checks the call never fails. -/
theorem doWrite_spec (peek : ℕ → ℕ) (h : k.writable address length = true) :
    Spec (doWrite peek address length) k (fun result _ ↦ result = length) fun _ ↦ True := by
  apply Spec.read_bind
  rw [if_pos h]
  refine Spec.bind (Q := fun _ _ ↦ True) ?_ fun _ _ _ ↦ Spec.bind (Q := fun _ _ ↦ True) trivial fun _ _ _ ↦ rfl
  unfold Spec
  split <;> trivial

/-- The call is right exactly when its checks find out whether the buffer is short enough and readable. -/
theorem writesBuffer_iff (peek : ℕ → ℕ) (hplain : PlainPages k) (address length : ℕ) :
    WritesBuffer peek address length k ↔
      (k.writable address length = true ↔ length ≤ maxWriteLen ∧ Readable k address length) := by
  constructor
  · intro h
    constructor
    · intro hchecks
      by_contra hbad
      have hresult : minusOne = length := (doWrite_spec peek hchecks).of_ret (h.refuses hbad)
      have hlength := ((writable_iff k address length).1 hchecks).1
      rw [← hresult] at hlength
      exact absurd hlength (by decide)
    · rintro ⟨hlength, hread⟩
      by_contra hchecks
      obtain ⟨k', hresult, -⟩ := h.prints hlength hread
      rw [doWrite_refuses peek hchecks] at hresult
      obtain ⟨hminus, -⟩ := Outcome.ret.inj hresult
      rw [← hminus] at hlength
      exact absurd hlength (by decide)
  · intro h
    refine ⟨fun hlength hread ↦ ?_, fun hbad ↦ doWrite_refuses peek fun hchecks ↦ hbad (h.1 hchecks)⟩
    obtain ⟨accesses, hload⟩ := loadBytes_readable peek hplain hread
    refine ⟨{ k with
      accesses := accesses
      console := (bufferBytes k address length).takeWhile (· ≠ 0) :: k.console }, ?_, rfl⟩
    change (if k.writable address length then _ else Pure.pure minusOne : Prog Kernel ℕ) k = _
    rw [if_pos (h.2 ⟨hlength, hread⟩)]
    change Prog.bind (loadBytes peek address length) _ k = _
    rw [Prog.bind, hload]
    rfl

/-- Looking up the two ends finds out about the buffer exactly under `EndsTell`. -/
theorem InUser.ends_tell_iff (h : InUser (fun _ ↦ False) roots k i) (haddress : address < 2 ^ 64) :
    (k.writable address length = true ↔ length ≤ maxWriteLen ∧ Readable k address length) ↔
      (length ≤ maxWriteLen → EndsTell k address length) := by
  rw [writable_iff]
  by_cases hlength : length ≤ maxWriteLen
  swap
  · exact iff_of_true (by simp [hlength]) fun hle ↦ absurd hle hlength
  have hshort : length ≤ 1024 := hlength
  simp only [hlength, true_and, true_implies]
  by_cases hempty : length = 0
  · subst hempty
    have hread : Readable k address 0 := fun j hj ↦ absurd hj (Nat.not_lt_zero j)
    have hend : addrAt address 0 = address := Nat.mod_eq_of_lt haddress
    simp only [hend, hread, iff_true, true_or, and_true]
    exact ⟨fun hfound ↦ ⟨fun hnot ↦ absurd hfound hnot, fun _ _ hne ↦ absurd rfl hne, fun _ _ hne ↦ absurd rfl hne⟩,
      fun htell ↦ by_contra fun hnot ↦ htell.unmapped hnot rfl⟩
  have hfirst : Readable k address length → UserAccessible k.mem.phys k.cr3 address false := fun hread ↦
    hread 0 (Nat.pos_of_ne_zero hempty)
  by_cases hlow : address < 2 ^ 48
  swap
  · have hunread : ¬Readable k address length := fun hread ↦ by
      have huser := h.userAddr (hfirst hread)
      exact absurd huser.2 (by omega)
    simp only [hunread, iff_false]
    constructor
    · intro hchecks
      refine ⟨fun _ ↦ hempty, fun _ hle ↦ absurd hle hlow, fun hfound _ _ ↦ ⟨fun hpage ↦ ?_, fun hlast ↦ ?_⟩⟩
      · exact hchecks ⟨hfound, Or.inl hpage⟩
      · exact hchecks ⟨hfound, Or.inr hlast⟩
    · rintro htell ⟨hfound, hsecond⟩
      obtain ⟨hpage, hlast⟩ := htell.above hfound (not_lt.1 hlow) hempty
      exact hsecond.elim hpage hlast
  have hend : addrAt address length = address + length := Nat.mod_eq_of_lt (by omega)
  rw [hend]
  by_cases hfound : FindsPage k address
  swap
  · have hunread : ¬Readable k address length := fun hread ↦ hfound ((h.findsPage_iff hlow).2 (hfirst hread))
    exact iff_of_true (iff_of_false (fun hchecks ↦ hfound hchecks.1) hunread)
      ⟨fun _ ↦ hempty, fun hfound' ↦ absurd hfound' hfound, fun hfound' ↦ absurd hfound' hfound⟩
  have haccess := (h.findsPage_iff hlow).1 hfound
  have huser := h.userAddr haccess
  have hlast : FindsPage k (address + length) ↔ UserAccessible k.mem.phys k.cr3 (address + length) false :=
    h.findsPage_iff (by have := huser.2; omega)
  have htell : EndsTell k address length ↔ ((address + length) % pageSize = 0 → FindsPage k (address + length)) :=
    ⟨fun htell ↦ htell.mapped hfound hlow hempty, fun hnext ↦ ⟨fun hnot ↦ absurd hfound hnot, fun _ _ _ ↦ hnext,
      fun _ hhigh ↦ absurd hlow (not_lt.2 hhigh)⟩⟩
  simp only [hfound, true_and]
  rw [htell]
  have hpages : address / pageSize = (address + length) / pageSize ↔ address % pageSize + length < pageSize := by
    unfold pageSize
    omega
  have hboundary : (address + length) % pageSize = 0 ↔ address % pageSize + length = pageSize := by
    unfold pageSize
    omega
  rw [hpages, hboundary]
  rcases lt_trichotomy (address % pageSize + length) pageSize with hinside | hexact | hacross
  · have hread := h.readable_inside haccess hinside.le
    exact iff_of_true (iff_of_true (Or.inl hinside) hread) fun hexact ↦ absurd hexact hinside.ne
  · have hread := h.readable_inside haccess hexact.le
    simp [hread, hexact]
  · rw [h.readable_across haccess hlength hacross, ← hlast]
    simp [hacross.ne', not_lt.2 hacross.le]

/-- In a run without stray stores, `do_write`, called by a system call of a process, does what is asked of it exactly
where the ends tell about the whole buffer. -/
theorem doWrite_right_iff {k : Kernel} (h : SafelyReachable k) (hgranted : k.mem.AllocsGranted) (hmode : k.mode = .user)
    (peek : ℕ → ℕ) {address length : ℕ} (haddress : address < 2 ^ 64) :
    WritesBuffer peek address length k.saveRegs ↔ (length ≤ maxWriteLen → EndsTell k.saveRegs address length) := by
  obtain ⟨roots, i, huser⟩ := (h.reachable.inv hgranted).inUser hmode
  rw [writesBuffer_iff peek huser.saveRegs.plainPages]
  exact huser.saveRegs.ends_tell_iff haddress

/-- The first process. -/
def initProcess : Kernel := run Kernel.step blankBoot [launchInit]

theorem initProcess_safe : SafelyReachable initProcess := (reachable_blankBoot [launchInit]).safely (by decide +kernel)

theorem initProcess_plain : PlainPages initProcess.saveRegs := by
  have hrun : initProcess.mode = .user ∧ ∀ event ∈ initProcess.mem.trace, event.Granted := by decide +kernel
  obtain ⟨_, _, huser⟩ := (initProcess_safe.reachable.inv hrun.2).inUser hrun.1
  exact huser.saveRegs.plainPages

theorem doWrite_right_iff_init : WritesBuffer (fun _ ↦ 0) codeStart 5 initProcess.saveRegs ↔
    (5 ≤ maxWriteLen → EndsTell initProcess.saveRegs codeStart 5) := by
  have hrun : initProcess.mode = .user ∧ ∀ event ∈ initProcess.mem.trace, event.Granted := by decide +kernel
  exact doWrite_right_iff initProcess_safe hrun.2 hrun.1 _ (by decide)

/-- The last bytes of the code segment are refused, as is an empty buffer in the page behind them; a buffer is read
whose address is none. -/
theorem doWrite_wrong :
    ¬WritesBuffer (fun _ ↦ 0) (codeStart + 8 * pageSize - 5) 5 initProcess.saveRegs ∧
      ¬WritesBuffer (fun _ ↦ 0) (codeStart + 8 * pageSize) 0 initProcess.saveRegs ∧
        ¬WritesBuffer (fun _ ↦ 0) (2 ^ 48 + codeStart) 5 initProcess.saveRegs := by
  have hrun :
      (initProcess.saveRegs.writable (codeStart + 8 * pageSize - 5) 5 = false ∧
        Readable initProcess.saveRegs (codeStart + 8 * pageSize - 5) 5) ∧
      initProcess.saveRegs.writable (codeStart + 8 * pageSize) 0 = false ∧
      (initProcess.saveRegs.writable (2 ^ 48 + codeStart) 5 = true ∧
        ¬Readable initProcess.saveRegs (2 ^ 48 + codeStart) 5) := by decide +kernel
  obtain ⟨⟨hrefused, hread⟩, hempty, hchecked, hunread⟩ := hrun
  have hplain := initProcess_plain
  refine ⟨fun h ↦ ?_, fun h ↦ ?_, fun h ↦ ?_⟩
  · have hchecks := ((writesBuffer_iff _ hplain _ _).1 h).2 ⟨by decide, hread⟩
    exact Bool.noConfusion (hrefused.symm.trans hchecks)
  · have hchecks := ((writesBuffer_iff _ hplain _ _).1 h).2 ⟨by decide, fun j hj ↦ absurd hj (Nat.not_lt_zero j)⟩
    exact Bool.noConfusion (hempty.symm.trans hchecks)
  · exact hunread (((writesBuffer_iff _ hplain _ _).1 h).1 hchecked).2

end InUser

end GemOS
