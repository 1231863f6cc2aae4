import GemOS.Paging.InstallSpec

/-!
# A batch of pages

`install_ptable_multi` walks the levels once and then writes one entry after the other; as many calls of
`install_ptable` walk them every time. Where no table is met twice on the way, the walk always ends at the same
last-level table, and both do the same allocations and writes.
-/

namespace GemOS

open Foundation TableForest Memory

/-- The frame is not one that the allocator of page tables may hand out. -/
def InUse (m : Memory) (frame : ℕ) : Prop := Region.osPt.Usable frame → m.allocated .osPt frame = true

/-- The tables on the way along `path`, as far as there are entries. -/
def tableFrames (phys : PhysMem) : List ℕ → ℕ → List ℕ
  | [], table => [table]
  | i :: path, table =>
    table :: if phys table i = 0 then [] else tableFrames phys path (ptableStyle.frame (phys table i))

/-- No table is met twice along `path`, and none is free. -/
structure UsedOnce (m : Memory) (path : List ℕ) (table : ℕ) : Prop where
  regions_ok : m.RegionsOk
  nodup : (tableFrames m.phys path table).Nodup
  in_use : ∀ frame ∈ tableFrames m.phys path table, InUse m frame

/-- All entries along `path` are there; they lead to `t`, which is not on the way. -/
def PathTo (phys : PhysMem) (t : ℕ) : List ℕ → ℕ → Prop
  | [], table => table = t
  | i :: path, table => phys table i ≠ 0 ∧ table ≠ t ∧ PathTo phys t path (ptableStyle.frame (phys table i))

/-- The calls of `install_ptable` for `count` pages from `start` on. -/
def installEach (pgd : ℕ) (seg : MmSegment) (start count : ℕ) (m : Memory) : Memory :=
  (List.range count).foldl (fun m i ↦ (installPtable pgd seg (start + i * pageSize) 0 m).2) m

variable {m : Memory} {path : List ℕ} {table t i pgd start count : ℕ} {phys phys' : PhysMem} {write : Bool}

theorem linkTable_present (h : m.phys table i ≠ 0) :
    linkTable ptableStyle table i m = (ptableStyle.frame (m.phys table i), m) := if_pos (decide_eq_true h)

theorem PathTo.linkTables (h : PathTo m.phys t path table) : linkTables ptableStyle path table m = (t, m) := by
  induction path generalizing table with
  | nil => exact congrArg (·, m) h
  | cons i path ih =>
    obtain ⟨hentry, -, hrest⟩ := h
    rw [GemOS.linkTables, linkTable_present hentry]
    exact ih hrest

/-- The last-level table may change. -/
theorem PathTo.congr (h : PathTo phys t path table) (hsame : ∀ frame, frame ≠ t → phys' frame = phys frame) :
    PathTo phys' t path table := by
  induction path generalizing table with
  | nil => exact h
  | cons i path ih =>
    obtain ⟨hentry, hne, hrest⟩ := h
    rw [← hsame table hne] at hentry hrest
    exact ⟨hentry, hne, ih hrest⟩

theorem tableFrames_of_empty (h : ∀ j, phys table j = 0) : tableFrames phys path table = [table] := by
  cases path with
  | nil => rfl
  | cons i path => rw [tableFrames, if_pos (h i)]

/-- The levels are there, and of the frames in use only those on the way have changed. -/
structure Descends (m : Memory) (path : List ℕ) (table : ℕ) (linked : ℕ × Memory) : Prop where
  leads : PathTo linked.2.phys linked.1 path table
  regions_ok : linked.2.RegionsOk
  last : linked.1 ∈ tableFrames m.phys path table ∨ ¬ InUse m linked.1
  phys_eq : ∀ frame, InUse m frame → frame ∉ tableFrames m.phys path table → linked.2.phys frame = m.phys frame

/-- By induction along the path: a table there is followed, else a new one is linked, which is on no way yet. -/
theorem linkTables_descends (h : UsedOnce m path table)
    (hgranted : (linkTables ptableStyle path table m).2.AllocsGranted) :
    Descends m path table (linkTables ptableStyle path table m) := by
  induction path generalizing table m with
  | nil => exact ⟨rfl, h.regions_ok, Or.inl (List.mem_singleton_self _), fun _ _ _ ↦ rfl⟩
  | cons i path ih =>
    have htable : InUse m table := h.in_use table (List.mem_cons_self ..)
    have hnodup := h.nodup
    have hused := h.in_use
    rw [linkTables] at hgranted ⊢
    by_cases hentry : m.phys table i = 0
    · have hframes : tableFrames m.phys (i :: path) table = [table] := by rw [tableFrames, if_pos hentry]
      have hlink := linkTable_fresh ptableStyle_sound h.regions_ok hentry htable (linkTables_granted_of hgranted)
      generalize linkTable ptableStyle table i m = new at *
      have hfresh : ¬ InUse m new.1 := fun hnew ↦ by
        have hclear := hlink.not_allocated
        rw [hnew hlink.usable] at hclear
        exact Bool.noConfusion hclear
      have hne : table ≠ new.1 := fun heq ↦ hfresh (heq ▸ htable)
      have hstill : ∀ frame, InUse m frame → InUse new.2 frame := fun frame hframe husable ↦
        (hlink.allocated_iff _).2 (Or.inl (hframe husable))
      have hempty : ∀ j, new.2.phys new.1 j = 0 := fun j ↦ by
        rw [hlink.phys_eq, setEntry_of_ne (fun hand ↦ hne hand.1.symm), PhysMem.zero_self]
      have hnext : tableFrames new.2.phys path new.1 = [new.1] := tableFrames_of_empty hempty
      have hused : UsedOnce new.2 path new.1 := by
        refine ⟨hlink.regions_ok, by rw [hnext]; exact List.nodup_singleton _, fun frame hframe _ ↦ ?_⟩
        rw [hnext, List.mem_singleton] at hframe
        exact (hlink.allocated_iff _).2 (Or.inr hframe)
      have hdescends := ih hused hgranted
      generalize linkTables ptableStyle path new.1 new.2 = linked at *
      have hlast := hdescends.last
      have hphys := hdescends.phys_eq
      simp only [hnext, List.mem_singleton] at hlast hphys
      have hsame : linked.2.phys table i = makeEntry new.1 0x7 := by
        rw [hphys table (hstill table htable) hne, hlink.phys_eq]
        exact setEntry_self _ _ _ _
      have hflags : TableFlags 0x7 := Or.inl (Or.inr rfl)
      refine ⟨⟨?_, ?_, ?_⟩, hdescends.regions_ok, ?_, fun f hf hnotin ↦ ?_⟩
      · rw [hsame]
        exact hflags.ne_zero _
      · rintro rfl
        exact hlast.elim hne fun hfree ↦ hfree (hstill _ htable)
      · rw [hsame, ptableStyle_sound.frame_entry (hlink.usable.contains.lt.trans (by norm_num)) hflags]
        exact hdescends.leads
      · refine Or.inr fun hlinked ↦ ?_
        exact hlast.elim (fun heq ↦ hfresh (heq ▸ hlinked)) fun hfree ↦ hfree (hstill _ hlinked)
      · rw [hframes, List.mem_singleton] at hnotin
        funext j
        rw [hphys f (hstill f hf) fun heq : f = new.1 ↦ hfresh (heq ▸ hf), hlink.phys_eq,
          setEntry_of_ne fun hand ↦ hnotin hand.1, PhysMem.zero_of_ne fun heq : f = new.1 ↦ hfresh (heq ▸ hf)]
    · rw [linkTable_present hentry] at hgranted ⊢
      rw [tableFrames, if_neg hentry] at hnodup hused
      obtain ⟨hnot, hnodup⟩ := List.nodup_cons.1 hnodup
      have hdescends := ih ⟨h.regions_ok, hnodup, fun f hf ↦ hused f (List.mem_cons_of_mem _ hf)⟩ hgranted
      have hsame := hdescends.phys_eq table htable hnot
      refine ⟨⟨by rwa [hsame], ?_, by rw [hsame]; exact hdescends.leads⟩, hdescends.regions_ok,
        ?_, fun f hf hnotin ↦ ?_⟩
      · rintro heq
        exact hdescends.last.elim (heq ▸ hnot) fun hfree ↦ hfree (heq ▸ htable)
      · rw [tableFrames, if_neg hentry]
        exact hdescends.last.imp_left (List.mem_cons_of_mem _)
      · rw [tableFrames, if_neg hentry] at hnotin
        exact hdescends.phys_eq f hf fun hin ↦ hnotin (List.mem_cons_of_mem _ hin)

/-- The tables on the way to a user page are met once, by induction along the way. -/
theorem Tables.usedOnce_below {roots : ℕ → Prop} {root : ℕ} (h : Tables roots m) (hroot : roots root) (rest : List ℕ)
    (hslots : ∀ front i back, path ++ rest = front ++ i :: back → UserSlot front i)
    (hlength : (path ++ rest).length ≤ 3)
    (htable : m.phys.tableAt root path = some t) :
    (∀ frame ∈ tableFrames m.phys rest t, ∃ back, path <+: back ∧ back.length ≤ 3 ∧
      m.phys.tableAt root back = some frame) ∧
      (tableFrames m.phys rest t).Nodup := by
  induction rest generalizing path t with
  | nil =>
    rw [List.append_nil] at hlength
    refine ⟨fun frame hframe ↦ ?_, List.nodup_singleton _⟩
    rw [List.mem_singleton.1 hframe]
    exact ⟨path, List.prefix_rfl, hlength, htable⟩
  | cons i rest ih =>
    have hshort : path.length < 3 := by
      simp only [List.length_append, List.length_cons] at hlength
      omega
    rw [tableFrames]
    rcases h.user_step hroot path i (hslots path i rest rfl) hshort htable with ⟨hzero, -⟩ | ⟨u, flags,
      hu, hflags, hentry, hnext⟩
    · rw [if_pos hzero]
      refine ⟨fun frame hframe ↦ ?_, List.nodup_singleton _⟩
      rw [List.mem_singleton.1 hframe]
      exact ⟨path, List.prefix_rfl, hshort.le, htable⟩
    · rw [hentry, if_neg (hflags.tableFlags.ne_zero u), ptableStyle_sound.frame_entry hu hflags.tableFlags]
      obtain ⟨hbelow, hnodup⟩ := ih (by rwa [List.append_assoc]) (by rwa [List.append_assoc]) hnext
      refine ⟨fun frame hframe ↦ ?_, List.nodup_cons.2 ⟨fun ht ↦ ?_, hnodup⟩⟩
      · rcases List.mem_cons.1 hframe with rfl | hframe
        · exact ⟨path, List.prefix_rfl, hshort.le, htable⟩
        · obtain ⟨back, hback, hback', hframe⟩ := hbelow frame hframe
          exact ⟨back, (List.prefix_append path [i]).trans hback, hback', hframe⟩
      · obtain ⟨back, hback, hback', ht⟩ := hbelow t ht
        obtain ⟨-, rfl⟩ := h.separated root root path back t hroot hroot hshort.le hback' htable ht
        exact absurd hback.length_le (by simp)

theorem Tables.usedOnce {roots : ℕ → Prop} {root : ℕ} (h : Tables roots m) (hroot : roots root)
    (hslot : UserSlot (tablePath start) (pteIndex start)) : UsedOnce m (tablePath start) root := by
  obtain ⟨hbelow, hnodup⟩ := h.usedOnce_below hroot (tablePath start) (userSlot_front hslot) (by simp [tablePath])
    PhysMem.tableAt_nil
  refine ⟨h.regions_ok, hnodup, fun frame hframe _ ↦ ?_⟩
  obtain ⟨back, -, hlength, htable⟩ := hbelow frame hframe
  exact h.table_allocated frame (Tables.isTable_of_tableAt hroot hlength htable)

theorem fillPtes_eq_foldl {index startPfn : ℕ} (remaining ctr : ℕ) (m : Memory) :
    fillPtes t index startPfn write (ctr + 1) remaining m =
      (List.range' (ctr + 1) remaining).foldl (fun m i ↦ fillPte t (index + i) write m) m := by
  induction remaining generalizing ctr m with
  | zero => rfl
  | succ remaining ih =>
    rw [fillPtes_succ, ih, List.range'_succ]
    rfl

theorem installPtable_fillPte {addr : ℕ} (seg : MmSegment) (haddr : addr ≠ 0) :
    (installPtable pgd seg addr 0 m).2 = fillPte (linkTables ptableStyle (tablePath addr) pgd m).1 (pteIndex addr)
      seg.writable (linkTables ptableStyle (tablePath addr) pgd m).2 := by
  unfold installPtable
  simp only [if_neg haddr, if_true]
  rfl

theorem osPfnAlloc_user_phys (m : Memory) : (osPfnAlloc .user m).2.phys = m.phys := by
  rw [osPfnAlloc]
  split <;> rfl

/-- A round of the loop writes to the last-level table only. -/
theorem PathTo.fillPte (h : PathTo m.phys t path table) (j : ℕ) : PathTo (fillPte t j write m).phys t path table := by
  refine h.congr fun frame hframe ↦ ?_
  exact (PhysMem.write_of_ne hframe).trans (congrFun (osPfnAlloc_user_phys m) frame)

/-- The pages of a last-level table. -/
theorem tablePath_add (halign : start % pageSize = 0) (hfit : pteIndex start + i < 512) :
    tablePath (start + i * pageSize) = tablePath start ∧ pteIndex (start + i * pageSize) = pteIndex start + i := by
  rw [pteIndex_eq] at hfit
  simp only [tablePath, pgdIndex_eq, pudIndex_eq, pmdIndex_eq, pteIndex_eq, pageSize,
    List.cons.injEq, and_true] at halign ⊢
  refine ⟨⟨?_, ?_, ?_⟩, ?_⟩ <;> omega

/-- Each further call walks to the same table, by induction on the calls left. -/
theorem foldl_installPtable (seg : MmSegment) (hstart : start ≠ 0) (halign : start % pageSize = 0) (remaining first : ℕ)
    (hfit : pteIndex start + (first + remaining) ≤ 512) (m : Memory) (h : PathTo m.phys t (tablePath start) pgd) :
    (List.range' first remaining).foldl (fun m i ↦ (installPtable pgd seg (start + i * pageSize) 0 m).2) m =
      (List.range' first remaining).foldl (fun m i ↦ fillPte t (pteIndex start + i) seg.writable m) m := by
  induction remaining generalizing first m with
  | zero => rfl
  | succ remaining ih =>
    obtain ⟨hpath, hindex⟩ := tablePath_add (i := first) halign (by omega)
    rw [List.range'_succ, List.foldl_cons, List.foldl_cons, installPtable_fillPte seg (by omega),
      hpath, hindex, h.linkTables]
    exact ih (first + 1) (by omega) _ (h.fillPte _)

/-- The batch does what the single calls do, and returns the frame of the first. -/
theorem installPtableMulti_eq_installEach (h : UsedOnce m (tablePath start) pgd) (hstart : start ≠ 0)
    (halign : start % pageSize = 0) (hcount : 0 < count) (hfit : pteIndex start + count ≤ 512) (seg : MmSegment)
    (hgranted : (installPtableMulti pgd start count seg.writable m).2.AllocsGranted) :
    installPtableMulti pgd start count seg.writable m =
      ((installPtable pgd seg start 0 m).1, installEach pgd seg start count m) := by
  obtain ⟨count, rfl⟩ := Nat.exists_eq_succ_of_ne_zero hcount.ne'
  have hgrantedFirst : (fillPte (linkTables ptableStyle (tablePath start) pgd m).1 (pteIndex start) seg.writable
      (linkTables ptableStyle (tablePath start) pgd m).2).AllocsGranted := fillPtes_granted_of count 0 _ hgranted
  have hlinked : (linkTables ptableStyle (tablePath start) pgd m).2.AllocsGranted :=
    Memory.AllocsGranted.of_osPfnAlloc hgrantedFirst
  have hleads := ((linkTables_descends h hlinked).leads.fillPte (pteIndex start) : PathTo
    (fillPte _ _ seg.writable _).phys _ _ _)
  have hreturned : (installPtable pgd seg start 0 m).1 =
      (installPtableMulti pgd start (count + 1) seg.writable m).1 := by
    unfold installPtable installPtableMulti
    simp only [if_neg hstart, if_true]
  refine Prod.ext hreturned.symm ?_
  rw [installEach, List.range_eq_range', List.range'_succ, List.foldl_cons, Nat.zero_mul, Nat.add_zero,
    installPtable_fillPte seg hstart, Nat.zero_add, foldl_installPtable seg hstart halign count 1 (by omega) _ hleads]
  exact fillPtes_eq_foldl count 0 _

theorem installPtableMulti_eq_installEach_blank :
    installPtableMulti blankTable.1 codeStart 3 false blankTable.2 =
      ((installPtable blankTable.1 ⟨codeStart, codeStart, codeStart, 5⟩ codeStart 0 blankTable.2).1,
        installEach blankTable.1 ⟨codeStart, codeStart, codeStart, 5⟩ codeStart 3 blankTable.2) := by
  have hslot : UserSlot (tablePath codeStart) (pteIndex codeStart) := userSlot_page_iff.2 (by decide)
  have hgranted : (installPtableMulti blankTable.1 codeStart 3 false blankTable.2).2.AllocsGranted := by
    unfold AllocsGranted
    decide +kernel
  exact installPtableMulti_eq_installEach (tables_blankTable.usedOnce (Or.inr rfl) hslot) (by decide) (by decide)
    (by decide) (by decide) ⟨codeStart, codeStart, codeStart, 5⟩ hgranted

end GemOS
