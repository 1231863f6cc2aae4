import GemOS.Foundation.Tour
import GemOS.Paging.Release

/-!
# What `pt_cleanup` gives back

On a tree in which no table is linked twice, `pt_cleanup` frees what its tour of the tree visits, in that order, and
clears the slots it followed. The tour is read off the memory before the call: clearing a slot changes neither the
tables below the others nor the slots still to be visited.
-/

namespace GemOS

open Foundation TableForest Memory

variable {roots : ℕ → Prop} {phys : PhysMem} {m m' m'' : Memory} {level pfn root t i : ℕ} {path : List ℕ}

/-- The slots of a table that `pt_cleanup` follows. -/
def followed (phys : PhysMem) (level pfn : ℕ) : List ℕ :=
  (List.range' (cleanupFirst level) (512 - cleanupFirst level)).filter fun i ↦ phys pfn i &&& 0x1 ≠ 0

/-- The frame it goes on with. -/
def nextFrame (phys : PhysMem) (pfn i : ℕ) : ℕ := phys pfn i >>> 12

/-- It comes from a frame of a level along a path of slots to another frame. -/
abbrev Follows (phys : PhysMem) : ℕ → ℕ → List ℕ → ℕ → Prop := Leads (followed phys) (nextFrame phys)

/-- The frees of `pt_cleanup`, in order. -/
def cleanupFrees (phys : PhysMem) (level pfn : ℕ) : List (Region × ℕ) :=
  (tour (followed phys) (nextFrame phys) level pfn).map fun p ↦ (if p.1.length = level then .user else .osPt, p.2)

theorem cleanupFrees_succ (phys : PhysMem) (level pfn : ℕ) :
    cleanupFrees phys (level + 1) pfn =
      ((followed phys (level + 1) pfn).flatMap fun i ↦ cleanupFrees phys level (nextFrame phys pfn i)) ++
        [(.osPt, pfn)] := by
  simp only [cleanupFrees, tour, List.map_append, List.map_flatMap, List.map_map, List.map_singleton]
  congr 2
  funext i
  refine List.map_congr_left fun p _ ↦ ?_
  simp only [Function.comp, List.length_cons, Nat.add_right_cancel_iff]

/-- It follows a slot of a table. -/
def FollowedSlot (phys : PhysMem) (level pfn t i : ℕ) : Prop :=
  ∃ path, Follows phys level pfn path t ∧ path.length < level ∧ i ∈ followed phys (level - path.length) t

theorem followedSlot_succ_iff :
    FollowedSlot phys (level + 1) pfn t i ↔
      ∃ j ∈ followed phys (level + 1) pfn, t = pfn ∧ i = j ∨ FollowedSlot phys level (nextFrame phys pfn j) t i := by
  constructor
  · rintro ⟨path, hpath, hlt, hi⟩
    cases hpath with
    | here => exact ⟨i, hi, Or.inl ⟨rfl, rfl⟩⟩
    | step slot rest =>
      rw [List.length_cons, Nat.add_sub_add_right] at hi
      exact ⟨_, slot, Or.inr ⟨_, rest, Nat.lt_of_succ_lt_succ hlt, hi⟩⟩
  · rintro ⟨j, hj, ⟨rfl, rfl⟩ | ⟨path, hpath, hlt, hi⟩⟩
    · exact ⟨[], .here _ _, Nat.succ_pos level, hj⟩
    · refine ⟨j :: path, .step hj hpath, Nat.succ_lt_succ hlt, ?_⟩
      rwa [List.length_cons, Nat.add_sub_add_right]

/-- Some entries were cleared and the others kept. -/
def Clears (slots : ℕ → ℕ → Prop) (phys phys' : PhysMem) : Prop :=
  ∀ t i, (slots t i → phys' t i = 0) ∧ (¬slots t i → phys' t i = phys t i)

/-- Calls of `os_pfn_free`, one after the other. -/
def freeAll (calls : List (Region × ℕ)) (m : Memory) : Memory := calls.foldl (fun m call ↦ osPfnFree call.1 call.2 m) m

theorem freeAll_append (calls calls' : List (Region × ℕ)) (m : Memory) :
    freeAll (calls ++ calls') m = freeAll calls' (freeAll calls m) := List.foldl_append

theorem freeAll_congr (calls : List (Region × ℕ)) (hlists : m.pglists = m'.pglists) (htrace : m.trace = m'.trace) :
    (freeAll calls m).pglists = (freeAll calls m').pglists ∧ (freeAll calls m).trace = (freeAll calls m').trace := by
  induction calls generalizing m m' with
  | nil => exact ⟨hlists, htrace⟩
  | cons call calls ih =>
    refine ih ?_ ?_
    · simp only [osPfnFree, hlists]
    · simp only [osPfnFree, Memory.allocated, hlists, htrace]

/-- Frames were freed and slots cleared, and nothing else happened. -/
structure TakesDown (calls : List (Region × ℕ)) (slots : ℕ → ℕ → Prop) (m m' : Memory) : Prop where
  pglists_eq : m'.pglists = (freeAll calls m).pglists
  trace_eq : m'.trace = (freeAll calls m).trace
  clears : Clears slots m.phys m'.phys
  apic_eq : m'.apicBase = m.apicBase
  pmd_eq : m'.osPmdPfn = m.osPmdPfn

namespace TakesDown

variable {calls calls' : List (Region × ℕ)} {slots slots' : ℕ → ℕ → Prop}

theorem refl (m : Memory) : TakesDown [] (fun _ _ ↦ False) m m :=
  ⟨rfl, rfl, fun _ _ ↦ ⟨False.elim, fun _ ↦ rfl⟩, rfl, rfl⟩

theorem trans (first : TakesDown calls slots m m') (second : TakesDown calls' slots' m' m'') :
    TakesDown (calls ++ calls') (fun t i ↦ slots t i ∨ slots' t i) m m'' := by
  have hsame := freeAll_congr calls' first.pglists_eq first.trace_eq
  refine ⟨?_, ?_, fun t i ↦ ⟨fun hslot ↦ ?_, fun hslot ↦ ?_⟩, second.apic_eq.trans first.apic_eq,
    second.pmd_eq.trans first.pmd_eq⟩
  · rw [freeAll_append, second.pglists_eq, hsame.1]
  · rw [freeAll_append, second.trace_eq, hsame.2]
  · by_cases hslot' : slots' t i
    · exact (second.clears t i).1 hslot'
    · exact ((second.clears t i).2 hslot').trans ((first.clears t i).1 (hslot.resolve_right hslot'))
  · rw [not_or] at hslot
    exact ((second.clears t i).2 hslot.2).trans ((first.clears t i).2 hslot.1)

theorem congr (h : TakesDown calls slots m m') (hslots : ∀ t i, slots t i ↔ slots' t i) : TakesDown calls slots' m m' :=
  ⟨h.pglists_eq, h.trace_eq, fun t i ↦ ⟨fun hslot ↦ (h.clears t i).1 ((hslots t i).2 hslot),
    fun hslot ↦ (h.clears t i).2 fun hold ↦ hslot ((hslots t i).1 hold)⟩, h.apic_eq, h.pmd_eq⟩

theorem free (region : Region) (pfn : ℕ) (m : Memory) :
    TakesDown [(region, pfn)] (fun _ _ ↦ False) m (osPfnFree region pfn m) :=
  ⟨rfl, rfl, fun _ _ ↦ ⟨False.elim, fun _ ↦ rfl⟩, rfl, rfl⟩

theorem clear (m : Memory) (pfn i : ℕ) : TakesDown [] (fun t j ↦ t = pfn ∧ j = i) m (m.writeEntry pfn i 0) :=
  ⟨rfl, rfl, fun _ _ ↦ ⟨fun hand ↦ if_pos hand, fun hand ↦ if_neg hand⟩, rfl, rfl⟩

end TakesDown

/-- One round of the loop of `pt_cleanup`. -/
def cleanupRound (level pfn : ℕ) (m : Memory) (i : ℕ) : Memory :=
  if m.phys pfn i &&& 0x1 = 0 then m else (ptCleanup level (m.phys pfn i >>> 12) m).writeEntry pfn i 0

theorem ptCleanup_succ (hapic : isApicBase m pfn = false) (happly : (((List.range' (cleanupFirst (level + 1))
      (512 - cleanupFirst (level + 1))).foldl (cleanupRound level pfn) m).apicBase = m.apicBase)) :
    ptCleanup (level + 1) pfn m = osPfnFree .osPt pfn ((List.range' (cleanupFirst (level + 1))
      (512 - cleanupFirst (level + 1))).foldl (cleanupRound level pfn) m) := by
  have hsame : isApicBase ((List.range' (cleanupFirst (level + 1))
      (512 - cleanupFirst (level + 1))).foldl (cleanupRound level pfn) m) pfn = false := by
    rw [isApicBase, happly]
    exact hapic
  rw [ptCleanup]
  exact if_neg (by rw [Bool.not_eq_true]; exact hsame)

/-- `pt_cleanup`, with the slots to follow looked up before the first of them is followed. -/
def cleanupPresent : ℕ → ℕ → Memory → Memory
  | 0, pfn, m => ptCleanup 0 pfn m
  | level + 1, pfn, m =>
    let cleaned := (followed m.phys (level + 1) pfn).foldl
      (fun m i ↦ if m.phys pfn i &&& 0x1 = 0 then m else (cleanupPresent level
        (m.phys pfn i >>> 12) m).writeEntry pfn i 0) m
    if isApicBase cleaned pfn then cleaned else osPfnFree .osPt pfn cleaned

theorem clearedFrom_rounds {clean : ℕ → Memory → Memory} (hclean : ∀ pfn m, ClearedFrom m.phys (clean pfn m).phys)
    (pfn i : ℕ) (m : Memory) : ClearedFrom m.phys
      (if m.phys pfn i &&& 0x1 = 0 then m else (clean (m.phys pfn i >>> 12) m).writeEntry pfn i 0).phys := by
  split
  · exact .refl _
  · exact (hclean _ m).trans (.write _ _ _)

/-- A slot that is not followed at first is not followed later. -/
theorem foldl_rounds_filter {clean : ℕ → Memory → Memory} (hclean : ∀ pfn m, ClearedFrom m.phys (clean pfn m).phys)
    (pfn : ℕ) (indices : List ℕ) (m₀ m : Memory) (hcleared : ClearedFrom m₀.phys m.phys) :
    indices.foldl (fun m i ↦ if m.phys pfn i &&& 0x1 = 0 then
      m else (clean (m.phys pfn i >>> 12) m).writeEntry pfn i 0) m =
      (indices.filter fun i ↦ m₀.phys pfn i &&& 0x1 ≠ 0).foldl
        (fun m i ↦ if m.phys pfn i &&& 0x1 = 0 then m else (clean (m.phys pfn i >>> 12) m).writeEntry pfn i 0) m := by
  induction indices generalizing m with
  | nil => rfl
  | cons i indices ih =>
    rw [List.foldl_cons]
    by_cases hpresent : m₀.phys pfn i &&& 0x1 = 0
    · have habsent : m.phys pfn i &&& 0x1 = 0 := by
        rcases hcleared pfn i with hsame | hzero
        · rw [hsame, hpresent]
        · rw [hzero]
          rfl
      rw [if_pos habsent, List.filter_cons_of_neg (by simpa using hpresent)]
      exact ih m hcleared
    · rw [List.filter_cons_of_pos (by simpa using hpresent), List.foldl_cons]
      exact ih _ (hcleared.trans (clearedFrom_rounds hclean pfn i m))

theorem clearedFrom_foldl {f : Memory → ℕ → Memory} (hround : ∀ m i, ClearedFrom m.phys (f m i).phys) (indices : List ℕ)
    (m : Memory) : ClearedFrom m.phys (indices.foldl f m).phys := by
  induction indices generalizing m with
  | nil => exact .refl _
  | cons i indices ih => exact (hround m i).trans (ih _)

theorem clearedFrom_ptCleanup (level pfn : ℕ) (m : Memory) : ClearedFrom m.phys (ptCleanup level pfn m).phys := by
  induction level generalizing pfn m with
  | zero =>
    rw [ptCleanup]
    split <;> exact .refl _
  | succ level ih =>
    rw [ptCleanup]
    split <;> exact clearedFrom_foldl (fun m i ↦ clearedFrom_rounds ih pfn i m) _ m

/-- Looking the slots up first makes no difference. -/
theorem ptCleanup_eq_present : ptCleanup = cleanupPresent := by
  funext level
  induction level with
  | zero => rfl
  | succ level ih =>
    funext pfn m
    have hrounds := foldl_rounds_filter (clearedFrom_ptCleanup level) pfn
      (List.range' (cleanupFirst (level + 1)) (512 - cleanupFirst (level + 1))) m m (.refl _)
    rw [ptCleanup, cleanupPresent, ← ih, followed, ← hrounds]

/-- The rounds over the slots that are left, by induction on them. What lies below a slot is untouched by the rounds
before it, as no table is shared. -/
theorem takesDown_rounds {apic : ApicBase} (hunshared : Unshared (followed phys) (nextFrame phys) (level + 1) pfn)
    (indices : List ℕ)
    (hnodup : indices.Nodup) (hin : ∀ i ∈ indices, phys pfn i &&& 0x1 ≠ 0 → i ∈ followed phys (level + 1) pfn)
    (hround : ∀ i ∈ indices, i ∈ followed phys (level + 1) pfn → ∀ m : Memory, m.apicBase = apic →
      (∀ path t, Follows phys level (nextFrame phys pfn i) path t → path.length < level → m.phys t = phys t) →
        TakesDown (cleanupFrees phys level (nextFrame phys pfn i)) (FollowedSlot phys level (nextFrame phys pfn i)) m
          (ptCleanup level (nextFrame phys pfn i) m))
    (m : Memory) (hapic : m.apicBase = apic) (hentry : ∀ i ∈ indices, m.phys pfn i = phys pfn i)
    (hagree : ∀ i ∈ indices, i ∈ followed phys (level + 1) pfn → ∀ path t,
      Follows phys level (nextFrame phys pfn i) path t → path.length < level → m.phys t = phys t) :
    TakesDown ((indices.filter fun i ↦ phys pfn i &&& 0x1 ≠ 0).flatMap fun i ↦
      cleanupFrees phys level (nextFrame phys pfn i))
      (fun t i ↦ ∃ j ∈ indices.filter fun i ↦ phys pfn i &&& 0x1 ≠ 0,
        t = pfn ∧ i = j ∨ FollowedSlot phys level (nextFrame phys pfn j) t i)
      m (indices.foldl (cleanupRound level pfn) m) := by
  induction indices generalizing m with
  | nil => exact (TakesDown.refl m).congr fun _ _ ↦ ⟨False.elim, fun ⟨_, hmem, _⟩ ↦ absurd hmem List.not_mem_nil⟩
  | cons i indices ih =>
    obtain ⟨hnew, hnodup⟩ := List.nodup_cons.1 hnodup
    obtain ⟨hhere, hentry⟩ := List.forall_mem_cons.1 hentry
    obtain ⟨hagreeHere, hagree⟩ := List.forall_mem_cons.1 hagree
    obtain ⟨hinHere, hin⟩ := List.forall_mem_cons.1 hin
    obtain ⟨hroundHere, hround⟩ := List.forall_mem_cons.1 hround
    rw [List.foldl_cons]
    by_cases hpresent : phys pfn i &&& 0x1 = 0
    · have hskip : cleanupRound level pfn m i = m := if_pos (by rw [hhere]; exact hpresent)
      rw [hskip, List.filter_cons_of_neg (by simpa using hpresent)]
      exact ih hnodup hin hround m hapic hentry hagree
    · have hmem := hinHere hpresent
      have hdone : TakesDown (cleanupFrees phys level (nextFrame phys pfn i) ++ [])
          (fun t j ↦ FollowedSlot phys level (nextFrame phys pfn i) t j ∨ t = pfn ∧ j = i) m
            (cleanupRound level pfn m i) := by
        have heq : cleanupRound level pfn m i = (ptCleanup level (nextFrame phys pfn i) m).writeEntry pfn i 0 := by
          rw [cleanupRound, hhere, if_neg hpresent, nextFrame]
        rw [heq]
        exact (hroundHere hmem m hapic (hagreeHere hmem)).trans (.clear _ _ _)
      rw [List.append_nil] at hdone
      have hkept : ∀ t j, (∀ path, Follows phys level (nextFrame phys pfn i) path t → path.length < level → False) →
          ¬(t = pfn ∧ j = i) → (cleanupRound level pfn m i).phys t j = m.phys t j := fun t j hbelow hne ↦
        (hdone.clears t j).2 fun hslot ↦ hslot.elim (fun ⟨path, hpath, hlt, _⟩ ↦ hbelow path hpath hlt) hne
      have hrest := ih hnodup hin hround (cleanupRound level pfn m i) (hdone.apic_eq.trans hapic)
        (fun j hj ↦ ?_) (fun j hj hjmem path t hpath hlt ↦ ?_)
      · rw [List.filter_cons_of_pos (by simpa using hpresent), List.flatMap_cons]
        refine (hdone.trans hrest).congr fun t j ↦ ?_
        simp only [List.mem_cons, exists_eq_or_imp]
        exact or_congr_left Or.comm
      · rw [hkept pfn j (fun path hpath hlt ↦ hunshared.not_self hmem hpath hlt) fun hand ↦ hnew (hand.2 ▸ hj)]
        exact hentry j hj
      · rw [← hagree j hj hjmem path t hpath hlt]
        funext l
        refine hkept t l (fun path' hpath' hlt' ↦ ?_) fun hand ↦ ?_
        · exact hnew (hunshared.slot_eq hmem hjmem hpath' hpath hlt' hlt ▸ hj)
        · rw [hand.1] at hpath
          exact hunshared.not_self hjmem hpath hlt

/-- `pt_cleanup` frees what the tour visits and clears the slots it followed, by induction on the level. -/
theorem takesDown_ptCleanup (level pfn : ℕ) (m : Memory)
    (hunshared : Unshared (followed phys) (nextFrame phys) level pfn)
    (hapic : ∀ path t, Follows phys level pfn path t → isApicBase m t = false)
    (hagree : ∀ path t, Follows phys level pfn path t → path.length < level → m.phys t = phys t) :
    TakesDown (cleanupFrees phys level pfn) (FollowedSlot phys level pfn) m (ptCleanup level pfn m) := by
  induction level generalizing pfn m with
  | zero =>
    have hfree : ptCleanup 0 pfn m = osPfnFree .user pfn m := by
      rw [ptCleanup, hapic [] pfn (.here 0 pfn)]
      rfl
    have hnone : ∀ t i, ¬FollowedSlot phys 0 pfn t i := by
      rintro t i ⟨path, -, hlt, -⟩
      exact Nat.not_lt_zero _ hlt
    rw [hfree]
    exact (TakesDown.free .user pfn m).congr fun t i ↦ ⟨False.elim, hnone t i⟩
  | succ level ih =>
    have hrounds := takesDown_rounds hunshared
      (List.range' (cleanupFirst (level + 1)) (512 - cleanupFirst (level + 1))) List.nodup_range'
      (fun i hi hpresent ↦ List.mem_filter.2 ⟨hi, by simpa using hpresent⟩)
      (fun i _ hmem m₁ (hsame : m₁.apicBase = m.apicBase) hagree₁ ↦ ih _ m₁ (hunshared.below hmem)
        (fun path t hpath ↦ by
          rw [isApicBase, hsame]
          exact hapic (i :: path) t (.step hmem hpath)) hagree₁)
      m rfl (fun i _ ↦ congrFun (hagree [] pfn (.here _ pfn) (Nat.succ_pos level)) i)
      fun i _ hmem path t hpath hlt ↦ hagree (i :: path) t (.step hmem hpath) (Nat.succ_lt_succ hlt)
    rw [ptCleanup_succ (hapic [] pfn (.here _ pfn)) hrounds.apic_eq, cleanupFrees_succ]
    refine (hrounds.trans (.free .osPt pfn _)).congr fun t i ↦ ?_
    rw [followedSlot_succ_iff, or_false]
    rfl

/-- The call of `os_pfn_free` that an event records. -/
def MemEvent.freed : MemEvent → Option (Region × ℕ)
  | .alloc _ _ _ => none
  | .free region pfn _ => some (region, pfn)

theorem freed_freeAll (calls : List (Region × ℕ)) (m : Memory) :
    (freeAll calls m).trace.map MemEvent.freed = calls.reverse.map some ++ m.trace.map MemEvent.freed := by
  induction calls generalizing m with
  | nil => rfl
  | cons call calls ih =>
    refine (ih _).trans ?_
    rw [List.reverse_cons, List.map_append, List.append_assoc]
    rfl

section Tables

theorem mem_followed : i ∈ followed phys level pfn ↔ (cleanupFirst level ≤ i ∧ i < 512) ∧ phys pfn i &&& 0x1 ≠ 0 := by
  have hfirst : cleanupFirst level ≤ 1 := by
    unfold cleanupFirst
    split <;> omega
  rw [followed, List.mem_filter, List.mem_range'_1, decide_eq_true_eq,
    show cleanupFirst level + (512 - cleanupFirst level) = 512 by omega]

/-- The APIC page is not mapped below `root`. -/
def ApicRemoved (m : Memory) (root : ℕ) : Prop :=
  m.phys.entry root [pgdIndex m.apicBase.hugePage, pudIndex m.apicBase.hugePage] (pmdIndex m.apicBase.hugePage) = 0

/-- A path of slots that `pt_cleanup` can follow: none is entry 0 of a level-3 table. -/
def Followable (path : List ℕ) : Prop := (∀ i ∈ path, i < 512) ∧ path[1]? ≠ some 0

theorem followable_concat (path : List ℕ) (hlength : path.length ≤ 3) :
    Followable (path ++ [i]) ↔ Followable path ∧ cleanupFirst (4 - path.length) ≤ i ∧ i < 512 := by
  unfold Followable cleanupFirst
  simp only [List.mem_append, List.mem_singleton, or_imp, forall_and, forall_eq]
  rcases path with _ | ⟨a, _ | ⟨b, path⟩⟩
  · simp
  · simp [Nat.one_le_iff_ne_zero, and_assoc, and_comm]
  · have hdeep : ¬4 - (a :: b :: path).length = 3 := by
      simp only [List.length_cons]
      omega
    rw [if_neg hdeep]
    simp only [List.cons_append, List.getElem?_cons_succ, List.getElem?_cons_zero, zero_le, true_and]
    tauto

variable (h : Tables roots m) (hroot : roots root) (hapic : ApicRemoved m root)
include h hroot hapic

/-- The tables that `pt_cleanup` visits. -/
theorem Tables.follows_iff (hlength : path.length ≤ 3) :
    Follows m.phys 4 root path t ↔ Followable path ∧ m.phys.tableAt root path = some t := by
  induction path using List.reverseRecOn generalizing t with
  | nil =>
    rw [PhysMem.tableAt_nil, Option.some_inj, eq_comm]
    refine leads_nil_iff.trans ?_
    exact (and_iff_right ⟨fun i hi ↦ absurd hi List.not_mem_nil, by simp⟩).symm
  | append_singleton path i ih =>
    rw [List.length_append, List.length_singleton] at hlength
    have hshort : path.length < 3 := by omega
    rw [followable_concat path (by omega)]
    refine leads_concat_iff.trans ⟨?_, ?_⟩
    · rintro ⟨s, hs, -, hi, rfl⟩
      obtain ⟨hpath, htable⟩ := (ih (by omega)).1 hs
      obtain ⟨hrange, hpresent⟩ := mem_followed.1 hi
      refine ⟨⟨hpath, hrange⟩, h.tableAt_shift hroot hshort htable hpresent fun base hslot ↦ ?_⟩
      cases hslot with
      | window => exact hpath.2 rfl
      | apic =>
        rw [ApicRemoved, PhysMem.entry_of_tableAt htable] at hapic
        exact hpresent (by rw [hapic]; rfl)
    · rintro ⟨⟨hpath, hrange⟩, htable⟩
      rcases hfront : m.phys.tableAt root path with _ | s
      · rw [PhysMem.tableAt_append_none hfront] at htable
        exact absurd htable.symm (Option.some_ne_none t)
      · have hok := h.entry_ok root path i hroot hshort.le
        rw [PhysMem.entry_of_tableAt hfront] at hok
        rw [PhysMem.tableAt_concat hfront] at htable
        obtain ⟨hpresent, hshift⟩ := hok.shift_of_table hshort htable
        exact ⟨s, (ih (by omega)).2 ⟨hpath, hfront⟩, by omega, mem_followed.2 ⟨hrange, hpresent⟩, hshift.symm⟩

/-- It visits no table twice. -/
theorem Tables.unshared : Unshared (followed m.phys) (nextFrame m.phys) 4 root :=
  fun path path' u hpath hpath' hlt hlt' ↦
  (h.separated root root path path' u hroot hroot (by omega) (by omega)
    ((h.follows_iff hroot hapic (by omega)).1 hpath).2 ((h.follows_iff hroot hapic (by omega)).1 hpath').2).2

/-- The pages it visits are those mapped for user mode. -/
theorem Tables.follows_page (hlength : path.length = 3) :
    Follows m.phys 4 root (path ++ [i]) t ↔
      Followable (path ++ [i]) ∧ m.phys.entry root path i &&& 0x1 ≠ 0 ∧ t = m.phys.entry root path i >>> 12 := by
  rw [followable_concat path hlength.le]
  refine leads_concat_iff.trans ⟨?_, ?_⟩
  · rintro ⟨s, hs, -, hi, rfl⟩
    obtain ⟨hpath, htable⟩ := (h.follows_iff hroot hapic hlength.le).1 hs
    obtain ⟨hrange, hpresent⟩ := mem_followed.1 hi
    rw [PhysMem.entry_of_tableAt htable]
    exact ⟨⟨hpath, hrange⟩, hpresent, rfl⟩
  · rintro ⟨⟨hpath, hrange⟩, hpresent, rfl⟩
    rcases htable : m.phys.tableAt root path with _ | s
    · rw [PhysMem.entry_of_tableAt_none htable] at hpresent
      exact absurd rfl hpresent
    · rw [PhysMem.entry_of_tableAt htable] at hpresent ⊢
      exact ⟨s, (h.follows_iff hroot hapic hlength.le).2 ⟨hpath, htable⟩,
        by omega, mem_followed.2 ⟨hrange, hpresent⟩, rfl⟩

end Tables

/-- The address of the page at the end of a path of four slots. -/
def pageAt (path : List ℕ) : ℕ := path.foldl (fun addr i ↦ addr * 512 + i) 0 * pageSize

/-- The frees, in order, are one for each page that user mode can reach, of its frame, and one for each table of the
tree but those below entry 0 of a level-3 table. -/
structure FreesOnce (m : Memory) (root : ℕ) (calls : List (Region × ℕ)) : Prop where
  pages : ∃ pages : List ℕ, pages.Nodup ∧
    (∀ addr, addr ∈ pages ↔ addr % pageSize = 0 ∧ UserAccessible m.phys root addr false) ∧
    (calls.filter fun call ↦ call.1 = .user).map (fun call ↦ some call.2) =
      pages.map fun addr ↦ (hwWalk m.phys root addr).map Mapping.pfn
  tables_nodup : ((calls.filter fun call ↦ call.1 = .osPt).map Prod.snd).Nodup
  tables : ∀ t, (.osPt, t) ∈ calls ↔ ∃ path, path.length ≤ 3 ∧ Followable path ∧ m.phys.tableAt root path = some t
  only : ∀ call ∈ calls, call.1 = .user ∨ call.1 = .osPt

/-- `pt_cleanup` made these frees and no other, and cleared the entries it followed and no other. -/
structure CleansOnce (m m' : Memory) (root : ℕ) : Prop where
  frees : ∃ calls, FreesOnce m root calls ∧
    m'.trace.map MemEvent.freed = calls.reverse.map some ++ m.trace.map MemEvent.freed
  clears : Clears (fun t i ↦ ∃ path, path.length ≤ 3 ∧ Followable (path ++ [i]) ∧ m.phys.tableAt root path = some t ∧
    m.phys t i &&& 0x1 ≠ 0) m.phys m'.phys

section Pages

theorem pageAt_eq (a b c d : ℕ) : pageAt [a, b, c, d] = a * 2 ^ 39 + b * 2 ^ 30 + c * 2 ^ 21 + d * 2 ^ 12 := by
  simp only [pageAt, List.foldl, pageSize]
  ring

theorem indices_pageAt {a b c d : ℕ} (ha : a < 512) (hb : b < 512) (hc : c < 512) (hd : d < 512) :
    tablePath (pageAt [a, b, c, d]) = [a, b, c] ∧ pteIndex (pageAt [a, b, c, d]) = d := by
  simp only [tablePath, pageAt_eq, List.cons.injEq, and_true, pgdIndex_eq, pudIndex_eq, pmdIndex_eq, pteIndex_eq]
  refine ⟨⟨?_, ?_, ?_⟩, ?_⟩ <;> omega

theorem pageAt_indices {addr : ℕ} (hlt : addr < 2 ^ 48) (halign : addr % pageSize = 0) :
    pageAt (tablePath addr ++ [pteIndex addr]) = addr := by
  simp only [pageSize] at halign
  simp only [tablePath, List.cons_append, List.nil_append, pageAt_eq, pgdIndex_eq, pudIndex_eq,
    pmdIndex_eq, pteIndex_eq]
  omega

theorem followed_nodup (phys : PhysMem) (level pfn : ℕ) : (followed phys level pfn).Nodup :=
  List.Nodup.filter _ List.nodup_range'

/-- The visited pages. -/
def leaves (phys : PhysMem) (root : ℕ) : List (List ℕ × ℕ) :=
  (tour (followed phys) (nextFrame phys) 4 root).filter fun p ↦ p.1.length = 4

theorem mem_leaves {p : List ℕ × ℕ} : p ∈ leaves phys root ↔ Follows phys 4 root p.1 p.2 ∧ p.1.length = 4 := by
  rw [leaves, List.mem_filter, decide_eq_true_eq]
  exact and_congr_left fun _ ↦ mem_tour_iff

theorem leaves_nodup (phys : PhysMem) (root : ℕ) : ((leaves phys root).map Prod.fst).Nodup := by
  exact (tour_nodup (followed_nodup phys) 4 root).sublist (List.filter_sublist.map Prod.fst)

theorem cleanupFrees_user (phys : PhysMem) (root : ℕ) :
    (cleanupFrees phys 4 root).filter (fun call ↦ call.1 = .user) = (leaves phys root).map fun p ↦ (.user, p.2) := by
  rw [cleanupFrees, List.filter_map, leaves]
  have hfilter : ∀ p : List ℕ × ℕ, ((fun call : Region × ℕ ↦ decide (call.1 = .user)) ∘
      fun p ↦ ((if p.1.length = 4 then .user else .osPt : Region), p.2)) p = decide (p.1.length = 4) := fun p ↦ by
    by_cases hp : p.1.length = 4 <;> simp [hp]
  rw [funext hfilter]
  refine List.map_congr_left fun p hp ↦ ?_
  rw [if_pos (of_decide_eq_true (List.mem_filter.1 hp).2)]

theorem cleanupFrees_osPt (phys : PhysMem) (root : ℕ) :
    ((cleanupFrees phys 4 root).filter fun call ↦ call.1 = .osPt).map Prod.snd =
      ((tour (followed phys) (nextFrame phys) 4 root).filter fun p ↦ p.1.length ≠ 4).map Prod.snd := by
  rw [cleanupFrees, List.filter_map, List.map_map]
  have hfilter : ∀ p : List ℕ × ℕ, ((fun call : Region × ℕ ↦ decide (call.1 = .osPt)) ∘
      fun p ↦ ((if p.1.length = 4 then .user else .osPt : Region), p.2)) p = decide (p.1.length ≠ 4) := fun p ↦ by
    by_cases hp : p.1.length = 4 <;> simp [hp]
  rw [funext hfilter]
  rfl

theorem mem_cleanupFrees_osPt : (.osPt, t) ∈ cleanupFrees phys 4 root ↔ ∃ path, path.length ≤ 3 ∧
    Follows phys 4 root path t := by
  rw [cleanupFrees, List.mem_map]
  constructor
  · rintro ⟨⟨path, u⟩, hp, heq⟩
    obtain ⟨hregion, rfl⟩ := Prod.mk.inj heq
    have hpath : Follows phys 4 root path u := mem_tour_iff.1 hp
    have hne : path.length ≠ 4 := fun hlength ↦ by
      rw [if_pos hlength] at hregion
      exact Region.noConfusion hregion
    have hle := hpath.length_le
    exact ⟨path, by omega, hpath⟩
  · rintro ⟨path, hlength, hpath⟩
    have hne : path.length ≠ 4 := by omega
    exact ⟨(path, t), mem_tour_iff.2 hpath, Prod.ext (if_neg hne) rfl⟩

/-- The address of a path of four slots. -/
theorem Followable.address (h : Followable path) (hlength : path.length = 4) :
    tablePath (pageAt path) ++ [pteIndex (pageAt path)] = path ∧ pageAt path < 2 ^ 48 ∧ pageAt path % pageSize = 0 := by
  obtain ⟨a, b, c, d, rfl⟩ : ∃ a b c d, path = [a, b, c, d] := by
    rcases path with _ | ⟨a, _ | ⟨b, _ | ⟨c, _ | ⟨d, _ | ⟨e, path⟩⟩⟩⟩⟩ <;> simp at hlength
    exact ⟨a, b, c, d, rfl⟩
  have hlt : ∀ i ∈ [a, b, c, d], i < 512 := h.1
  simp only [List.mem_cons, List.not_mem_nil, or_false, forall_eq_or_imp, forall_eq] at hlt
  obtain ⟨ha, hb, hc, hd⟩ := hlt
  obtain ⟨htable, hpte⟩ := indices_pageAt ha hb hc hd
  rw [htable, hpte, pageAt_eq, pageSize]
  refine ⟨rfl, ?_, ?_⟩ <;> omega

variable (h : Tables roots m) (hroot : roots root) (hapic : ApicRemoved m root)
include h hroot hapic

/-- The visited pages are those user mode can reach, each with its frame. -/
theorem Tables.leaf_iff {addr pfn : ℕ} (hlt : addr < 2 ^ 48) :
    Follows m.phys 4 root (tablePath addr ++ [pteIndex addr]) pfn ↔
      UserAccessible m.phys root addr false ∧ (hwWalk m.phys root addr).map Mapping.pfn = some pfn := by
  rw [h.follows_page hroot hapic rfl, h.userAccessible_iff hroot]
  change _ ∧ m.phys.pageEntry root addr &&& 0x1 ≠ 0 ∧ pfn = m.phys.pageEntry root addr >>> 12 ↔ _
  by_cases hslot : UserSlot (tablePath addr) (pteIndex addr)
  · have haddr : UserAddr addr := by
      obtain ⟨hpgd, hlow, hhigh⟩ := userSlot_page_iff.1 hslot
      rw [pgdIndex_eq] at hpgd
      rw [pudIndex_eq] at hlow hhigh
      constructor <;> omega
    have hpath : Followable (tablePath addr ++ [pteIndex addr]) := by
      obtain ⟨hpgd, hlow, -⟩ := haddr.indices
      refine ⟨fun i hi ↦ ?_, fun hskip ↦ ?_⟩
      · simp only [tablePath, List.cons_append, List.nil_append, List.mem_cons, List.not_mem_nil, or_false,
          pgdIndex_eq, pudIndex_eq, pmdIndex_eq, pteIndex_eq] at hi
        omega
      · have hzero : pudIndex addr = 0 := Option.some.inj hskip
        omega
    rcases h.page_cases hroot hslot with ⟨hzero, -, -⟩ | ⟨_, frame, flags, -, -, hflags, hentry, -, hwalk⟩
    · rw [hzero]
      exact iff_of_false (fun hand ↦ hand.2.1 rfl) fun hand ↦ hand.1.2.1 rfl
    · rw [hentry, hwalk, makeEntry_shiftRight hflags.tableFlags.lt, hflags.tableFlags.present]
      constructor
      · rintro ⟨-, -, rfl⟩
        exact ⟨⟨haddr, hflags.tableFlags.ne_zero _, fun hwrite ↦ Bool.noConfusion hwrite⟩, rfl⟩
      · rintro ⟨-, hframe⟩
        exact ⟨hpath, by decide, (Option.some.inj hframe).symm⟩
  · have hok := h.entry_ok root (tablePath addr) (pteIndex addr) hroot (by simp [tablePath])
    have hzero : m.phys.pageEntry root addr = 0 := by
      change EntryOk m.apicBase _ _ (m.phys.pageEntry root addr) at hok
      generalize m.phys.pageEntry root addr = e at *
      cases hok with
      | empty => rfl
      | userTable slot => exact absurd slot hslot
      | userPage slot => exact absurd slot hslot
      | kernelTable slot => exact absurd slot.length_lt (by simp [tablePath])
      | kernelPage slot => exact absurd slot.length_eq (by simp [tablePath])
    rw [hzero]
    exact iff_of_false (fun hand ↦ hand.2.1 rfl) fun hand ↦ hand.1.2.1 rfl

/-- A visited page is reached by its address. -/
theorem Tables.leaf_address {p : List ℕ × ℕ} (hp : p ∈ leaves m.phys root) :
    tablePath (pageAt p.1) ++ [pteIndex (pageAt p.1)] = p.1 ∧ pageAt p.1 < 2 ^ 48 ∧ pageAt p.1 % pageSize = 0 := by
  obtain ⟨path, pfn⟩ := p
  obtain ⟨hfollows, hlength⟩ := mem_leaves.1 hp
  simp only at hfollows hlength ⊢
  rcases List.eq_nil_or_concat' path with rfl | ⟨front, i, rfl⟩
  · exact absurd hlength (by decide)
  · rw [List.length_append, List.length_singleton] at hlength
    exact ((h.follows_page hroot hapic (by omega)).1 hfollows).1.address (by simpa using hlength)

theorem Tables.freesOnce : FreesOnce m root (cleanupFrees m.phys 4 root) := by
  have hleaf : ∀ p ∈ leaves m.phys root, UserAccessible m.phys root (pageAt p.1) false ∧
      (hwWalk m.phys root (pageAt p.1)).map Mapping.pfn = some p.2 := fun p hp ↦ by
    obtain ⟨hpath, hlt, -⟩ := h.leaf_address hroot hapic hp
    refine (h.leaf_iff hroot hapic hlt).1 ?_
    rw [hpath]
    exact (mem_leaves.1 hp).1
  refine ⟨⟨(leaves m.phys root).map fun p ↦ pageAt p.1, ?_, fun addr ↦ ?_, ?_⟩, ?_, fun t ↦ ?_, fun call hcall ↦ ?_⟩
  · refine (leaves_nodup m.phys root).of_map.map_on fun p hp p' hp' heq ↦ ?_
    have hpath : p.1 = p'.1 := by
      rw [← (h.leaf_address hroot hapic hp).1, heq]
      exact (h.leaf_address hroot hapic hp').1
    exact List.inj_on_of_nodup_map (leaves_nodup m.phys root) hp hp' hpath
  · rw [List.mem_map]
    constructor
    · rintro ⟨p, hp, rfl⟩
      exact ⟨(h.leaf_address hroot hapic hp).2.2, (hleaf p hp).1⟩
    · rintro ⟨halign, haccess⟩
      have hlt : addr < 2 ^ 48 := ((h.userAccessible_iff hroot false).1 haccess).1.2.trans (by norm_num)
      obtain ⟨mapping, hwalk, -⟩ := haccess.2
      have hfollows := (h.leaf_iff hroot hapic hlt).2 ⟨haccess, by rw [hwalk]; rfl⟩
      exact ⟨(tablePath addr ++ [pteIndex addr], mapping.pfn), mem_leaves.2 ⟨hfollows, by simp [tablePath]⟩,
        pageAt_indices hlt halign⟩
  · rw [cleanupFrees_user, List.map_map, List.map_map]
    exact List.map_congr_left fun p hp ↦ (hleaf p hp).2.symm
  · rw [cleanupFrees_osPt]
    have hnodup : ((tour (followed m.phys) (nextFrame m.phys) 4 root).map Prod.fst).Nodup :=
      tour_nodup (followed_nodup m.phys) 4 root
    refine (hnodup.of_map.filter _).map_on fun p hp p' hp' heq ↦ ?_
    obtain ⟨htour, hshort⟩ := List.mem_filter.1 hp
    obtain ⟨htour', hshort'⟩ := List.mem_filter.1 hp'
    have hpath : Follows m.phys 4 root p.1 p.2 := mem_tour_iff.1 htour
    have hpath' : Follows m.phys 4 root p'.1 p'.2 := mem_tour_iff.1 htour'
    rw [← heq] at hpath'
    refine Prod.ext (h.unshared hroot hapic _ _ _ hpath hpath' ?_ ?_) heq
    · exact lt_of_le_of_ne hpath.length_le (of_decide_eq_true hshort)
    · exact lt_of_le_of_ne hpath'.length_le (of_decide_eq_true hshort')
  · rw [mem_cleanupFrees_osPt]
    refine exists_congr fun path ↦ and_congr_right fun hlength ↦ ?_
    exact h.follows_iff hroot hapic hlength
  · rw [cleanupFrees, List.mem_map] at hcall
    obtain ⟨p, -, rfl⟩ := hcall
    simp only
    split
    · exact Or.inl rfl
    · exact Or.inr rfl

/-- `pt_cleanup` on a page table from which the APIC page was removed. -/
theorem Tables.cleansOnce : CleansOnce m (ptCleanup 4 root m) root := by
  have hbase : ∀ t, t < 0x20000 → isApicBase m t = false := fun t ht ↦ by
    have habove := m.apicBase.above_memory
    rw [isApicBase, decide_eq_false_iff_not]
    rintro rfl
    simp only [endMem, pageShift, Nat.shiftRight_eq_div_pow, Nat.shiftLeft_eq] at ht habove
    omega
  have hdown := takesDown_ptCleanup 4 root m (h.unshared hroot hapic) (fun path t hpath ↦ hbase t ?_) fun _ _ _ _ ↦ rfl
  · refine ⟨⟨_, h.freesOnce hroot hapic, ?_⟩, fun t i ↦ ⟨?_, fun hnone ↦ ?_⟩⟩
    · rw [hdown.trace_eq, freed_freeAll]
    · rintro ⟨path, hlength, hpath, htable, hpresent⟩
      obtain ⟨hfront, hrange⟩ := (followable_concat path hlength).1 hpath
      exact (hdown.clears t i).1 ⟨path, (h.follows_iff hroot hapic hlength).2 ⟨hfront, htable⟩, by omega,
        mem_followed.2 ⟨hrange, hpresent⟩⟩
    · refine (hdown.clears t i).2 ?_
      rintro ⟨path, hfollows, hlt, hi⟩
      have hlength : path.length ≤ 3 := by omega
      obtain ⟨hfront, htable⟩ := (h.follows_iff hroot hapic hlength).1 hfollows
      obtain ⟨hrange, hpresent⟩ := mem_followed.1 hi
      exact hnone ⟨path, hlength, (followable_concat path hlength).2 ⟨hfront, hrange⟩, htable, hpresent⟩
  · by_cases hlength : path.length = 4
    · have hleaf : (path, t) ∈ leaves m.phys root := by
        rw [mem_leaves]
        exact ⟨hpath, hlength⟩
      obtain ⟨haddress, hlt, -⟩ := h.leaf_address hroot hapic hleaf
      simp only at haddress hlt
      rw [← haddress] at hpath
      obtain ⟨haccess, hframe⟩ := (h.leaf_iff hroot hapic hlt).1 hpath
      obtain ⟨mapping, hwalk, husable⟩ := h.userAccessible_usable hroot haccess
      rw [hwalk] at hframe
      obtain rfl := Option.some.inj hframe
      exact husable.contains.lt
    · have hle := hpath.length_le
      have hshort : path.length ≤ 3 := by omega
      have htable := ((h.follows_iff hroot hapic hshort).1 hpath).2
      exact (h.table_usable t (Tables.isTable_of_tableAt hroot hshort htable)).contains.lt

end Pages

end GemOS
