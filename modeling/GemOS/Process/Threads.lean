import GemOS.Process.Segments
import GemOS.Process.StrayStores

/-!
# Threads of one address space

`do_clone` copies the segment records of its caller and shares the page table; afterwards `do_expand` and `do_shrink`
update the record of the calling context only. An observer of the machine keeps for each slot the address space its
context belongs to, named by when and where its first context was made, and the ranges of addresses that `expand`
returned to each address space.
-/

namespace GemOS

open Foundation Memory Kernel

/-- The address is in a range of pages. -/
def InPages (start pages addr : ℕ) : Prop := start ≤ addr ∧ addr < start + pages * pageSize

/-- A range that `expand` returned to a context of an address space, and the ranges its contexts gave back since. -/
structure Grant where
  space : ℕ × CtxPtr
  start : ℕ
  pages : ℕ
  returned : List (ℕ × ℕ)
  deriving DecidableEq

/-- The address was granted and not given back since. -/
def Grant.Holds (g : Grant) (addr : ℕ) : Prop :=
  InPages g.start g.pages addr ∧ ∀ back ∈ g.returned, ¬ InPages back.1 back.2 addr

/-- A context of the address space gave pages back. -/
def Grant.giveBack (space : ℕ × CtxPtr) (start pages : ℕ) (g : Grant) : Grant :=
  if g.space = space then { g with returned := (start, pages) :: g.returned } else g

/-- What the observer knows. -/
structure Threads where
  clock : ℕ
  space : CtxPtr → ℕ × CtxPtr
  grants : List Grant

namespace Threads

def start : Threads := ⟨0, fun _ ↦ (0, none), []⟩

/-- The address space of the context in a slot: a context that the event makes joins that of its maker with `clone`,
and has a new one otherwise. The machine is in the state `k'` after the event. -/
def spaceAfter (event : Event) (k k' : Kernel) (t : Threads) (p : CtxPtr) : ℕ × CtxPtr :=
  if (k.ctxs p).state = .unused ∧ (k'.ctxs p).state ≠ .unused then
    if Asks event k .clone then t.space k.current else (t.clock, p)
  else t.space p

/-- The ranges after an event: `expand` and `shrink` return the start of a range, or 0. -/
def grantsAfter (event : Event) (k k' : Kernel) (t : Threads) : List Grant :=
  let result := k'.regs.rax
  if k.mode = .user ∧ result ≠ 0 ∧ Asks event k .expand then ⟨t.space k.current, result, k.regs.rsi, []⟩ :: t.grants
  else if k.mode = .user ∧ result ≠ 0 ∧ Asks event k .shrink then
    t.grants.map (Grant.giveBack (t.space k.current) result k.regs.rsi)
  else t.grants

def see (event : Event) (k k' : Kernel) (t : Threads) : Threads :=
  ⟨t.clock + 1, t.spaceAfter event k k', t.grantsAfter event k k'⟩

end Threads

/-- A machine under observation. -/
abbrev observeWith (machine : Event → Kernel → Kernel) : Event → Kernel × Threads → Kernel × Threads :=
  watch machine fun event k ↦ Threads.see event k (machine event k)

abbrev observe : Event → Kernel × Threads → Kernel × Threads := observeWith Kernel.step
abbrev observeFull : Event → Kernel × Threads → Kernel × Threads := observeWith fullStep

/-- Two live contexts with the same page table, made by `clone` from one another. -/
structure SharePgd (s : Kernel × Threads) (i j : Fin maxProcesses) : Prop where
  left : Live s.1.ctxs i
  right : Live s.1.ctxs j
  pgd_eq : (s.1.ctxs (some i)).pgd = (s.1.ctxs (some j)).pgd
  space_eq : s.2.space (some i) = s.2.space (some j)

/-- The segments have the same bounds. -/
structure SameBounds (mm mm' : MmSegment) : Prop where
  start_eq : mm.start = mm'.start
  stop_eq : mm.stop = mm'.stop
  next_eq : mm.nextFree = mm'.nextFree

/-- Contexts that share a page table agree on the bounds of every segment. -/
def Agree (s : Kernel × Threads) : Prop :=
  ∀ i j, SharePgd s i j → ∀ seg, SameBounds ((s.1.ctxs (some i)).mms seg) ((s.1.ctxs (some j)).mms seg)

/-- No address is in two ranges granted to one address space and not given back. -/
def NoOverlap (s : Kernel × Threads) : Prop :=
  s.2.grants.Pairwise fun g g' ↦ g.space = g'.space → ∀ addr, g.Holds addr → ¬ g'.Holds addr

/-- The event is a call that moves a bound by at least a page. -/
def MovesBound (event : Event) (k : Kernel) : Prop :=
  k.mode = .user ∧ k.regs.rsi ≠ 0 ∧
    ((Asks event k .expand ∧ ∃ seg, Grows k.ctx k.regs.rsi k.regs.rdx seg) ∨
      Asks event k .shrink ∧ ∃ seg, Shrinks k.ctx k.regs.rsi k.regs.rdx seg)

/-- A context moves a bound only while no other context shares its page table. -/
def Exclusive (s : Kernel × Threads) (event : Event) : Prop :=
  MovesBound event s.1 → ∀ i j, s.1.current = some i → SharePgd s i j → j = i

variable {event : Event} {k k' : Kernel} {s : Kernel × Threads} {i j : Fin maxProcesses}

/-- What holds along every run: a live context belongs to an address space made before, and the contexts of one address
space have one page table. -/
structure Kin (s : Kernel × Threads) : Prop where
  table : Table s.1
  contexts : ContextsOk s.1
  past : ∀ i, Live s.1.ctxs i → (s.2.space (some i)).1 < s.2.clock
  grants_past : ∀ g ∈ s.2.grants, g.space.1 < s.2.clock
  pgd_eq : ∀ i j, Live s.1.ctxs i → Live s.1.ctxs j → s.2.space (some i) = s.2.space (some j) →
    (s.1.ctxs (some i)).pgd = (s.1.ctxs (some j)).pgd

/-- A context that lives on stays in its address space. -/
theorem spaceAfter_old {t : Threads} (h : Live k.ctxs j) : t.spaceAfter event k k' (some j) = t.space (some j) := by
  unfold Threads.spaceAfter
  exact if_neg fun hmade ↦ h.2 hmade.1

theorem spaceAfter_new {t : Threads} (hdead : ¬ Live k.ctxs j) (hj : Live k'.ctxs j) :
    t.spaceAfter event k k' (some j) = if Asks event k .clone then t.space k.current else (t.clock, some j) := by
  unfold Threads.spaceAfter
  refine if_pos ⟨?_, hj.2⟩
  by_contra hstate
  exact hdead ⟨hj.1, hstate⟩

/-- The context shares the address space of the current one, or the event makes it a copy of the current one. -/
def OfCurrent (event : Event) (s : Kernel × Threads) (j : Fin maxProcesses) : Prop :=
  (Live s.1.ctxs j ∧ s.2.space (some j) = s.2.space s.1.current) ∨
    ((observe event s).1.ctxs (some j)).pgd = s.1.ctx.pgd ∧ ((observe event s).1.ctxs (some j)).mms = s.1.ctx.mms

namespace Kin

theorem current (h : Kin s) (hmode : s.1.mode = .user) :
    ∃ i, s.1.current = some i ∧ Live s.1.ctxs i ∧ s.1.ctx = s.1.ctxs (some i) := h.table.current_user hmode

/-- A new context is a clone of the current one, or alone in its address space. -/
theorem new (h : Kin s) (hdead : ¬ Live s.1.ctxs j) (hj : Live (observe event s).1.ctxs j) :
    (Asks event s.1 .clone ∧ s.1.mode = .user ∧ (observe event s).2.space (some j) = s.2.space s.1.current ∧
        ((observe event s).1.ctxs (some j)).pgd = s.1.ctx.pgd ∧
        ((observe event s).1.ctxs (some j)).mms = s.1.ctx.mms) ∨
      ¬ Asks event s.1 .clone ∧ (observe event s).2.space (some j) = (s.2.clock, some j) := by
  have hspace : (observe event s).2.space (some j) = _ := spaceAfter_new hdead hj
  by_cases hasks : Asks event s.1 .clone
  · rw [if_pos hasks] at hspace
    rcases (h.table.spaces event).made j hdead hj with ⟨hshell, -⟩ | ⟨hmode, hmms, hpgd⟩
    · obtain ⟨⟨peek, heq⟩, -⟩ := hasks
      rcases step_shell hshell event with hrest | ⟨_, _, hlaunch, -⟩
      · exact absurd (show Live s.1.ctxs j from hrest ▸ hj) hdead
      · exact Event.noConfusion (heq.symm.trans hlaunch)
    · exact Or.inl ⟨hasks, hmode, hspace, hpgd hasks, hmms⟩
  · rw [if_neg hasks] at hspace
    exact Or.inr ⟨hasks, hspace⟩

theorem old_space (hlive : Live s.1.ctxs j) : (observe event s).2.space (some j) = s.2.space (some j) :=
  spaceAfter_old hlive

theorem past_current (h : Kin s) (hmode : s.1.mode = .user) : (s.2.space s.1.current).1 < s.2.clock := by
  obtain ⟨i, hi, hlive, -⟩ := h.current hmode
  rw [hi]
  exact h.past i hlive

/-- A context that was there does not share an address space with one that is alone in its own. -/
theorem past_ne (h : Kin s) (hlive : Live s.1.ctxs i) (p : CtxPtr) : s.2.space (some i) ≠ (s.2.clock, p) := by
  intro heq
  have hpast := h.past i hlive
  rw [heq] at hpast
  exact lt_irrefl _ hpast

theorem see_grants_past (h : Kin s) : ∀ g ∈ (observe event s).2.grants, g.space.1 < s.2.clock := by
  change ∀ g ∈ s.2.grantsAfter event s.1 (step event s.1), _
  unfold Threads.grantsAfter
  simp only
  split
  · rename_i hgrant
    intro g hg
    rcases List.mem_cons.1 hg with rfl | hold
    · exact h.past_current hgrant.1
    · exact h.grants_past g hold
  · split
    · intro g hg
      obtain ⟨g', hg', rfl⟩ := List.mem_map.1 hg
      have hspace : (g'.giveBack (s.2.space s.1.current) (step event s.1).regs.rax s.1.regs.rsi).space = g'.space := by
        unfold Grant.giveBack
        split <;> rfl
      rw [hspace]
      exact h.grants_past g' hg'
    · exact h.grants_past

/-- Two contexts of one address space: they are one, they were in one address space before, or both come from the
current context, which asks for a clone. -/
theorem pair (h : Kin s) (hi : Live (observe event s).1.ctxs i) (hj : Live (observe event s).1.ctxs j)
    (heq : (observe event s).2.space (some i) = (observe event s).2.space (some j)) :
    i = j ∨ (Live s.1.ctxs i ∧ Live s.1.ctxs j ∧ s.2.space (some i) = s.2.space (some j)) ∨
      Asks event s.1 .clone ∧ s.1.mode = .user ∧ OfCurrent event s i ∧ OfCurrent event s j := by
  have hone : ∀ {i j}, Live s.1.ctxs i → ¬ Live s.1.ctxs j → Live (observe event s).1.ctxs j →
      (observe event s).2.space (some i) = (observe event s).2.space (some j) →
      Asks event s.1 .clone ∧ s.1.mode = .user ∧ OfCurrent event s i ∧ OfCurrent event s j := by
    intro i j hi hdead hj heq
    rw [old_space hi] at heq
    rcases h.new hdead hj with ⟨hasks, hmode, hspace, hmade⟩ | ⟨-, hspace⟩
    · exact ⟨hasks, hmode, Or.inl ⟨hi, heq.trans hspace⟩, Or.inr hmade⟩
    · exact absurd (heq.trans hspace) (h.past_ne hi _)
  by_cases hlive : Live s.1.ctxs i
  · by_cases hlive' : Live s.1.ctxs j
    · rw [old_space hlive, old_space hlive'] at heq
      exact Or.inr (Or.inl ⟨hlive, hlive', heq⟩)
    · exact Or.inr (Or.inr (hone hlive hlive' hj heq))
  · by_cases hlive' : Live s.1.ctxs j
    · obtain ⟨hasks, hmode, hright, hleft⟩ := hone hlive' hlive hi heq.symm
      exact Or.inr (Or.inr ⟨hasks, hmode, hleft, hright⟩)
    · rcases h.new hlive hi with ⟨hasks, hmode, -, hmade⟩ | ⟨hnot, hspace⟩
      · rcases h.new hlive' hj with ⟨-, -, -, hmade'⟩ | ⟨hnot, -⟩
        · exact Or.inr (Or.inr ⟨hasks, hmode, Or.inr hmade, Or.inr hmade'⟩)
        · exact absurd hasks hnot
      · rcases h.new hlive' hj with ⟨hasks, -⟩ | ⟨-, hspace'⟩
        · exact absurd hasks hnot
        · exact Or.inl (Option.some.inj (congrArg Prod.snd (hspace.symm.trans (heq.trans hspace'))))

theorem old_pgd (h : Kin s) (hlive : Live s.1.ctxs j) :
    ((observe event s).1.ctxs (some j)).pgd = (s.1.ctxs (some j)).pgd := (h.table.spaces event).pgd_eq j hlive

theorem pgd_of_current (h : Kin s) (hmode : s.1.mode = .user) (hcurrent : OfCurrent event s j) :
    ((observe event s).1.ctxs (some j)).pgd = s.1.ctx.pgd := by
  rcases hcurrent with ⟨hlive, hspace⟩ | ⟨hpgd, -⟩
  · obtain ⟨c, hc, hlive', hctx⟩ := h.current hmode
    rw [hc] at hspace
    rw [hctx]
    exact (h.old_pgd hlive).trans (h.pgd_eq j c hlive hlive' hspace)
  · exact hpgd

/-- Every event keeps it. -/
theorem step (h : Kin s) (event : Event) : Kin (observe event s) where
  table := h.table.after event
  contexts := h.contexts.step h.table event
  past i hi := by
    by_cases hlive : Live s.1.ctxs i
    · rw [old_space hlive]
      exact Nat.lt_succ_of_lt (h.past i hlive)
    · rcases h.new hlive hi with ⟨-, hmode, hspace, -⟩ | ⟨-, hspace⟩
      · rw [hspace]
        exact Nat.lt_succ_of_lt (h.past_current hmode)
      · rw [hspace]
        exact Nat.lt_succ_self _
  grants_past g hg := Nat.lt_succ_of_lt (h.see_grants_past g hg)
  pgd_eq i j hi hj heq := by
    rcases h.pair hi hj heq with rfl | ⟨hi', hj', heq'⟩ | ⟨-, hmode, hcurrent, hcurrent'⟩
    · rfl
    · rw [h.old_pgd hi', h.old_pgd hj', h.pgd_eq i j hi' hj' heq']
    · rw [h.pgd_of_current hmode hcurrent, h.pgd_of_current hmode hcurrent']

end Kin

theorem SameBounds.refl (mm : MmSegment) : SameBounds mm mm := ⟨rfl, rfl, rfl⟩

theorem SameBounds.symm {mm mm' : MmSegment} (h : SameBounds mm mm') : SameBounds mm' mm :=
  ⟨h.start_eq.symm, h.stop_eq.symm, h.next_eq.symm⟩

theorem SameBounds.trans {mm mm₁ mm₂ : MmSegment} (first : SameBounds mm mm₁) (second : SameBounds mm₁ mm₂) :
    SameBounds mm mm₂ :=
  ⟨first.start_eq.trans second.start_eq, first.stop_eq.trans second.stop_eq, first.next_eq.trans second.next_eq⟩

/-- Setting `next_free` to what it is changes no bound. -/
theorem sameBounds_setNext {mms : MmSeg → MmSegment} {seg : MmSeg} {nextFree : ℕ} (h : nextFree = (mms seg).nextFree)
    (other : MmSeg) : SameBounds (mms other) (setNext mms seg nextFree other) := by
  unfold setNext
  by_cases heq : other = seg
  · subst heq
    rw [Function.update_self]
    exact ⟨rfl, rfl, h.symm⟩
  · rw [Function.update_of_ne heq]
    exact .refl _

/-- The record of a caller that moves a bound. -/
theorem resized_ctx (hmode : s.1.mode = .user) (hmoves : ¬ KeepsSegments event s.1)
    (hi : s.1.current = some i) : (observe event s).1.ctxs (some i) = (Kernel.step event s.1).ctx := by
  rw [Kernel.ctx, (sameStates_resize hmode hmoves).current_eq, hi]
  rfl

/-- A call that moves no bound by a page leaves the bounds of its caller. -/
theorem Kin.bounds_of_not_moves (h : Kin s) (hmode : s.1.mode = .user) (hnot : ¬ MovesBound event s.1)
    {i : Fin maxProcesses} (hi : s.1.current = some i) (seg : MmSeg) :
    SameBounds ((s.1.ctxs (some i)).mms seg) (((observe event s).1.ctxs (some i)).mms seg) := by
  obtain ⟨c, hc, hlive, hctx⟩ := h.current hmode
  obtain rfl := Option.some.inj (hi.symm.trans hc)
  by_cases hkeeps : KeepsSegments event s.1
  · have hmms : ((observe event s).1.ctxs (some i)).mms = _ :=
      (h.table.spaces event).mms_eq i hlive fun _ _ ↦ hkeeps
    rw [hmms]
    exact .refl _
  · have hok := h.contexts.current h.table hmode
    rw [resized_ctx hmode hkeeps hi, ← hctx]
    obtain ⟨peek, rfl, hcall | hcall⟩ := asks_of_not_keepsSegments hkeeps
    · rcases (step_expand hmode hcall peek).2 with ⟨seg', hgrows, -, hmms⟩ | ⟨-, -, hmms⟩
      · have hzero : s.1.regs.rsi = 0 := by
          by_contra hsize
          exact hnot ⟨hmode, hsize, Or.inl ⟨⟨⟨peek, rfl⟩, hcall⟩, seg', hgrows⟩⟩
        rw [hmms]
        apply sameBounds_setNext
        rw [(hok.grown hgrows).1, hzero, Nat.zero_mul, Nat.add_zero]
      · rw [hmms]
        exact .refl _
    · rcases (step_shrink hmode hcall peek).2 with ⟨seg', hshrinks, heq, hmms⟩ | ⟨-, -, hmms⟩
      · have hzero : s.1.regs.rsi = 0 := by
          by_contra hsize
          exact hnot ⟨hmode, hsize, Or.inr ⟨⟨⟨peek, rfl⟩, hcall⟩, seg', hshrinks⟩⟩
        rw [hmms]
        apply sameBounds_setNext
        have hnext := (hok.shrunk hshrinks heq).1
        rwa [hzero, Nat.zero_mul, Nat.add_zero] at hnext
      · rw [hmms]
        exact .refl _

/-- A context other than the one that moves a bound keeps its segments. -/
theorem Kin.old_mms (h : Kin s) (event : Event) (hlive : Live s.1.ctxs j)
    (hother : s.1.mode = .user → some j = s.1.current → KeepsSegments event s.1) :
    ((observe event s).1.ctxs (some j)).mms = (s.1.ctxs (some j)).mms := (h.table.spaces event).mms_eq j hlive hother

/-- The bounds of a context that is not the caller of a call that moves one. -/
theorem Kin.bounds_of_quiet (h : Kin s) (event : Event) (hlive : Live s.1.ctxs j)
    (hquiet : s.1.current = some j → ¬ MovesBound event s.1) (seg : MmSeg) :
    SameBounds ((s.1.ctxs (some j)).mms seg) (((observe event s).1.ctxs (some j)).mms seg) := by
  by_cases hcurrent : s.1.mode = .user ∧ s.1.current = some j
  · exact h.bounds_of_not_moves hcurrent.1 (hquiet hcurrent.2) hcurrent.2 seg
  · rw [h.old_mms event hlive fun hmode heq ↦ absurd ⟨hmode, heq.symm⟩ hcurrent]
    exact .refl _

theorem Kin.sharePgd (h : Kin s) (hi : Live s.1.ctxs i) (hj : Live s.1.ctxs j)
    (heq : s.2.space (some i) = s.2.space (some j)) : SharePgd s i j := ⟨hi, hj, h.pgd_eq i j hi hj heq, heq⟩

/-- While nobody moves a bound of an address space that others share, they go on to agree. -/
theorem Kin.agree_step (h : Kin s) (hagree : Agree s) (hexclusive : Exclusive s event) : Agree (observe event s) := by
  intro i j hshares seg
  have hquiet : ∀ {i j}, i ≠ j → SharePgd s i j → s.1.current = some i → ¬ MovesBound event s.1 :=
    fun hne hpair hi hmoves ↦
    hne (hexclusive hmoves _ _ hi hpair).symm
  rcases h.pair hshares.left hshares.right hshares.space_eq with rfl | ⟨hi, hj, heq⟩ | ⟨hasks, hmode, hi, hj⟩
  · exact .refl _
  · by_cases hne : i = j
    · subst hne
      exact .refl _
    · have hpair := h.sharePgd hi hj heq
      have hpair' := h.sharePgd hj hi heq.symm
      have hleft := h.bounds_of_quiet event hi (hquiet hne hpair) seg
      have hright := h.bounds_of_quiet event hj (hquiet (Ne.symm hne) hpair') seg
      exact (hleft.symm.trans (hagree i j hpair seg)).trans hright
  · obtain ⟨c, hc, hlive, hctx⟩ := h.current hmode
    have hnot : ¬ MovesBound event s.1 := by
      rintro ⟨-, -, ⟨hexpand, -⟩ | ⟨hshrink, -⟩⟩
      · exact Syscall.noConfusion (hasks.inj hexpand)
      · exact Syscall.noConfusion (hasks.inj hshrink)
    have hcopy : ∀ {l}, OfCurrent event s l → SameBounds (s.1.ctx.mms seg)
        (((observe event s).1.ctxs (some l)).mms seg) := by
      rintro l (⟨hlive', hspace⟩ | ⟨-, hmms⟩)
      · rw [hc] at hspace
        have hsame := hagree c l (h.sharePgd hlive hlive' hspace.symm) seg
        rw [hctx]
        exact hsame.trans (h.bounds_of_quiet event hlive' (fun _ ↦ hnot) seg)
      · rw [hmms]
        exact .refl _
    exact (hcopy hi).symm.trans (hcopy hj)

theorem MovesBound.not_keeps (h : MovesBound event k) : ¬ KeepsSegments event k := by
  rintro ⟨hexpand, hshrink⟩
  rcases h.2.2 with ⟨hasks, -⟩ | ⟨hasks, -⟩
  · exact hexpand hasks
  · exact hshrink hasks

/-- A bound that is moved is another one afterwards. -/
theorem Kin.moved (h : Kin s) (hmoves : MovesBound event s.1) (hi : s.1.current = some i) :
    ∃ seg, (((observe event s).1.ctxs (some i)).mms seg).nextFree ≠ ((s.1.ctxs (some i)).mms seg).nextFree := by
  have hkeeps := hmoves.not_keeps
  obtain ⟨hmode, hsize, hasks⟩ := hmoves
  obtain ⟨c, hc, -, hctx⟩ := h.current hmode
  obtain rfl := Option.some.inj (hi.symm.trans hc)
  have hok := h.contexts.current h.table hmode
  have hpages : 0 < s.1.regs.rsi * pageSize := Nat.mul_pos (Nat.pos_of_ne_zero hsize) (by decide)
  rw [resized_ctx hmode hkeeps hi, ← hctx]
  rcases hasks with ⟨⟨⟨peek, rfl⟩, hcall⟩, seg, hgrows⟩ | ⟨⟨⟨peek, rfl⟩, hcall⟩, seg, hshrinks⟩
  · rcases (step_expand hmode hcall peek).2 with ⟨seg', hgrows', -, hmms⟩ | ⟨hnot, -⟩
    · refine ⟨seg', ?_⟩
      rw [hmms, setNext, Function.update_self, (hok.grown hgrows').1]
      simp only
      omega
    · exact absurd hgrows (hnot seg)
  · rcases (step_shrink hmode hcall peek).2 with ⟨seg', hshrinks', heq, hmms⟩ | ⟨hnot, -⟩
    · refine ⟨seg', ?_⟩
      have hnext := (hok.shrunk hshrinks' heq).1
      rw [hmms, setNext, Function.update_self]
      simp only
      omega
    · exact absurd hshrinks (hnot seg)

/-- When threads that agree still agree after an event, it moved no bound that they share. -/
theorem Kin.exclusive_of_agree (h : Kin s) (hagree : Agree s) (hafter : Agree (observe event s)) :
    Exclusive s event := by
  intro hmoves i j hi hshares
  by_contra hne
  have hstates := sameStates_resize hmoves.1 hmoves.not_keeps
  obtain ⟨seg, hmoved⟩ := h.moved hmoves hi
  have hstill : ∀ {l}, Live s.1.ctxs l → Live (observe event s).1.ctxs l := fun hlive ↦
    ⟨hlive.1, fun hunused ↦ hlive.2 ((hstates.state_eq _).symm.trans hunused)⟩
  have hpair : SharePgd (observe event s) i j := by
    refine ⟨hstill hshares.left, hstill hshares.right, ?_, ?_⟩
    · rw [h.old_pgd hshares.left, h.old_pgd hshares.right, hshares.pgd_eq]
    · rw [Kin.old_space hshares.left, Kin.old_space hshares.right, hshares.space_eq]
  have hother := h.old_mms event hshares.right fun _ heq ↦ absurd (Option.some.inj (heq.trans hi)) hne
  have hnext := (hafter i j hpair seg).next_eq
  rw [hother, ← (hagree i j hshares seg).next_eq] at hnext
  exact hmoved hnext

/-- Along a run the threads of each address space agree exactly when each bound is moved by a context alone. -/
theorem agree_iff_exclusive {s : Kernel × Threads} (h : Kin s) (hagree : Agree s) (events : List Event) :
    (∀ before later, events = before ++ later → Agree (run observe s before)) ↔ Along observe Exclusive s events :=
  good_iff_along (fun _ event h ↦ h.step event)
    (fun _ _ h hagree ↦ ⟨h.exclusive_of_agree hagree, h.agree_step hagree⟩) h hagree events

/-- The address lies below `next_free` of a segment that can grow. -/
def Backed (mms : MmSeg → MmSegment) (addr : ℕ) : Prop :=
  ∃ seg, (seg = .rodata ∨ seg = .data) ∧ (mms seg).start ≤ addr ∧ addr < (mms seg).nextFree

/-- What an address space was granted is backed in each of its contexts. -/
def GrantsBacked (s : Kernel × Threads) : Prop :=
  ∀ g ∈ s.2.grants, ∀ i, Live s.1.ctxs i → s.2.space (some i) = g.space → ∀ addr, g.Holds addr →
    Backed (s.1.ctxs (some i)).mms addr

theorem Grant.Holds.of_giveBack {g : Grant} {space : ℕ × CtxPtr} {start pages addr : ℕ}
    (h : (g.giveBack space start pages).Holds addr) :
    g.Holds addr ∧ (g.space = space → ¬ InPages start pages addr) := by
  unfold giveBack at h
  split at h
  · exact ⟨⟨h.1, fun back hback ↦ h.2 back (List.mem_cons_of_mem _ hback)⟩, fun _ ↦ h.2 _ (List.mem_cons_self ..)⟩
  · exact ⟨h, fun heq ↦ absurd heq ‹_›⟩

theorem giveBack_space (g : Grant) (space : ℕ × CtxPtr) (start pages : ℕ) :
    (g.giveBack space start pages).space = g.space := by
  unfold Grant.giveBack
  split <;> rfl

/-- What an event does to the ranges: nothing, or `expand` adds one, or `shrink` gives pages back. -/
inductive Dealt (event : Event) (s : Kernel × Threads) : Prop
  | none (quiet : ¬ MovesBound event s.1) (grants_eq : (observe event s).2.grants = s.2.grants)
  | grant (seg : MmSeg) (mode : s.1.mode = .user) (asked : Asks event s.1 .expand)
      (grows : Grows s.1.ctx s.1.regs.rsi s.1.regs.rdx seg)
      (grants_eq : (observe event s).2.grants =
        ⟨s.2.space s.1.current, (s.1.ctx.mms seg).nextFree, s.1.regs.rsi, []⟩ :: s.2.grants)
      (mms_eq : (Kernel.step event s.1).ctx.mms =
        setNext s.1.ctx.mms seg ((s.1.ctx.mms seg).nextFree + s.1.regs.rsi * pageSize))
  | give_back (seg : MmSeg) (nextFree : ℕ) (mode : s.1.mode = .user) (asked : Asks event s.1 .shrink)
      (growing : seg = .rodata ∨ seg = .data)
      (next_eq : nextFree + s.1.regs.rsi * pageSize = (s.1.ctx.mms seg).nextFree)
      (grants_eq : (observe event s).2.grants =
        s.2.grants.map (Grant.giveBack (s.2.space s.1.current) nextFree s.1.regs.rsi))
      (mms_eq : (Kernel.step event s.1).ctx.mms = setNext s.1.ctx.mms seg nextFree)

theorem ContextOk.start_pos {ctx : ExecContext} (h : ContextOk ctx) {seg : MmSeg} (hseg : seg = .rodata ∨ seg = .data) :
    0 < (ctx.mms seg).start := lt_of_lt_of_le (by decide) (h.growing hseg).1

theorem ContextOk.next_pos {ctx : ExecContext} (h : ContextOk ctx) {seg : MmSeg} (hseg : seg = .rodata ∨ seg = .data) :
    0 < (ctx.mms seg).nextFree := lt_of_lt_of_le (h.start_pos hseg) (h.growing hseg).2.1

theorem Kin.dealt (h : Kin s) (event : Event) : Dealt event s := by
  have hgrants : (observe event s).2.grants = s.2.grantsAfter event s.1 (Kernel.step event s.1) := rfl
  unfold Threads.grantsAfter at hgrants
  simp only at hgrants
  split at hgrants
  · rename_i hcase
    obtain ⟨hmode, hresult, hasks⟩ := hcase
    obtain ⟨⟨peek, rfl⟩, hcall⟩ := hasks
    have hok := h.contexts.current h.table hmode
    rcases (step_expand hmode hcall peek).2 with ⟨seg, hgrows, heq, hmms⟩ | ⟨-, hzero, -⟩
    · rw [heq] at hgrants
      rw [(hok.grown hgrows).1] at hmms
      exact .grant seg hmode ⟨⟨peek, rfl⟩, hcall⟩ hgrows hgrants hmms
    · exact absurd hzero hresult
  · split at hgrants
    · rename_i hcase
      obtain ⟨hmode, hresult, hasks⟩ := hcase
      obtain ⟨⟨peek, rfl⟩, hcall⟩ := hasks
      have hok := h.contexts.current h.table hmode
      rcases (step_shrink hmode hcall peek).2 with ⟨seg, hshrinks, heq, hmms⟩ | ⟨-, hzero, -⟩
      · exact .give_back seg _ hmode ⟨⟨peek, rfl⟩, hcall⟩ hshrinks.growing (hok.shrunk hshrinks heq).1 hgrants hmms
      · exact absurd hzero hresult
    · rename_i hexpand hshrink
      refine .none ?_ hgrants
      rintro ⟨hmode, -, ⟨hasks, seg, hgrows⟩ | ⟨hasks, seg, hshrinks⟩⟩
      · obtain ⟨⟨peek, rfl⟩, hcall⟩ := hasks
        have hok := h.contexts.current h.table hmode
        rcases (step_expand hmode hcall peek).2 with ⟨seg', hgrows', heq, -⟩ | ⟨hnot, -⟩
        · exact hexpand ⟨hmode, heq ▸ (hok.next_pos hgrows'.growing).ne', ⟨peek, rfl⟩, hcall⟩
        · exact absurd hgrows (hnot seg)
      · obtain ⟨⟨peek, rfl⟩, hcall⟩ := hasks
        have hok := h.contexts.current h.table hmode
        rcases (step_shrink hmode hcall peek).2 with ⟨seg', hshrinks', heq, -⟩ | ⟨hnot, -⟩
        · have hlow := (hok.shrunk hshrinks' heq).2.1
          have hstart := hok.start_pos hshrinks'.growing
          exact hshrink ⟨hmode, by omega, ⟨peek, rfl⟩, hcall⟩
        · exact absurd hshrinks (hnot seg)

/-- A bound that moves up backs what it backed. -/
theorem Backed.setNext {mms : MmSeg → MmSegment} {addr : ℕ} (h : Backed mms addr) {seg : MmSeg} {nextFree : ℕ}
    (hbelow : addr < (mms seg).nextFree → addr < nextFree) : Backed (setNext mms seg nextFree) addr := by
  obtain ⟨other, hgrowing, hlow, hhigh⟩ := h
  refine ⟨other, hgrowing, ?_⟩
  unfold GemOS.setNext
  by_cases heq : other = seg
  · subst heq
    rw [Function.update_self]
    exact ⟨hlow, hbelow hhigh⟩
  · rw [Function.update_of_ne heq]
    exact ⟨hlow, hhigh⟩

theorem Backed.sameBounds {mms mms' : MmSeg → MmSegment} {addr : ℕ} (h : Backed mms addr)
    (hsame : ∀ seg, SameBounds (mms seg) (mms' seg)) : Backed mms' addr := by
  obtain ⟨seg, hgrowing, hlow, hhigh⟩ := h
  exact ⟨seg, hgrowing, (hsame seg).start_eq ▸ hlow, (hsame seg).next_eq ▸ hhigh⟩

/-- A context whose address space is not new was there, unless it is a clone. -/
theorem Kin.live_of_past (h : Kin s) (hi : Live (observe event s).1.ctxs i)
    (hpast : ((observe event s).2.space (some i)).1 < s.2.clock)
    (hnot : ¬ Asks event s.1 .clone) : Live s.1.ctxs i := by
  by_contra hdead
  rcases h.new hdead hi with ⟨hasks, -⟩ | ⟨-, hspace⟩
  · exact hnot hasks
  · rw [hspace] at hpast
    exact lt_irrefl _ hpast

/-- A context that moves no bound has the bounds of a context that was in its address space. -/
theorem Kin.origin (h : Kin s) (hi : Live (observe event s).1.ctxs i)
    (hpast : ((observe event s).2.space (some i)).1 < s.2.clock) (hquiet : ¬ MovesBound event s.1) :
    ∃ l, Live s.1.ctxs l ∧ s.2.space (some l) = (observe event s).2.space (some i) ∧
      ∀ seg, SameBounds ((s.1.ctxs (some l)).mms seg) (((observe event s).1.ctxs (some i)).mms seg) := by
  by_cases hlive : Live s.1.ctxs i
  · exact ⟨i, hlive, (Kin.old_space hlive).symm, h.bounds_of_quiet event hlive fun _ ↦ hquiet⟩
  · rcases h.new hlive hi with ⟨-, hmode, hspace, -, hmms⟩ | ⟨-, hspace⟩
    · obtain ⟨c, hc, hlive', hctx⟩ := h.current hmode
      rw [hc] at hspace
      refine ⟨c, hlive', hspace.symm, fun seg ↦ ?_⟩
      rw [hmms, hctx]
      exact .refl _
    · rw [hspace] at hpast
      exact absurd hpast (lt_irrefl _)

/-- What is granted stays backed as long as each bound is moved by a context alone. -/
theorem Kin.backed_step (h : Kin s) (hbacked : GrantsBacked s) (hexclusive : Exclusive s event) :
    GrantsBacked (observe event s) := by
  intro g hg i hi hspace addr hholds
  have hpast := h.see_grants_past g hg
  rw [← hspace] at hpast
  cases h.dealt event with
  | none quiet grants_eq =>
    obtain ⟨l, hlive, hspace', hsame⟩ := h.origin hi hpast quiet
    rw [grants_eq] at hg
    exact (hbacked g hg l hlive (hspace'.trans hspace) addr hholds).sameBounds hsame
  | grant seg mode asked grows grants_eq mms_eq =>
    obtain ⟨c, hc, hlive, hctx⟩ := h.current mode
    have hmoves : ¬ KeepsSegments event s.1 := fun hkeeps ↦ hkeeps.1 asked
    have hold := h.live_of_past hi hpast fun hclone ↦ Syscall.noConfusion (asked.inj hclone)
    have hok := h.contexts.current h.table mode
    rw [Kin.old_space hold] at hspace
    rw [grants_eq] at hg
    by_cases hcurrent : s.1.current = some i
    · obtain rfl := Option.some.inj (hc.symm.trans hcurrent)
      rw [resized_ctx mode hmoves hc, mms_eq]
      rcases List.mem_cons.1 hg with rfl | hg
      · have hstart := (hok.growing grows.growing).2.1
        refine ⟨seg, grows.growing, ?_⟩
        rw [setNext, Function.update_self]
        exact ⟨hstart.trans hholds.1.1, hholds.1.2⟩
      · have hback := hbacked g hg c hlive hspace addr hholds
        rw [← hctx] at hback
        exact hback.setNext fun hlt ↦ hlt.trans_le (Nat.le_add_right _ _)
    · rw [h.old_mms event hold fun _ heq ↦ absurd heq.symm hcurrent]
      rcases List.mem_cons.1 hg with rfl | hg
      · by_cases hsize : s.1.regs.rsi = 0
        · obtain ⟨hlow, hhigh⟩ := hholds.1
          simp only [hsize, Nat.zero_mul, Nat.add_zero] at hhigh
          exact absurd hlow (not_le.2 hhigh)
        · have hpair : SharePgd s c i := h.sharePgd hlive hold (by rw [← hc]; exact hspace.symm)
          exact absurd (hexclusive ⟨mode, hsize, Or.inl ⟨asked, seg, grows⟩⟩ c i hc hpair) fun heq ↦
            hcurrent (heq ▸ hc)
      · exact hbacked g hg i hold hspace addr hholds
  | give_back seg nextFree mode asked growing next_eq grants_eq mms_eq =>
    obtain ⟨c, hc, hlive, hctx⟩ := h.current mode
    have hmoves : ¬ KeepsSegments event s.1 := fun hkeeps ↦ hkeeps.2 asked
    have hold := h.live_of_past hi hpast fun hclone ↦ Syscall.noConfusion (asked.inj hclone)
    rw [Kin.old_space hold] at hspace
    rw [grants_eq] at hg
    obtain ⟨g₀, hg₀, rfl⟩ := List.mem_map.1 hg
    obtain ⟨hholds₀, hkept⟩ := hholds.of_giveBack
    rw [giveBack_space] at hspace
    have hback := hbacked g₀ hg₀ i hold hspace addr hholds₀
    by_cases hcurrent : s.1.current = some i
    · obtain rfl := Option.some.inj (hc.symm.trans hcurrent)
      rw [resized_ctx mode hmoves hc, mms_eq]
      rw [← hctx] at hback
      refine hback.setNext fun hlt ↦ ?_
      by_contra hhigh
      refine hkept (hspace.symm.trans (congrArg s.2.space hc.symm)) ⟨not_lt.1 hhigh, ?_⟩
      rwa [next_eq]
    · rw [h.old_mms event hold fun _ heq ↦ absurd heq.symm hcurrent]
      exact hback

/-- The free part of a segment is backed by no segment. -/
theorem ContextOk.not_backed {ctx : ExecContext} (h : ContextOk ctx) {size flags addr : ℕ} {seg : MmSeg}
    (hgrows : Grows ctx size flags seg) (haddr : InPages (ctx.mms seg).nextFree size addr) : ¬ Backed ctx.mms addr := by
  obtain ⟨hlow, hhigh⟩ := haddr
  have hfits := (h.grown hgrows).2.1
  have hdata : (ctx.mms .data).start = dataStart := h.start_eq .data
  have hrodata : (ctx.mms .rodata).stop = dataStart - 1 := h.stop_eq .rodata
  have hnext := h.rodata_next.2.1
  have hdataNext := h.data_next.1
  rintro ⟨other, hgrowing, hlow', hhigh'⟩
  simp only [dataStart] at *
  rcases hgrows.growing with rfl | rfl
  · rcases hgrowing with rfl | rfl <;> omega
  · rcases hgrowing with rfl | rfl <;> omega

/-- What is granted anew was not granted before, as long as each bound is moved by a context alone. -/
theorem Kin.noOverlap_step (h : Kin s) (hbacked : GrantsBacked s) (hnone : NoOverlap s) (event : Event) :
    NoOverlap (observe event s) := by
  unfold NoOverlap at *
  cases h.dealt event with
  | none _ grants_eq =>
    rw [grants_eq]
    exact hnone
  | grant seg mode _ grows grants_eq _ =>
    obtain ⟨c, hc, hlive, hctx⟩ := h.current mode
    rw [grants_eq]
    refine hnone.cons fun g hg hspace addr hholds hholds' ↦ ?_
    simp only at hspace
    have hback := hbacked g hg c hlive (hc ▸ hspace) addr hholds'
    rw [← hctx] at hback
    exact (h.contexts.current h.table mode).not_backed grows hholds.1 hback
  | give_back seg nextFree mode _ _ _ grants_eq _ =>
    rw [grants_eq, List.pairwise_map]
    apply hnone.imp
    intro g g' hpair hspace addr hholds hholds'
    rw [giveBack_space, giveBack_space] at hspace
    exact hpair hspace addr hholds.of_giveBack.1 hholds'.of_giveBack.1

theorem kin_boot (phys : PhysMem) (apicBase : ApicBase) (wp : Bool) (null : ExecContext) :
    Kin (boot phys apicBase wp null, .start) := by
  have htable := table_boot phys apicBase wp null
  have hnone := (htable.empty rfl).2
  exact ⟨htable, fun i hi ↦ absurd hi (hnone i), fun i hi ↦ absurd hi (hnone i), fun g hg ↦
    absurd hg (List.not_mem_nil), fun i j hi ↦ absurd hi (hnone i)⟩

theorem agree_boot (phys : PhysMem) (apicBase : ApicBase) (wp : Bool) (null : ExecContext) :
    Agree (boot phys apicBase wp null, .start) := fun i _ hshares ↦
  absurd hshares.left (((table_boot phys apicBase wp null).empty rfl).2 i)

/-- Along a run, the threads of each address space agree on their segments, and no address is granted to an address
space twice, exactly when each bound is moved by a context while no other shares its page table. -/
theorem forall_agree_iff (phys : PhysMem) (apicBase : ApicBase) (wp : Bool) (null : ExecContext) (events : List Event) :
    (∀ before later, events = before ++ later →
        Agree (run observe (boot phys apicBase wp null, .start) before) ∧
          NoOverlap (run observe (boot phys apicBase wp null, .start) before)) ↔
      Along observe Exclusive (boot phys apicBase wp null, .start) events := by
  have hkin := kin_boot phys apicBase wp null
  have hagree := agree_boot phys apicBase wp null
  have hbacked : GrantsBacked (boot phys apicBase wp null, .start) := fun g hg ↦ absurd hg List.not_mem_nil
  have hnone : NoOverlap (boot phys apicBase wp null, .start) := List.Pairwise.nil
  generalize boot phys apicBase wp null = k at *
  constructor
  · intro h
    exact (agree_iff_exclusive hkin hagree events).1 fun before later hsplit ↦ (h before later hsplit).1
  · rintro h before later rfl
    have hinvariant := h.of_append.1.invariant (I := fun s ↦ Kin s ∧ Agree s ∧ GrantsBacked s ∧ NoOverlap s)
      ⟨hkin, hagree, hbacked, hnone⟩ fun s event ⟨hkin, hagree, hbacked, hnone⟩ hexclusive ↦
        ⟨hkin.step event, hkin.agree_step hagree hexclusive, hkin.backed_step hbacked hexclusive,
          hkin.noOverlap_step hbacked hnone event⟩
    exact ⟨hinvariant.2.1, hinvariant.2.2.2⟩

/-- The observers see the same as long as there is no stray store; by induction on the run. -/
theorem agree_observe {s : Kernel × Threads} {events : List Event} (hsafe : NoStrayStores s.1 events) :
    Along observeFull (fun s event ↦ observeFull event s = observe event s) s events := by
  induction events generalizing s with
  | nil => exact .nil s
  | cons event events ih =>
    obtain ⟨hhere, hrest⟩ := along_cons_iff.1 hsafe
    have hsame := fullStep_eq hhere
    exact .cons (congrArg (fun k' ↦ (k', Threads.see event s.1 k' s.2)) hsame) (ih hrest)

/-- Init makes a thread and expands its DATA segment. -/
def oneExpand : List Event := launchInit :: (callEvents 9 codeStart stackStart ++ callEvents 4 1 1)

/-- After the next tick the thread expands its own, too. -/
def twoExpands : List Event := oneExpand ++ .tick :: callEvents 4 1 1

end GemOS
