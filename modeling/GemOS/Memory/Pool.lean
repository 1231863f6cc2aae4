import GemOS.Foundation.Runs
import GemOS.Memory.Nodes

/-!
# The node pool over whole histories

`node_alloc` looks for a node with a null link, from a cursor on and then from the start of the pool. A node that is in
no list has a null link, but so has the last node of a list to which more than one was added, and the head sentinel
after that node was taken out. While the cursor moves over fresh nodes this does no harm; once it has come to the end of
the pool, the search may stop at a node in use, and what lies behind the pool is read as a node. The counter of free
nodes starts at the nodes of 99 pages, although the pool has 100.
-/

namespace GemOS

open Foundation

namespace NodeMemory

/-- The second loop of `node_alloc`: on while the link is not null. -/
inductive Skips (nodes : ℕ → Node) : ℕ → ℕ → Prop
  | stop {n : ℕ} (free : (nodes n).link = none) : Skips nodes n n
  | next {n last : ℕ} (taken : (nodes n).link ≠ none) (rest : Skips nodes (n + 1) last) : Skips nodes n last

/-- The first loop of `node_alloc`, which ends at the end of the pool as well. -/
inductive SkipsInside (nodes : ℕ → Node) : ℕ → ℕ → Prop
  | stop {n : ℕ} (free : (nodes n).link = none) : SkipsInside nodes n n
  | leave {n : ℕ} (taken : (nodes n).link ≠ none) (past : poolNodes ≤ n + 1) : SkipsInside nodes n (n + 1)
  | next {n last : ℕ} (taken : (nodes n).link ≠ none) (inside : n + 1 < poolNodes)
      (rest : SkipsInside nodes (n + 1) last) : SkipsInside nodes n last

/-- The loops of `node_alloc` end, at this node. -/
inductive Settles (nm : NodeMemory) : ℕ → Prop
  | here (free : (nm.nodes nm.nextFree).link = none) : Settles nm nm.nextFree
  | ahead {n : ℕ} (taken : (nm.nodes nm.nextFree).link ≠ none) (loop : SkipsInside nm.nodes nm.nextFree n)
      (inside : n < poolNodes) : Settles nm n
  | wrapped {n past : ℕ} (taken : (nm.nodes nm.nextFree).link ≠ none) (loop : SkipsInside nm.nodes nm.nextFree past)
      (outside : poolNodes ≤ past) (again : Skips nm.nodes 0 n) : Settles nm n

/-- `node_alloc` returns a node of the pool that is not handed out, or `NULL` when all are. -/
def Grants (nm : NodeMemory) : Prop :=
  (nm.numFree = 0 ∧ ∀ n < poolNodes, n ∈ nm.used) ∨
    (nm.numFree ≠ 0 ∧ ∃ n, Settles nm n ∧ n < poolNodes ∧ n ∉ nm.used)

/-- On the way from the cursor to `goal`, round the end of the pool if need be. -/
def Passed (cursor n goal : ℕ) : Prop := if cursor ≤ goal then cursor ≤ n ∧ n < goal else cursor ≤ n ∨ n < goal

/-- A node is counted free, nothing behind the pool passes for a free node, and some node with a null link that is not
handed out comes before all nodes in use that have one. -/
structure Clear (nm : NodeMemory) : Prop where
  counted : nm.numFree ≠ 0
  behind : nm.nextFree < poolNodes ∨ (nm.nodes nm.nextFree).link ≠ none
  reached : ∃ goal < poolNodes, goal ∉ nm.used ∧ (nm.nodes goal).link = none ∧
    ∀ n ∈ nm.used, Passed nm.nextFree n goal → (nm.nodes n).link ≠ none

/-- The nodes handed out are nodes of the pool, as many as the counter is short of. -/
structure Stocked (nm : NodeMemory) : Prop where
  inside : ∀ n ∈ nm.used, n < poolNodes
  count : nm.used.card + nm.numFree = (nodeMemPages - 1) * (pageSize / 16)

variable {nm nm' : NodeMemory} {nodes : ℕ → Node} {n m last : ℕ} {l : NodeList}

theorem skips_iff : Skips nodes n last ↔
    n ≤ last ∧ (∀ i, n ≤ i → i < last → (nodes i).link ≠ none) ∧ (nodes last).link = none := by
  constructor
  · intro h
    induction h with
    | stop free => exact ⟨le_rfl, fun i hle hlt ↦ absurd hle (not_le.2 hlt), free⟩
    | next taken _ ih =>
      refine ⟨by omega, fun i hle hlt ↦ ?_, ih.2.2⟩
      rcases eq_or_lt_of_le hle with rfl | hlow
      · exact taken
      · exact ih.2.1 i hlow hlt
  · rintro ⟨hle, htaken, hfree⟩
    obtain ⟨d, rfl⟩ := Nat.exists_eq_add_of_le hle
    induction d generalizing n with
    | zero => exact .stop hfree
    | succ d ih =>
      refine .next (htaken n le_rfl (by omega)) ?_
      rw [show n + (d + 1) = n + 1 + d by omega] at *
      exact ih (by omega) (fun i hlow hhigh ↦ htaken i (by omega) hhigh) hfree

/-- From a node of the pool, the first loop ends at the first null link or at the end of the pool. -/
theorem skipsInside_iff (hn : n < poolNodes) : SkipsInside nodes n last ↔
    n ≤ last ∧ last ≤ poolNodes ∧ (∀ i, n ≤ i → i < last → (nodes i).link ≠ none) ∧
      (last < poolNodes → (nodes last).link = none) := by
  constructor
  · intro h
    induction h with
    | stop free => exact ⟨le_rfl, hn.le, fun i hle hlt ↦ absurd hle (not_le.2 hlt), fun _ ↦ free⟩
    | @leave n taken past =>
      refine ⟨by omega, hn, fun i hle hlt ↦ ?_, fun hlt ↦ absurd hlt (not_lt.2 past)⟩
      obtain rfl : i = n := by omega
      exact taken
    | next taken inside _ ih =>
      obtain ⟨hle, hend, htaken, hfree⟩ := ih inside
      refine ⟨by omega, hend, fun i hlow hhigh ↦ ?_, hfree⟩
      rcases eq_or_lt_of_le hlow with rfl | hlt
      · exact taken
      · exact htaken i hlt hhigh
  · rintro ⟨hle, hend, htaken, hfree⟩
    obtain ⟨d, rfl⟩ := Nat.exists_eq_add_of_le hle
    induction d generalizing n with
    | zero => exact .stop (hfree hn)
    | succ d ih =>
      rw [show n + (d + 1) = n + 1 + d by omega] at *
      by_cases hin : n + 1 < poolNodes
      · exact .next (htaken n le_rfl (by omega)) hin
          (ih hin (by omega) hend (fun i hlow hhigh ↦ htaken i (by omega) hhigh) hfree)
      · obtain rfl : d = 0 := by omega
        exact .leave (htaken n le_rfl (by omega)) (by omega)

theorem skipUsed_eq {fuel : ℕ} (hle : n ≤ m) (hend : m ≤ n + fuel)
    (htaken : ∀ i, n ≤ i → i < m → (nodes i).link ≠ none) (hfree : m < n + fuel → (nodes m).link = none) :
    skipUsed nodes fuel n = m := by
  induction fuel generalizing n with
  | zero =>
    rw [skipUsed]
    omega
  | succ fuel ih =>
    rw [skipUsed]
    rcases eq_or_lt_of_le hle with rfl | hlt
    · rw [hfree (by omega)]
      rfl
    · rw [if_pos (Option.isSome_iff_ne_none.2 (htaken n le_rfl hlt))]
      exact ih hlt (by omega) (fun i hlow hhigh ↦ htaken i (by omega) hhigh) fun hlast ↦ hfree (by omega)

/-- The loops end at the node that `search` computes. -/
theorem Settles.search_eq (h : Settles nm n) (hn : n < poolNodes) : nm.search = n := by
  unfold search
  cases h with
  | here free => rw [free]; rfl
  | ahead taken loop inside =>
    have htaken : ¬ (nm.nodes nm.nextFree).link.isNone = true := fun hnone ↦ taken (Option.isNone_iff_eq_none.1 hnone)
    have hcursor : nm.nextFree < poolNodes := by
      cases loop with
      | stop => exact inside
      | leave _ past => exact absurd inside (not_lt.2 past)
      | next _ hin _ => omega
    obtain ⟨hle, hend, hpassed, hfree⟩ := (skipsInside_iff hcursor).1 loop
    have hskip : skipUsed nm.nodes (poolNodes - nm.nextFree) nm.nextFree = n :=
      skipUsed_eq hle (by omega) hpassed fun _ ↦ hfree hn
    rw [if_neg htaken, hskip]
    exact if_neg (not_le.2 hn)
  | @wrapped _ past taken loop outside again =>
    have htaken : ¬ (nm.nodes nm.nextFree).link.isNone = true := fun hnone ↦ taken (Option.isNone_iff_eq_none.1 hnone)
    have hskip : skipUsed nm.nodes (poolNodes - nm.nextFree) nm.nextFree ≥ poolNodes := by
      by_cases hcursor : nm.nextFree < poolNodes
      · obtain ⟨hle, hend, hpassed, -⟩ := (skipsInside_iff hcursor).1 loop
        obtain rfl : past = poolNodes := by omega
        exact (skipUsed_eq hle (by omega) hpassed fun hlt ↦ by omega).ge
      · rw [show poolNodes - nm.nextFree = 0 by omega]
        exact not_lt.1 hcursor
    obtain ⟨-, hpassed, hfree⟩ := skips_iff.1 again
    rw [if_neg htaken]
    simp only [if_pos hskip]
    exact skipUsed_eq (Nat.zero_le n) (by omega) hpassed fun _ ↦ hfree

/-- In the pool, the loops end at a null link. -/
theorem Settles.free (h : Settles nm n) (hn : n < poolNodes) : (nm.nodes n).link = none := by
  cases h with
  | here free => exact free
  | ahead taken loop inside =>
    have hcursor : nm.nextFree < poolNodes := by
      cases loop with
      | stop => exact inside
      | leave _ past => exact absurd inside (not_lt.2 past)
      | next _ hin _ => omega
    exact ((skipsInside_iff hcursor).1 loop).2.2.2 hn
  | wrapped taken loop outside again => exact (skips_iff.1 again).2.2

/-- The first free node from the cursor on. -/
theorem exists_first {P : ℕ → Prop} {low goal : ℕ} (hle : low ≤ goal) (hgoal : P goal) :
    ∃ m, low ≤ m ∧ m ≤ goal ∧ P m ∧ ∀ i, low ≤ i → i < m → ¬ P i := by
  classical
  have hex : ∃ m, low ≤ m ∧ P m := ⟨goal, hle, hgoal⟩
  refine ⟨Nat.find hex, (Nat.find_spec hex).1, Nat.find_min' hex ⟨hle, hgoal⟩, (Nat.find_spec hex).2,
    fun i hlow hlt hi ↦ ?_⟩
  exact Nat.find_min hex hlt ⟨hlow, hi⟩

/-- A free node at or behind the cursor. -/
theorem settles_ahead (hlow : nm.nextFree ≤ n) (hn : n < poolNodes) (hfree : (nm.nodes n).link = none)
    (htaken : ∀ i, nm.nextFree ≤ i → i < n → (nm.nodes i).link ≠ none) : Settles nm n := by
  rcases eq_or_lt_of_le hlow with heq | hlt
  · rw [← heq] at hfree ⊢
    exact .here hfree
  · exact .ahead (htaken _ le_rfl hlt) ((skipsInside_iff (by omega)).2 ⟨hlow, hn.le, htaken, fun _ ↦ hfree⟩) hn

/-- A free node found from the start of the pool. -/
theorem settles_wrapped (hbehind : nm.nextFree < poolNodes ∨ (nm.nodes nm.nextFree).link ≠ none)
    (hrest : ∀ i, nm.nextFree ≤ i → i < poolNodes → (nm.nodes i).link ≠ none) (hfree : (nm.nodes n).link = none)
    (htaken : ∀ i, i < n → (nm.nodes i).link ≠ none) : Settles nm n := by
  have hagain : Skips nm.nodes 0 n := skips_iff.2 ⟨Nat.zero_le n, fun i _ ↦ htaken i, hfree⟩
  by_cases hcursor : nm.nextFree < poolNodes
  · have hloop : SkipsInside nm.nodes nm.nextFree poolNodes :=
      (skipsInside_iff hcursor).2 ⟨hcursor.le, le_rfl, hrest, fun hlt ↦ absurd hlt (lt_irrefl _)⟩
    exact .wrapped (hrest _ le_rfl hcursor) hloop le_rfl hagain
  · have htaken' := hbehind.resolve_left hcursor
    exact .wrapped htaken' (.leave htaken' (by omega)) (by omega) hagain

/-- Of a pool that is stocked, `node_alloc` returns a node that is not handed out exactly when the way to one is
clear. -/
theorem Stocked.grants_iff (h : Stocked nm) : Grants nm ↔ Clear nm := by
  constructor
  · rintro (⟨hzero, hall⟩ | ⟨hcounted, n, hsettles, hn, hfresh⟩)
    · -- as many nodes as the counter starts with, one page short of the pool
      have hsub : Finset.range poolNodes ⊆ nm.used := fun n hn ↦ hall n (Finset.mem_range.1 hn)
      have hcard := Finset.card_le_card hsub
      have hcount := h.count
      rw [hzero, add_zero] at hcount
      rw [Finset.card_range, hcount] at hcard
      exact absurd hcard (by decide)
    · have hfree := hsettles.free hn
      refine ⟨hcounted, ?_, n, hn, hfresh, hfree, fun i hi hpassed ↦ ?_⟩
      · cases hsettles with
        | here => exact Or.inl hn
        | ahead taken => exact Or.inr taken
        | wrapped taken => exact Or.inr taken
      · unfold Passed at hpassed
        cases hsettles with
        | here =>
          rw [if_pos le_rfl] at hpassed
          omega
        | ahead taken loop inside =>
          have hcursor : nm.nextFree < poolNodes := by
            cases loop with
            | stop => exact inside
            | leave _ past => exact absurd inside (not_lt.2 past)
            | next _ hin _ => omega
          obtain ⟨hle, -, htaken, -⟩ := (skipsInside_iff hcursor).1 loop
          rw [if_pos hle] at hpassed
          exact htaken i hpassed.1 hpassed.2
        | @wrapped _ past taken loop outside again =>
          obtain ⟨-, hagain, -⟩ := skips_iff.1 again
          have hrest : ∀ j, nm.nextFree ≤ j → j < poolNodes → (nm.nodes j).link ≠ none := by
            intro j hlow hhigh
            obtain ⟨-, hend, htaken, -⟩ := (skipsInside_iff (lt_of_le_of_lt hlow hhigh)).1 loop
            exact htaken j hlow (by omega)
          have hlt : n < nm.nextFree := by
            by_contra hle
            exact hrest n (not_lt.1 hle) hn hfree
          rw [if_neg (not_le.2 hlt)] at hpassed
          rcases hpassed with hlow | hlow
          · exact hrest i hlow (h.inside i hi)
          · exact hagain i (Nat.zero_le i) hlow
  · rintro ⟨hcounted, hbehind, goal, hgoal, hunused, hfreeGoal, hclear⟩
    -- a node passed on the way that has a null link is not in use either
    have hfresh : ∀ i, (nm.nodes i).link = none → (i = goal ∨ Passed nm.nextFree i goal) → i ∉ nm.used := by
      rintro i hfree (rfl | hpassed) hi
      · exact hunused hi
      · exact hclear i hi hpassed hfree
    refine Or.inr ⟨hcounted, ?_⟩
    by_cases hle : nm.nextFree ≤ goal
    · obtain ⟨m, hlow, hhigh, hfree, hfirst⟩ := exists_first (P := fun i ↦ (nm.nodes i).link = none) hle hfreeGoal
      refine ⟨m, settles_ahead hlow (by omega) hfree hfirst, by omega, hfresh m hfree ?_⟩
      unfold Passed
      rw [if_pos hle]
      omega
    · by_cases hrest : ∃ i, nm.nextFree ≤ i ∧ i < poolNodes ∧ (nm.nodes i).link = none
      · obtain ⟨j, hlowj, hj, hfreej⟩ := hrest
        obtain ⟨m, hlow, hhigh, hfree, hfirst⟩ := exists_first (P := fun i ↦ (nm.nodes i).link = none) hlowj hfreej
        refine ⟨m, settles_ahead hlow (by omega) hfree hfirst, by omega, hfresh m hfree (Or.inr ?_)⟩
        unfold Passed
        rw [if_neg hle]
        exact Or.inl hlow
      · push Not at hrest
        obtain ⟨m, -, hhigh, hfree, hfirst⟩ :=
          exists_first (P := fun i ↦ (nm.nodes i).link = none) (Nat.zero_le goal) hfreeGoal
        refine ⟨m, settles_wrapped hbehind hrest hfree fun i ↦ hfirst i (Nat.zero_le i), by omega, hfresh m hfree ?_⟩
        unfold Passed
        rw [if_neg hle]
        omega

/-- A node handed out, and one written that is handed out, leave the pool stocked. -/
theorem Stocked.alloc (h : Stocked nm) (hgrants : Grants nm) :
    ∃ n, nm.nodeAlloc = (some n, nm.nodeAlloc.2) ∧ n ∉ nm.used ∧ Stocked nm.nodeAlloc.2 ∧
      nm.nodeAlloc.2.nodes = nm.nodes ∧ nm.nodeAlloc.2.used = insert n nm.used ∧
      nm.nodeAlloc.2.ranOut = nm.ranOut := by
  obtain ⟨hcounted, -, -⟩ := h.grants_iff.1 hgrants
  rcases hgrants with ⟨hzero, -⟩ | ⟨-, n, hsettles, hn, hfresh⟩
  · exact absurd hzero hcounted
  · have hsearch := hsettles.search_eq hn
    unfold nodeAlloc
    rw [if_neg hcounted, hsearch]
    refine ⟨n, rfl, hfresh, ⟨fun i hi ↦ ?_, ?_⟩, rfl, rfl, ?_⟩
    · rcases Finset.mem_insert.1 hi with rfl | hold
      · exact hn
      · exact h.inside i hold
    · have hcount := h.count
      change (insert n nm.used).card + (nm.numFree - 1) = _
      rw [Finset.card_insert_of_notMem hfresh]
      omega
    · have hnot : ¬ (n ∈ nm.used ∨ poolNodes ≤ n) := fun hor ↦ hor.elim hfresh (not_le.2 hn)
      rw [decide_eq_false hnot, Bool.or_false]

theorem Stocked.setLink (h : Stocked nm) (node link : Option ℕ) : Stocked (nm.setLink node link) := by
  cases node with
  | none => exact h
  | some n => exact ⟨h.inside, h.count⟩

/-- The node just handed out gets its value and a null link. -/
def putItem (item n : ℕ) (nm : NodeMemory) : NodeMemory :=
  { nm with nodes := Function.update nm.nodes n ⟨item, none⟩ }

@[simp] theorem putItem_used (item n : ℕ) (nm : NodeMemory) : (nm.putItem item n).used = nm.used := rfl

@[simp] theorem putItem_ranOut (item n : ℕ) (nm : NodeMemory) : (nm.putItem item n).ranOut = nm.ranOut := rfl

/-- The links of the only node of a list. -/
def linkFirst (head tail : Option ℕ) (n : ℕ) (nm : NodeMemory) : NodeMemory :=
  ((nm.setLink head (some n)).setLink tail (some n)).setLink (some n) tail

/-- The links of one more node. -/
def linkLast (tail : Option ℕ) (n : ℕ) (nm : NodeMemory) : NodeMemory :=
  (nm.setLink (nm.link tail) (some n)).setLink tail (some n)

section Enqueue

variable {item : ℕ} (halloc : nm.nodeAlloc = (some n, nm'))

include halloc

theorem enqueueTail_behind (hsize : l.size ≠ 0) :
    enqueueTail item l nm = (⟨l.head, l.tail, l.size + 1⟩, linkLast l.tail n (nm'.putItem item n)) := by
  unfold enqueueTail
  rw [halloc]
  exact if_neg hsize

theorem enqueueTail_again (hsize : l.size = 0) {first : ℕ} (hhead : l.head = some first) :
    enqueueTail item l nm = (⟨l.head, l.tail, l.size + 1⟩, linkFirst l.head l.tail n (nm'.putItem item n)) := by
  unfold enqueueTail
  rw [halloc]
  simp only [if_pos hsize, hhead]
  rfl

theorem enqueueTail_start (hsize : l.size = 0) (hhead : l.head = none) {head tail : Option ℕ} {nm₁ nm₂ : NodeMemory}
    (hheadAlloc : (nm'.putItem item n).nodeAlloc = (head, nm₁)) (htailAlloc : nm₁.nodeAlloc = (tail, nm₂)) :
    enqueueTail item l nm = (⟨head, tail, l.size + 1⟩, linkFirst head tail n nm₂) := by
  unfold putItem at hheadAlloc
  unfold enqueueTail
  rw [halloc]
  simp only [if_pos hsize, hhead, hheadAlloc, htailAlloc]
  rfl

end Enqueue

theorem Stocked.putItem (h : Stocked nm) (item n : ℕ) : Stocked (nm.putItem item n) := ⟨h.inside, h.count⟩

/-- The states of the pool in which `enqueue_tail` calls `node_alloc`: for the node, and for the two sentinels of a list
that has none. -/
def allocations (nm : NodeMemory) (item : ℕ) (l : NodeList) : List NodeMemory :=
  match nm.nodeAlloc with
  | (none, _) => [nm]
  | (some n, after) =>
    nm :: if l.size = 0 ∧ l.head = none then [after.putItem item n, (after.putItem item n).nodeAlloc.2] else []

/-- `dequeue_front`, and `node_free` on the node it returns. -/
def takeFront (nm : NodeMemory) (l : NodeList) : NodeList × NodeMemory :=
  if l.size = 0 then (l, nm)
  else
    let front := dequeueFront l nm
    (front.2.1, front.2.2.nodeFree (front.1.getD 0))

/-- The nodes of a list that counts right. -/
def places (l : NodeList) : ℕ := l.head.toList.length + l.tail.toList.length + l.size

theorem Linked.cells_length (h : Linked nm l) : (nm.cells l).length = places l := by
  rw [cells, List.length_append, List.length_append, h.full, places]

/-- The list and the pool after `enqueue_tail` took nodes that were not handed out. -/
structure Enqueued (l : NodeList) (nm : NodeMemory) (l' : NodeList) (nm' : NodeMemory) (taken : Finset ℕ) : Prop where
  stocked : Stocked nm'
  ran_eq : nm'.ranOut = nm.ranOut
  fresh : Disjoint nm.used taken
  used_eq : nm'.used = nm.used ∪ taken
  places_eq : places l' = places l + taken.card

@[simp] theorem linkFirst_used (head tail : Option ℕ) (n : ℕ) (nm : NodeMemory) :
    (nm.linkFirst head tail n).used = nm.used := by simp [linkFirst]

@[simp] theorem linkFirst_ranOut (head tail : Option ℕ) (n : ℕ) (nm : NodeMemory) :
    (nm.linkFirst head tail n).ranOut = nm.ranOut := by simp [linkFirst]

@[simp] theorem linkLast_used (tail : Option ℕ) (n : ℕ) (nm : NodeMemory) : (nm.linkLast tail n).used = nm.used := by
  simp [linkLast]

@[simp] theorem linkLast_ranOut (tail : Option ℕ) (n : ℕ) (nm : NodeMemory) :
    (nm.linkLast tail n).ranOut = nm.ranOut := by simp [linkLast]

theorem Stocked.linkFirst (h : Stocked nm) (head tail : Option ℕ) (n : ℕ) : Stocked (nm.linkFirst head tail n) :=
  ((h.setLink _ _).setLink _ _).setLink _ _

theorem Stocked.linkLast (h : Stocked nm) (tail : Option ℕ) (n : ℕ) : Stocked (nm.linkLast tail n) :=
  (h.setLink _ _).setLink _ _

/-- `enqueue_tail` when its calls of `node_alloc` return nodes that are not handed out. -/
theorem Stocked.enqueue (h : Stocked nm) (hlinked : Linked nm l) {item : ℕ}
    (hgrants : ∀ nm₁ ∈ nm.allocations item l, Grants nm₁) :
    ∃ taken, Enqueued l nm (enqueueTail item l nm).1 (enqueueTail item l nm).2 taken := by
  have hhere : Grants nm := hgrants nm (by unfold allocations; split <;> simp)
  obtain ⟨n, halloc, hfresh, hstocked, -, hused, hran⟩ := h.alloc hhere
  unfold allocations at hgrants
  rw [halloc] at hgrants
  generalize nm.nodeAlloc.2 = nm₁ at *
  have hput : Stocked (nm₁.putItem item n) := hstocked.putItem item n
  have hone : Disjoint nm.used {n} := Finset.disjoint_singleton_right.2 hfresh
  have hunion : nm₁.used = nm.used ∪ {n} := by rw [hused, Finset.insert_eq, Finset.union_comm]
  have hplaces : ∀ (head tail : Option ℕ) (size : ℕ), places ⟨head, tail, size⟩ =
      head.toList.length + tail.toList.length + size := fun _ _ _ ↦ rfl
  by_cases hsize : l.size = 0
  · cases hhead : l.head with
    | some first =>
      rw [enqueueTail_again halloc hsize hhead]
      refine ⟨{n}, hput.linkFirst _ _ n, by simpa using hran, hone, by simpa using hunion, ?_⟩
      rw [hplaces, places, Finset.card_singleton]
      omega
    | none =>
      have hcalls : ∀ nm' ∈ [nm, nm₁.putItem item n, (nm₁.putItem item n).nodeAlloc.2], Grants nm' := by
        simpa only [if_pos (And.intro hsize hhead)] using hgrants
      obtain ⟨head, hallocHead, hfreshHead, hstockedHead, -, husedHead, hranHead⟩ := hput.alloc (hcalls _ (by simp))
      obtain ⟨tail, hallocTail, hfreshTail, hstockedTail, -, husedTail, hranTail⟩ :=
        hstockedHead.alloc (hcalls _ (by simp))
      rw [enqueueTail_start halloc hsize hhead hallocHead hallocTail]
      generalize (nm₁.putItem item n).nodeAlloc.2 = nm₂ at *
      generalize nm₂.nodeAlloc.2 = nm₃ at *
      rw [putItem_used] at hfreshHead husedHead
      have hall : nm₃.used = insert tail (insert head (insert n nm.used)) := by rw [husedTail, husedHead, hused]
      rw [husedHead, hused] at hfreshTail
      rw [hused] at hfreshHead
      simp only [Finset.mem_insert, not_or] at hfreshHead hfreshTail
      refine ⟨{tail, head, n}, hstockedTail.linkFirst _ _ n, ?_, ?_, ?_, ?_⟩
      · rw [linkFirst_ranOut, hranTail, hranHead, putItem_ranOut, hran]
      · simp [hfresh, hfreshHead, hfreshTail]
      · rw [linkFirst_used, hall]
        ext x
        simp only [Finset.mem_insert, Finset.mem_union, Finset.mem_singleton]
        tauto
      · have hsentinels := hlinked.sentinels
        rw [hhead] at hsentinels
        have hnone : l.tail = none := by simpa using hsentinels.symm
        rw [hplaces, places, hhead, hnone, hsize, Finset.card_insert_of_notMem (by simp [hfreshTail]),
          Finset.card_insert_of_notMem (by simp [hfreshHead]), Finset.card_singleton]
        rfl
  · rw [enqueueTail_behind halloc hsize]
    refine ⟨{n}, hput.linkLast _ n, by simpa using hran, hone, by simpa using hunion, ?_⟩
    rw [hplaces, places, Finset.card_singleton]
    omega

theorem Stocked.nodeFree (h : Stocked nm) (hn : n ∈ nm.used) : Stocked (nm.nodeFree n) where
  inside i hi := h.inside i (Finset.mem_of_mem_erase hi)
  count := by
    have hcount := h.count
    have hcard := Finset.card_erase_of_mem hn
    have hpos := Finset.card_pos.2 ⟨n, hn⟩
    change (nm.used.erase n).card + (nm.numFree + 1) = _
    omega

/-- The node that `dequeue_front` takes out of a list is one of its nodes. -/
theorem front_mem (hsize : l.size ≠ 0) (hfront : (dequeueFront l nm).1 = some n) : n ∈ nm.cells l := by
  obtain ⟨count, hcount⟩ := Nat.exists_eq_succ_of_ne_zero hsize
  have hlink : nm.link l.head = some n := hfront
  have hchain : nm.chain l = n :: follow nm.nodes count (nm.nodes n).link := by rw [chain, hcount, hlink, follow]
  rw [mem_cells, hchain]
  exact Or.inr (Or.inr List.mem_cons_self)

/-- The nodes of a list in good order, as a set. -/
theorem Linked.card (h : Linked nm l) : (nm.cells l).toFinset.card = places l := by
  rw [List.toFinset_card_of_nodup h.nodup, h.cells_length]

/-- Each node handed out is a sentinel or an element of the new list, or was in use elsewhere. -/
def Accounted (nm nm' : NodeMemory) (l l' : NodeList) : Prop :=
  ∀ n, n ∈ nm'.used ↔ n ∈ nm'.cells l' ∨ n ∈ nm.used ∧ n ∉ nm.cells l

theorem Enqueued.accounted {l' : NodeList} {taken : Finset ℕ} (h : Enqueued l nm l' nm' taken) (hlinked : Linked nm l)
    (hmoves : Moves nm nm' l l') : Accounted nm nm' l l' := by
  have hsub : (nm'.cells l').toFinset ⊆ (nm.cells l).toFinset ∪ taken := by
    intro n hn
    have hn' := List.mem_toFinset.1 hn
    have hused := hmoves.linked.used n hn'
    rw [h.used_eq, Finset.mem_union] at hused
    rw [Finset.mem_union, List.mem_toFinset]
    rcases hmoves.cells_of n hn' with hold | hfresh
    · exact Or.inl hold
    · exact Or.inr (hused.resolve_left hfresh)
  have hcells : (nm'.cells l').toFinset = (nm.cells l).toFinset ∪ taken := by
    apply Finset.eq_of_subset_of_card_le hsub
    calc
      ((nm.cells l).toFinset ∪ taken).card ≤ (nm.cells l).toFinset.card + taken.card := Finset.card_union_le _ _
      _ = places l + taken.card := by rw [hlinked.card]
      _ = (nm'.cells l').toFinset.card := by rw [hmoves.linked.card, h.places_eq]
  intro n
  have hmem := congrArg (n ∈ ·) hcells
  simp only [Finset.mem_union, List.mem_toFinset, eq_iff_iff] at hmem
  rw [h.used_eq, Finset.mem_union, hmem]
  have hold := hlinked.used n
  tauto

/-- `dequeue_front` and `node_free`, from a list that is not empty. -/
theorem Stocked.takeFront (h : Stocked nm) (hlinked : Linked nm l) (hsize : l.size ≠ 0) :
    Stocked (nm.takeFront l).2 ∧ (nm.takeFront l).2.ranOut = nm.ranOut ∧
      Moves nm (nm.takeFront l).2 l (nm.takeFront l).1 ∧
      Accounted nm (nm.takeFront l).2 l (nm.takeFront l).1 := by
  obtain ⟨n, hfront, -, hmoves⟩ := dequeueFront_spec hlinked hsize
  have hcell := front_mem hsize hfront
  have hused := hlinked.used n hcell
  have htake : nm.takeFront l = ((dequeueFront l nm).2.1, (dequeueFront l nm).2.2.nodeFree n) := by
    unfold NodeMemory.takeFront
    rw [if_neg hsize]
    simp only [hfront, Option.getD_some]
  have hsame : (dequeueFront l nm).2.2 = nm.setLink l.head (nm.link (dequeueFront l nm).1) := rfl
  have hafter : ((dequeueFront l nm).2.2.nodeFree n).used = nm.used.erase n := by
    rw [hsame]
    change (nm.setLink _ _).used.erase n = _
    rw [setLink_used]
  rw [htake]
  refine ⟨?_, ?_, hmoves, fun x ↦ ?_⟩
  · rw [hsame]
    exact (h.setLink _ _).nodeFree (by simpa using hused)
  · rw [hsame]
    exact setLink_ranOut _ _ _
  · -- the list has one node less, and the node given back is none of its
    have hsub : (((dequeueFront l nm).2.2.nodeFree n).cells (dequeueFront l nm).2.1).toFinset ⊆
        (nm.cells l).toFinset.erase n := by
      intro y hy
      have hy' := List.mem_toFinset.1 hy
      have hyUsed := hmoves.linked.used y hy'
      rw [hafter, Finset.mem_erase] at hyUsed
      refine Finset.mem_erase.2 ⟨hyUsed.1, List.mem_toFinset.2 ?_⟩
      exact (hmoves.cells_of y hy').resolve_right fun hfresh ↦ hfresh hyUsed.2
    have hcells := Finset.eq_of_subset_of_card_le hsub (by
      rw [Finset.card_erase_of_mem (List.mem_toFinset.2 hcell), hlinked.card, hmoves.linked.card]
      change places l - 1 ≤ l.head.toList.length + l.tail.toList.length + (l.size - 1)
      rw [places]
      omega)
    have hmem := congrArg (x ∈ ·) hcells
    simp only [Finset.mem_erase, List.mem_toFinset, eq_iff_iff] at hmem
    rw [hafter, Finset.mem_erase, hmem]
    have hold := hlinked.used x
    by_cases hx : x = n
    · subst hx
      tauto
    · tauto

/-- The nodes of the other lists stay theirs. -/
theorem AllLinked.cells_eq {lists : ℕ → NodeList} (h : AllLinked nm lists) {k k' : ℕ} {l' : NodeList}
    (hmoves : Moves nm nm' (lists k) l') (hk : k' ≠ k) : nm'.cells (lists k') = nm.cells (lists k') := by
  have hframe := (h.linked k').frame fun n hn ↦ hmoves.frame n ((h.linked k').used n hn) (h.apart k' k hk n hn)
  rw [cells, hframe.2.1, ← cells]

/-- The nodes handed out are the nodes of the lists. -/
def InLists (nm : NodeMemory) (lists : ℕ → NodeList) : Prop := ∀ n, n ∈ nm.used ↔ ∃ k, n ∈ nm.cells (lists k)

theorem AllLinked.inLists {lists : ℕ → NodeList} (h : AllLinked nm lists) (hin : InLists nm lists) {k : ℕ}
    {l' : NodeList} (hmoves : Moves nm nm' (lists k) l') (haccounted : Accounted nm nm' (lists k) l') :
    InLists nm' (Function.update lists k l') := by
  intro n
  rw [haccounted n]
  constructor
  · rintro (hnew | ⟨hold, hnot⟩)
    · exact ⟨k, by rwa [Function.update_self]⟩
    · obtain ⟨k', hk'⟩ := (hin n).1 hold
      have hne : k' ≠ k := fun heq ↦ hnot (heq ▸ hk')
      exact ⟨k', by rwa [Function.update_of_ne hne, h.cells_eq hmoves hne]⟩
  · rintro ⟨k', hk'⟩
    by_cases hne : k' = k
    · rw [hne, Function.update_self] at hk'
      exact Or.inl hk'
    · rw [Function.update_of_ne hne, h.cells_eq hmoves hne] at hk'
      exact Or.inr ⟨(h.linked k').used n hk', h.apart k' k hne n hk'⟩

end NodeMemory

/-- A call of a client of the pool. -/
inductive ListCall where
  | enqueue (list item : ℕ)
  /-- `dequeue_front`, with `node_free` on the node it returns. -/
  | dequeue (list : ℕ)

/-- Any number of lists over one pool. -/
structure ListClient where
  nodes : NodeMemory
  lists : ℕ → NodeList

namespace ListClient

open NodeMemory

def step : ListCall → ListClient → ListClient
  | .enqueue list item, s =>
    let after := enqueueTail item (s.lists list) s.nodes
    ⟨after.2, Function.update s.lists list after.1⟩
  | .dequeue list, s =>
    let after := s.nodes.takeFront (s.lists list)
    ⟨after.2, Function.update s.lists list after.1⟩

/-- The states of the pool in which the call calls `node_alloc`. -/
def allocations (s : ListClient) : ListCall → List NodeMemory
  | .enqueue list item => s.nodes.allocations item (s.lists list)
  | .dequeue _ => []

/-- The pool after `init_nodealloc_memory`, over pages that hold anything, and empty lists. -/
def boot (nodes : ℕ → Node) : ListClient where
  nodes := { init with nodes := nodes }
  lists _ := initList

/-- The invariant of a pool that never handed out a node in use. -/
structure Ok (s : ListClient) : Prop where
  stocked : Stocked s.nodes
  ran_out : s.nodes.ranOut = false
  linked : AllLinked s.nodes s.lists
  in_lists : InLists s.nodes s.lists

/-- Every `node_alloc` of the call terminates and returns a node of the pool that is not handed out. -/
def Grants (s : ListClient) (c : ListCall) : Prop := ∀ nm ∈ s.allocations c, nm.Grants

/-- In every `node_alloc` of the call, the way to a node that is not handed out is clear. -/
def Clear (s : ListClient) (c : ListCall) : Prop := ∀ nm ∈ s.allocations c, nm.Clear

theorem ok_boot (nodes : ℕ → Node) : Ok (boot nodes) where
  stocked := ⟨fun n hn ↦ absurd hn (Finset.notMem_empty n), Nat.zero_add _⟩
  ran_out := rfl
  linked := ⟨fun _ ↦ ⟨rfl, List.nodup_nil, fun _ hn ↦ (List.not_mem_nil hn).elim, fun _ hn ↦ (nomatch hn), rfl⟩,
    fun _ _ _ _ hn ↦ (List.not_mem_nil hn).elim⟩
  in_lists n := ⟨fun hn ↦ absurd hn (Finset.notMem_empty n), fun ⟨_, hn⟩ ↦ (List.not_mem_nil hn).elim⟩

theorem Ok.step {s : ListClient} (h : s.Ok) (c : ListCall) (hgrants : s.Grants c) : (step c s).Ok := by
  cases c with
  | enqueue list item =>
    have hlinked := h.linked.linked list
    obtain ⟨taken, henqueued⟩ := h.stocked.enqueue hlinked hgrants
    have hran := henqueued.ran_eq.trans h.ran_out
    obtain ⟨hmoves, -, -⟩ := enqueueTail_spec hlinked hran
    exact ⟨henqueued.stocked, hran, (h.linked.move hmoves).1,
      h.linked.inLists h.in_lists hmoves (henqueued.accounted hlinked hmoves)⟩
  | dequeue list =>
    by_cases hsize : (s.lists list).size = 0
    · have hstay : ListClient.step (.dequeue list) s = s := by
        have htake : s.nodes.takeFront (s.lists list) = (s.lists list, s.nodes) := if_pos hsize
        simp only [ListClient.step, htake, Function.update_eq_self]
      rw [hstay]
      exact h
    · obtain ⟨hstocked, hran, hmoves, haccounted⟩ := h.stocked.takeFront (h.linked.linked list) hsize
      exact ⟨hstocked, hran.trans h.ran_out, (h.linked.move hmoves).1,
        h.linked.inLists h.in_lists hmoves haccounted⟩

/-- One call of `node_alloc` after the other. -/
theorem grants_iff_of_stocked {nm : NodeMemory} (h : Stocked nm) (item : ℕ) (l : NodeList) :
    (∀ nm' ∈ nm.allocations item l, nm'.Grants) ↔ ∀ nm' ∈ nm.allocations item l, nm'.Clear := by
  have hmem : nm ∈ nm.allocations item l := by unfold NodeMemory.allocations; split <;> simp
  by_cases hgrants : nm.Grants
  · obtain ⟨n, halloc, -, hstocked, -⟩ := h.alloc hgrants
    have hput : Stocked (nm.nodeAlloc.2.putItem item n) := hstocked.putItem item n
    unfold NodeMemory.allocations
    rw [halloc]
    generalize nm.nodeAlloc.2 = nm₁ at *
    by_cases hnone : l.size = 0 ∧ l.head = none
    · simp only [if_pos hnone, List.forall_mem_cons, h.grants_iff, hput.grants_iff]
      refine and_congr_right fun _ ↦ and_congr_right fun hclear ↦ ?_
      obtain ⟨-, -, -, hstocked₂, -⟩ := hput.alloc (hput.grants_iff.2 hclear)
      rw [hstocked₂.grants_iff]
      simp
    · simp only [if_neg hnone, List.forall_mem_cons, h.grants_iff]
      simp
  · exact iff_of_false (fun hall ↦ hgrants (hall nm hmem)) fun hall ↦ hgrants (h.grants_iff.2 (hall nm hmem))

theorem Ok.grants_iff {s : ListClient} (h : s.Ok) (c : ListCall) : s.Grants c ↔ s.Clear c := by
  cases c with
  | enqueue list item => exact grants_iff_of_stocked h.stocked item (s.lists list)
  | dequeue list => exact iff_of_true (fun _ hnm ↦ (List.not_mem_nil hnm).elim) fun _ hnm ↦ (List.not_mem_nil hnm).elim

/-- Over any sequence of calls on any number of lists, every `node_alloc` returns a node of the pool that is in no list
exactly when in every call the way to such a node is clear; and then the nodes handed out are those of the lists. -/
theorem grants_iff_clear (nodes : ℕ → Node) (calls : List ListCall) :
    (Along step Grants (boot nodes) calls ↔ Along step Clear (boot nodes) calls) ∧
      (Along step Clear (boot nodes) calls →
        InLists (run step (boot nodes) calls).nodes (run step (boot nodes) calls).lists) := by
  have hiff : Along step Grants (boot nodes) calls ↔ Along step Clear (boot nodes) calls :=
    along_congr calls (ok_boot nodes) (fun _ c h ↦ h.grants_iff c) fun _ c h ↦ h.step c
  refine ⟨hiff, fun hclear ↦ ?_⟩
  exact ((hiff.2 hclear).invariant (ok_boot nodes) fun _ c h ↦ h.step c).in_lists

end ListClient

namespace NodeMemory

variable {c : ℕ}

/-- The nodes before the cursor are handed out, those from the cursor on have null links. -/
structure FreshFrom (c : ℕ) (nm : NodeMemory) : Prop where
  cursor : nm.nextFree = c
  count : nm.numFree + c = (nodeMemPages - 1) * (pageSize / 16)
  used_eq : nm.used = Finset.range c
  free : ∀ n < poolNodes, c ≤ n → (nm.nodes n).link = none

theorem FreshFrom.alloc (h : FreshFrom c nm) (hcount : c < (nodeMemPages - 1) * (pageSize / 16)) :
    nm.nodeAlloc = (some c, nm.nodeAlloc.2) ∧ FreshFrom (c + 1) nm.nodeAlloc.2 ∧ nm.nodeAlloc.2.nodes = nm.nodes := by
  have hsum := h.count
  have hbound : (nodeMemPages - 1) * (pageSize / 16) < poolNodes := by decide
  have hfree := h.free c (hcount.trans hbound) le_rfl
  have hsearch : nm.search = c := by
    unfold search
    rw [h.cursor, hfree]
    rfl
  unfold nodeAlloc
  rw [if_neg (by omega), hsearch]
  refine ⟨rfl, ⟨rfl, ?_, ?_, fun n hn hle ↦ h.free n hn (by omega)⟩, rfl⟩
  · change nm.numFree - 1 + (c + 1) = _
    omega
  · rw [h.used_eq, Finset.range_add_one]

theorem FreshFrom.grants (h : FreshFrom c nm) (hcount : c < (nodeMemPages - 1) * (pageSize / 16)) : Grants nm := by
  have hsum := h.count
  have hbound : (nodeMemPages - 1) * (pageSize / 16) < poolNodes := by decide
  have hfree := h.free c (hcount.trans hbound) le_rfl
  rw [← h.cursor] at hfree
  refine Or.inr ⟨by omega, nm.nextFree, .here hfree, ?_, ?_⟩
  · rw [h.cursor]
    omega
  · rw [h.used_eq, h.cursor, Finset.mem_range]
    exact lt_irrefl c

theorem FreshFrom.of_nodes (h : FreshFrom c nm) (hcursor : nm'.nextFree = nm.nextFree)
    (hcount : nm'.numFree = nm.numFree)
    (hused : nm'.used = nm.used) (hnodes : ∀ n, c ≤ n → nm'.nodes n = nm.nodes n) : FreshFrom c nm' where
  cursor := hcursor.trans h.cursor
  count := hcount ▸ h.count
  used_eq := hused.trans h.used_eq
  free n hn hle := by
    rw [hnodes n hle]
    exact h.free n hn hle

theorem FreshFrom.setLink (h : FreshFrom c nm) (hn : n < c) (link : Option ℕ) :
    FreshFrom c (nm.setLink (some n) link) :=
  h.of_nodes rfl rfl rfl fun i hi ↦ Function.update_of_ne (by omega) _ _

theorem FreshFrom.putItem (h : FreshFrom c nm) (hn : n < c) (item : ℕ) : FreshFrom c (nm.putItem item n) :=
  h.of_nodes rfl rfl rfl fun i hi ↦ Function.update_of_ne (by omega) _ _

end NodeMemory

namespace ListClient

open NodeMemory

/-- One list, to which nothing but `enqueue_tail` was applied, holds all nodes handed out. -/
structure Filling (count : ℕ) (s : ListClient) : Prop where
  fresh : FreshFrom (count + 2) s.nodes
  list_eq : s.lists 0 = ⟨some 1, some 2, count⟩
  last : ∃ m < count + 2, (s.nodes.nodes 2).link = some m

/-- The pool over zeroed pages, with zeros behind it. -/
def zeroed : ListClient := boot fun _ ↦ ⟨0, none⟩

theorem filling_first (item : ℕ) : Grants zeroed (.enqueue 0 item) ∧ Filling 1 (step (.enqueue 0 item) zeroed) := by
  have hbound : (nodeMemPages - 1) * (pageSize / 16) = 25344 := by decide
  have hboot : FreshFrom 0 zeroed.nodes := ⟨rfl, rfl, rfl, fun n hn _ ↦ rfl⟩
  obtain ⟨hnode, hfresh, -⟩ := hboot.alloc (by omega)
  have hput := hfresh.putItem (Nat.zero_lt_succ 0) item
  obtain ⟨hhead, hfresh₁, -⟩ := hput.alloc (by omega)
  obtain ⟨htail, hfresh₂, -⟩ := hfresh₁.alloc (by omega)
  have hgrants : Grants zeroed (.enqueue 0 item) := by
    change ∀ nm ∈ zeroed.nodes.allocations item initList, nm.Grants
    unfold NodeMemory.allocations
    rw [hnode]
    simp only [List.forall_mem_cons]
    refine ⟨hboot.grants (by omega), ?_⟩
    change ∀ nm ∈ [_, _], NodeMemory.Grants nm
    simp only [List.forall_mem_cons]
    exact ⟨hput.grants (by omega), hfresh₁.grants (by omega), fun _ hnm ↦ (List.not_mem_nil hnm).elim⟩
  refine ⟨hgrants, ?_⟩
  have henqueue : enqueueTail item initList zeroed.nodes = _ := enqueueTail_start hnode rfl rfl hhead htail
  have hstep : step (.enqueue 0 item) zeroed =
      ⟨(enqueueTail item initList zeroed.nodes).2,
        Function.update (fun _ ↦ initList) 0 (enqueueTail item initList zeroed.nodes).1⟩ := rfl
  rw [hstep, henqueue]
  generalize NodeMemory.nodeAlloc _ = third at *
  refine ⟨((hfresh₂.setLink (by decide) _).setLink (by decide) _).setLink (by decide) _, ?_, 0, by decide, ?_⟩
  · simp only [Function.update_self]
    rfl
  · simp only [linkFirst, setLink_some_nodes]
    rw [Function.update_of_ne (by decide), Function.update_self]

theorem Filling.step {count : ℕ} {s : ListClient} (h : Filling count s) (hpos : 1 ≤ count)
    (hcount : count + 2 < (nodeMemPages - 1) * (pageSize / 16)) (item : ℕ) :
    Filling (count + 1) (ListClient.step (.enqueue 0 item) s) := by
  obtain ⟨m, hm, hlast⟩ := h.last
  obtain ⟨hnode, hfresh, hnodes⟩ := h.fresh.alloc hcount
  have hsize : (s.lists 0).size ≠ 0 := by
    rw [h.list_eq]
    exact Nat.one_le_iff_ne_zero.1 hpos
  have henqueue : enqueueTail item (s.lists 0) s.nodes = _ := enqueueTail_behind hnode hsize
  rw [h.list_eq] at henqueue
  have hstep : ListClient.step (.enqueue 0 item) s =
      ⟨(enqueueTail item (s.lists 0) s.nodes).2,
        Function.update s.lists 0 (enqueueTail item (s.lists 0) s.nodes).1⟩ := rfl
  rw [hstep, h.list_eq, henqueue]
  have hput : FreshFrom (count + 1 + 2) (s.nodes.nodeAlloc.2.putItem item (count + 2)) := hfresh.putItem (by omega) item
  have htail : (s.nodes.nodeAlloc.2.putItem item (count + 2)).link (some 2) = some m := by
    change (Function.update s.nodes.nodeAlloc.2.nodes (count + 2) _ 2).link = some m
    rw [Function.update_of_ne (by omega), hnodes, hlast]
  unfold linkLast
  rw [htail]
  refine ⟨(hput.setLink (by omega) _).setLink (by omega) _, ?_, count + 2, by omega, ?_⟩
  · simp only [Function.update_self]
  · rw [setLink_some_nodes, Function.update_self]

theorem Filling.grants {count : ℕ} {s : ListClient} (h : Filling count s)
    (hcount : count + 2 < (nodeMemPages - 1) * (pageSize / 16)) (item : ℕ) : s.Grants (.enqueue 0 item) := by
  change ∀ nm ∈ s.nodes.allocations item (s.lists 0), nm.Grants
  obtain ⟨hnode, -, -⟩ := h.fresh.alloc hcount
  unfold NodeMemory.allocations
  rw [hnode, h.list_eq]
  simpa using h.fresh.grants hcount

/-- A list that is only added to takes one node after the other. -/
theorem filling_run (item : ℕ) {count : ℕ} (hpos : 1 ≤ count)
    (hcount : count + 1 < (nodeMemPages - 1) * (pageSize / 16)) :
    Ok (run step zeroed (List.replicate count (.enqueue 0 item))) ∧
      Filling count (run step zeroed (List.replicate count (.enqueue 0 item))) := by
  induction count, hpos using Nat.le_induction with
  | base =>
    obtain ⟨hgrants, hfilling⟩ := filling_first item
    exact ⟨(ok_boot fun _ ↦ ⟨0, none⟩).step _ hgrants, hfilling⟩
  | succ count hpos ih =>
    obtain ⟨hok, hfilling⟩ := ih (by omega)
    rw [List.replicate_succ', run_append]
    exact ⟨hok.step _ (hfilling.grants (by omega) item), hfilling.step hpos (by omega) item⟩

/-- When the list has all the nodes that are counted, one more item gets none, although the nodes of the last page are
in no list. -/
theorem Filling.refused {count : ℕ} {s : ListClient} (hok : Ok s) (h : Filling count s)
    (hcount : count + 2 = (nodeMemPages - 1) * (pageSize / 16)) (item : ℕ) :
    s.nodes.nodeAlloc.1 = none ∧ (∀ n, 25344 ≤ n ∧ n < poolNodes → ∀ k, n ∉ s.nodes.cells (s.lists k)) ∧
      ¬ s.Grants (.enqueue 0 item) := by
  have hbound : (nodeMemPages - 1) * (pageSize / 16) = 25344 := by decide
  have hpool : 25344 < poolNodes := by decide
  have hsum := h.fresh.count
  have hzero : s.nodes.numFree = 0 := by omega
  have hnot : ∀ n, 25344 ≤ n → n ∉ s.nodes.used := fun n hn ↦ by
    rw [h.fresh.used_eq, Finset.mem_range]
    omega
  refine ⟨?_, fun n hn k hk ↦ hnot n hn.1 ((hok.linked.linked k).used n hk), fun hgrants ↦ ?_⟩
  · unfold nodeAlloc
    rw [if_pos hzero]
  · have hhere := hgrants s.nodes (by
      change s.nodes ∈ s.nodes.allocations _ _
      unfold NodeMemory.allocations
      split <;> simp)
    rcases hhere with ⟨-, hall⟩ | ⟨hcounted, -⟩
    · exact hnot 25344 le_rfl (hall 25344 hpool)
    · exact hcounted hzero

/-- The list of 25342 items. -/
theorem fullCount_refused :
    let s := run step zeroed (List.replicate 25342 (.enqueue 0 7))
    s.nodes.nodeAlloc.1 = none ∧ (∀ n, 25344 ≤ n ∧ n < poolNodes → ∀ k, n ∉ s.nodes.cells (s.lists k)) ∧
      ¬ s.Grants (.enqueue 0 7) := by
  have hrun := @filling_run 7 25342 (by decide) (by decide)
  exact Filling.refused hrun.1 hrun.2 (by decide) 7

end ListClient

end GemOS
