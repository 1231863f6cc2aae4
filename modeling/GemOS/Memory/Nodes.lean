import GemOS.Memory.PageList

/-!
# The node pool and its lists

`lib.c` keeps a queue as two sentinel nodes and a chain of nodes between them; `memory.c` hands the nodes out of a
pool of pages with a cursor and takes a node with a null link for a free one, although the last node of a queue can
have one. As long as the pool hands out nodes that are in no queue, each queue is a FIFO: `enqueue_tail` adds a
value at the end, `dequeue_front` takes the first one, and neither touches another queue.

`used` and `ranOut` are read by no function of the source: they record which nodes are handed out, and whether the
pool ever failed to hand out one of its own that was not.
-/

namespace GemOS

/-- `struct node`; `link` is the union of `next` and `prev`, `none` the null pointer. -/
structure Node where
  value : ℕ
  link : Option ℕ

/-- `struct nodealloc_memory`, nodes counted from the start of the pool. -/
structure NodeMemory where
  nodes : ℕ → Node
  nextFree : ℕ
  numFree : ℕ
  used : Finset ℕ
  ranOut : Bool

/-- `struct list`. -/
structure NodeList where
  head : Option ℕ
  tail : Option ℕ
  size : ℕ

def nodeMemPages : ℕ := 100

/-- The nodes that fit in the pages of the pool. -/
def poolNodes : ℕ := nodeMemPages * (pageSize / 16)

/-- `init_list`. -/
def initList : NodeList := ⟨none, none, 0⟩

namespace NodeMemory

/-- `init_nodealloc_memory` over zeroed pages; the first page is not counted in `num_free`. -/
def init : NodeMemory where
  nodes := fun _ ↦ ⟨0, none⟩
  nextFree := 0
  numFree := (nodeMemPages - 1) * (pageSize / 16)
  used := ∅
  ranOut := false

/-- The first node from `n` on with a null link, among `fuel` nodes. -/
def skipUsed (nodes : ℕ → Node) : (fuel n : ℕ) → ℕ
  | 0, n => n
  | fuel + 1, n => if (nodes n).link.isSome then skipUsed nodes fuel (n + 1) else n

/-- The node `node_alloc` settles on: the one at the cursor, the next free one up to the end of the pool, or the
first free one from the start. -/
def search (nm : NodeMemory) : ℕ :=
  if (nm.nodes nm.nextFree).link.isNone then nm.nextFree
  else
    let n := skipUsed nm.nodes (poolNodes - nm.nextFree) nm.nextFree
    if n ≥ poolNodes then skipUsed nm.nodes poolNodes 0 else n

/-- `node_alloc`. -/
def nodeAlloc (nm : NodeMemory) : Option ℕ × NodeMemory :=
  if nm.numFree = 0 then (none, { nm with ranOut := true })
  else
    (some nm.search,
      { nm with
        nextFree := nm.search + 1
        numFree := nm.numFree - 1
        used := insert nm.search nm.used
        ranOut := nm.ranOut || decide (nm.search ∈ nm.used ∨ poolNodes ≤ nm.search) })

/-- A write of the union; nothing is modelled behind a null pointer, which only an exhausted pool leads to. -/
def setLink (nm : NodeMemory) (node : Option ℕ) (link : Option ℕ) : NodeMemory :=
  match node with
  | none => nm
  | some n => { nm with nodes := Function.update nm.nodes n ⟨(nm.nodes n).value, link⟩ }

def link (nm : NodeMemory) : Option ℕ → Option ℕ
  | none => none
  | some n => (nm.nodes n).link

/-- `node_free`. -/
def nodeFree (nm : NodeMemory) (n : ℕ) : NodeMemory :=
  { nm with
    numFree := nm.numFree + 1
    nodes := Function.update nm.nodes n ⟨(nm.nodes n).value, none⟩
    used := nm.used.erase n }

/-- `enqueue_tail`. -/
def enqueueTail (item : ℕ) (l : NodeList) (nm : NodeMemory) : NodeList × NodeMemory :=
  match nm.nodeAlloc with
  | (none, nm) => (l, nm)
  | (some n, nm) =>
    let nm := { nm with nodes := Function.update nm.nodes n ⟨item, none⟩ }
    if l.size = 0 then
      let (l, nm) :=
        match l.head with
        | some _ => (l, nm)
        | none =>
          let head := nm.nodeAlloc
          let tail := head.2.nodeAlloc
          (⟨head.1, tail.1, l.size⟩, tail.2)
      let nm := nm.setLink l.head (some n)
      let nm := nm.setLink l.tail (some n)
      let nm := nm.setLink (some n) l.tail
      (⟨l.head, l.tail, l.size + 1⟩, nm)
    else
      let nm := nm.setLink (nm.link l.tail) (some n)
      let nm := nm.setLink l.tail (some n)
      (⟨l.head, l.tail, l.size + 1⟩, nm)

/-- `dequeue_front` on a list that is not empty. -/
def dequeueFront (l : NodeList) (nm : NodeMemory) : Option ℕ × NodeList × NodeMemory :=
  let n := nm.link l.head
  (n, ⟨l.head, l.tail, l.size - 1⟩, nm.setLink l.head (nm.link n))

/-- The nodes that `count` links lead to. -/
def follow (nodes : ℕ → Node) : (count : ℕ) → Option ℕ → List ℕ
  | 0, _ => []
  | _ + 1, none => []
  | count + 1, some n => n :: follow nodes count (nodes n).link

/-- The nodes of a list between its sentinels. -/
def chain (nm : NodeMemory) (l : NodeList) : List ℕ := follow nm.nodes l.size (nm.link l.head)

/-- The values of a list, first in first. -/
def values (nm : NodeMemory) (l : NodeList) : List ℕ := (nm.chain l).map fun n ↦ (nm.nodes n).value

/-- All nodes of a list. -/
def cells (nm : NodeMemory) (l : NodeList) : List ℕ := l.head.toList ++ l.tail.toList ++ nm.chain l

/-- A list in good order: as many nodes as it counts, all different and handed out, the last one known to the
tail. -/
structure Linked (nm : NodeMemory) (l : NodeList) : Prop where
  full : (nm.chain l).length = l.size
  nodup : (nm.cells l).Nodup
  used : ∀ n ∈ nm.cells l, n ∈ nm.used
  last : ∀ n ∈ (nm.chain l).getLast?, nm.link l.tail = some n
  sentinels : l.head.isSome = l.tail.isSome

variable {nm nm' : NodeMemory} {l l' : NodeList}

@[simp] theorem setLink_ranOut (nm : NodeMemory) (node link : Option ℕ) :
    (nm.setLink node link).ranOut = nm.ranOut := by
  cases node <;> rfl

@[simp] theorem setLink_used (nm : NodeMemory) (node link : Option ℕ) : (nm.setLink node link).used = nm.used := by
  cases node <;> rfl

theorem setLink_some_nodes (nm : NodeMemory) (n : ℕ) (link : Option ℕ) :
    (nm.setLink (some n) link).nodes = Function.update nm.nodes n ⟨(nm.nodes n).value, link⟩ := rfl

theorem follow_congr {nodes nodes' : ℕ → Node} {count : ℕ} {start : Option ℕ}
    (h : ∀ n ∈ follow nodes count start, (nodes' n).link = (nodes n).link) :
    follow nodes' count start = follow nodes count start := by
  induction count generalizing start with
  | zero => rfl
  | succ count ih =>
    cases start with
    | none => rfl
    | some n =>
      rw [follow, follow, h n List.mem_cons_self]
      rw [ih fun m hm ↦ h m (List.mem_cons_of_mem _ hm)]

/-- A link set at the last node makes the chain one longer. -/
theorem follow_snoc {nodes nodes' : ℕ → Node} {count m n : ℕ} {start : Option ℕ}
    (hfull : (follow nodes count start).length = count) (hnodup : (follow nodes count start).Nodup)
    (hlast : (follow nodes count start).getLast? = some m) (hlink : (nodes' m).link = some n)
    (hrest : ∀ x ∈ follow nodes count start, x ≠ m → (nodes' x).link = (nodes x).link) :
    follow nodes' (count + 1) start = follow nodes count start ++ [n] := by
  induction count generalizing start with
  | zero => cases hlast
  | succ count ih =>
    cases start with
    | none => cases hlast
    | some x =>
      rw [follow] at hfull hnodup hlast hrest ⊢
      rw [follow]
      cases hchain : follow nodes count (nodes x).link with
      | nil =>
        rw [hchain] at hlast hfull
        obtain rfl : x = m := by simpa using hlast
        obtain rfl : count = 0 := by simpa using hfull.symm
        rw [hlink]
        rfl
      | cons y ys =>
        rw [hchain, List.getLast?_cons_cons, ← hchain] at hlast
        have hmem : m ∈ follow nodes count (nodes x).link := List.mem_of_getLast? hlast
        have hne : x ≠ m := fun heq ↦ (List.nodup_cons.1 hnodup).1 (heq ▸ hmem)
        rw [hrest x List.mem_cons_self hne, ← hchain, List.cons_append]
        rw [ih (by simpa using hfull) (List.nodup_cons.1 hnodup).2 hlast
          fun z hz ↦ hrest z (List.mem_cons_of_mem _ hz)]

/-- While the pool does not run out, it hands out a node that is not in use. -/
theorem nodeAlloc_spec (h : nm.nodeAlloc.2.ranOut = false) :
    nm.ranOut = false ∧ ∃ n, nm.nodeAlloc.1 = some n ∧ n ∉ nm.used ∧ nm.nodeAlloc.2.nodes = nm.nodes ∧
      nm.nodeAlloc.2.used = insert n nm.used := by
  unfold nodeAlloc at h ⊢
  split
  · rename_i hzero
    rw [if_pos hzero] at h
    exact Bool.noConfusion h
  · rename_i hpos
    rw [if_neg hpos] at h
    simp only [Bool.or_eq_false_iff, decide_eq_false_iff_not, not_or] at h
    exact ⟨h.1, nm.search, rfl, h.2.1, rfl, rfl⟩

theorem mem_cells {n : ℕ} : n ∈ nm.cells l ↔ l.head = some n ∨ l.tail = some n ∨ n ∈ nm.chain l := by
  simp only [cells, List.mem_append, Option.mem_toList, or_assoc]

/-- A change of one list: the new list is in good order, its nodes were its own or not in use, and every other node
in use is as before. -/
structure Moves (nm nm' : NodeMemory) (l l' : NodeList) : Prop where
  linked : Linked nm' l'
  cells_of : ∀ n ∈ nm'.cells l', n ∈ nm.cells l ∨ n ∉ nm.used
  frame : ∀ n ∈ nm.used, n ∉ nm.cells l → nm'.nodes n = nm.nodes n ∧ n ∈ nm'.used

/-- The first node between two sentinels. -/
theorem linked_single {h t n : ℕ} (hht : h ≠ t) (hhn : h ≠ n) (htn : t ≠ n)
    (hused : h ∈ nm.used ∧ t ∈ nm.used ∧ n ∈ nm.used)
    (hhead : (nm.nodes h).link = some n) (htail : (nm.nodes t).link = some n) :
    Linked nm ⟨some h, some t, 1⟩ ∧ nm.chain ⟨some h, some t, 1⟩ = [n] := by
  have hchain : nm.chain ⟨some h, some t, 1⟩ = [n] := by
    simp only [chain, link, hhead]
    rfl
  have hcells : nm.cells ⟨some h, some t, 1⟩ = [h, t, n] := by
    rw [cells, hchain]
    rfl
  refine ⟨⟨by rw [hchain]; rfl, ?_, ?_, ?_, rfl⟩, hchain⟩
  · rw [hcells]
    simp [hht, hhn, htn]
  · rw [hcells]
    simpa using hused
  · rw [hchain]
    intro x hx
    obtain rfl : n = x := by simpa using hx
    exact htail

/-- The writes of `enqueue_tail` on an empty list. -/
theorem setLink_first {h t n : ℕ} (hht : h ≠ t) (hhn : h ≠ n) (htn : t ≠ n)
    (hused : h ∈ nm.used ∧ t ∈ nm.used ∧ n ∈ nm.used) :
    let nm' := ((nm.setLink (some h) (some n)).setLink (some t) (some n)).setLink (some n) (some t)
    Linked nm' ⟨some h, some t, 1⟩ ∧ nm'.chain ⟨some h, some t, 1⟩ = [n] ∧ (nm'.nodes n).value = (nm.nodes n).value ∧
      ∀ x, x ≠ h → x ≠ t → x ≠ n → nm'.nodes x = nm.nodes x := by
  intro nm'
  have hnodes : ∀ x, x ≠ n → x ≠ t → nm'.nodes x = (nm.setLink (some h) (some n)).nodes x := by
    intro x hxn hxt
    simp only [nm', setLink_some_nodes, Function.update_of_ne hxn, Function.update_of_ne hxt]
  have hhead : (nm'.nodes h).link = some n := by
    rw [hnodes h hhn hht, setLink_some_nodes, Function.update_self]
  have htail : (nm'.nodes t).link = some n := by
    simp only [nm', setLink_some_nodes, Function.update_of_ne htn, Function.update_self]
  have hvalue : (nm'.nodes n).value = (nm.nodes n).value := by
    simp only [nm', setLink_some_nodes, Function.update_of_ne htn.symm, Function.update_of_ne hhn.symm,
      Function.update_self]
  have hused' : h ∈ nm'.used ∧ t ∈ nm'.used ∧ n ∈ nm'.used := by simpa [nm'] using hused
  obtain ⟨hlinked, hchain⟩ := linked_single hht hhn htn hused' hhead htail
  refine ⟨hlinked, hchain, hvalue, fun x hxh hxt hxn ↦ ?_⟩
  rw [hnodes x hxn hxt, setLink_some_nodes, Function.update_of_ne hxh]

/-- A list that counts nodes has its sentinels and a last node. -/
theorem Linked.exists_last (h : Linked nm l) (hsize : l.size ≠ 0) :
    ∃ first m t, l.head = some first ∧ l.tail = some t ∧ nm.link l.tail = some m ∧ (nm.chain l).getLast? = some m := by
  have hne : nm.chain l ≠ [] := by
    intro hnil
    have hfull := h.full
    rw [hnil] at hfull
    exact hsize hfull.symm
  have hlast : (nm.chain l).getLast? = some ((nm.chain l).getLast hne) := List.getLast?_eq_some_getLast hne
  have htail := h.last _ hlast
  cases heq : l.tail with
  | none =>
    rw [heq] at htail
    cases htail
  | some t =>
    have hsome := h.sentinels
    rw [heq] at hsome
    obtain ⟨first, hfirst⟩ := Option.isSome_iff_exists.1 hsome
    exact ⟨first, _, t, hfirst, rfl, heq ▸ htail, hlast⟩

/-- The writes of `enqueue_tail` behind the last node `m`. -/
theorem setLink_append (h : Linked nm l) {first m t n : ℕ} (hhead : l.head = some first) (htail : l.tail = some t)
    (hlast : (nm.chain l).getLast? = some m) (hn : n ∉ nm.cells l) (hused : n ∈ nm.used) :
    let nm' := (nm.setLink (some m) (some n)).setLink (some t) (some n)
    Linked nm' ⟨some first, some t, l.size + 1⟩ ∧ nm'.chain ⟨some first, some t, l.size + 1⟩ = nm.chain l ++ [n] ∧
      (∀ x, (nm'.nodes x).value = (nm.nodes x).value) ∧ ∀ x, x ≠ m → x ≠ t → nm'.nodes x = nm.nodes x := by
  intro nm'
  have hnodup := h.nodup
  have hcells : nm.cells l = first :: t :: nm.chain l := by rw [cells, hhead, htail]; rfl
  rw [hcells] at hnodup hn
  simp only [List.nodup_cons, List.mem_cons, not_or] at hnodup hn
  obtain ⟨⟨hfirstt, hfirst⟩, ht, hchain⟩ := hnodup
  have hmem : m ∈ nm.chain l := List.mem_of_getLast? hlast
  have hmt : m ≠ t := fun heq ↦ ht (heq ▸ hmem)
  have hfm : first ≠ m := fun heq ↦ hfirst (heq ▸ hmem)
  have hsame : ∀ x, x ≠ m → x ≠ t → nm'.nodes x = nm.nodes x := by
    intro x hxm hxt
    simp only [nm', setLink_some_nodes, Function.update_of_ne hxm, Function.update_of_ne hxt]
  have hlink : (nm'.nodes m).link = some n := by
    simp only [nm', setLink_some_nodes, Function.update_of_ne hmt, Function.update_self]
  have hvalue : ∀ x, (nm'.nodes x).value = (nm.nodes x).value := by
    intro x
    by_cases hxt : x = t
    · simp only [nm', setLink_some_nodes, hxt, Function.update_self, Function.update_of_ne hmt.symm]
    · by_cases hxm : x = m
      · simp only [nm', setLink_some_nodes, hxm, Function.update_of_ne hmt, Function.update_self]
      · rw [hsame x hxm hxt]
  have hfollow : nm'.chain ⟨some first, some t, l.size + 1⟩ = nm.chain l ++ [n] := by
    have hstart : nm'.link (some first) = nm.link l.head := by
      rw [hhead, link, link, hsame first hfm hfirstt]
    rw [chain, hstart]
    refine follow_snoc h.full hchain hlast hlink fun x hx hxm ↦ ?_
    rw [hsame x hxm fun heq ↦ ht (heq ▸ hx)]
  have hcells' : nm'.cells ⟨some first, some t, l.size + 1⟩ = first :: t :: (nm.chain l ++ [n]) := by
    rw [cells, hfollow]
    rfl
  refine ⟨⟨?_, ?_, ?_, ?_, rfl⟩, hfollow, hvalue, hsame⟩
  · rw [hfollow, List.length_append, h.full]
    rfl
  · rw [hcells', ← List.cons_append, ← List.cons_append, ← hcells]
    refine List.Nodup.append h.nodup (List.nodup_singleton n) ?_
    rw [List.disjoint_singleton, hcells]
    simpa using hn
  · rw [hcells', ← List.cons_append, ← List.cons_append, ← hcells]
    intro x hx
    simp only [nm', setLink_used]
    rcases List.mem_append.1 hx with hold | hnew
    · exact h.used x hold
    · exact List.mem_singleton.1 hnew ▸ hused
  · rw [hfollow]
    intro x hx
    obtain rfl : n = x := by simpa using hx
    change (nm'.nodes t).link = some n
    simp only [nm', setLink_some_nodes, Function.update_self]

/-- A list depends on its own nodes only. -/
theorem Linked.frame (h : Linked nm l) (hsame : ∀ n ∈ nm.cells l, nm'.nodes n = nm.nodes n ∧ n ∈ nm'.used) :
    Linked nm' l ∧ nm'.chain l = nm.chain l ∧ nm'.values l = nm.values l := by
  have hlink : ∀ p : Option ℕ, (∀ n, p = some n → n ∈ nm.cells l) → nm'.link p = nm.link p := by
    intro p hp
    cases p with
    | none => rfl
    | some n =>
      rw [link, link, (hsame n (hp n rfl)).1]
  have hhead := hlink l.head fun n hn ↦ mem_cells.2 (Or.inl hn)
  have htail := hlink l.tail fun n hn ↦ mem_cells.2 (Or.inr (Or.inl hn))
  have hchain : nm'.chain l = nm.chain l := by
    rw [chain, hhead]
    exact follow_congr fun n hn ↦ by rw [(hsame n (mem_cells.2 (Or.inr (Or.inr hn)))).1]
  have hcells : nm'.cells l = nm.cells l := by rw [cells, hchain, ← cells]
  refine ⟨⟨hchain ▸ h.full, hcells ▸ h.nodup, fun n hn ↦ (hsame n (hcells ▸ hn)).2, ?_, h.sentinels⟩, hchain, ?_⟩
  · rw [hchain, htail]
    exact h.last
  · rw [values, hchain, values]
    exact List.map_congr_left fun n hn ↦ by rw [(hsame n (mem_cells.2 (Or.inr (Or.inr hn)))).1]

theorem enqueueTail_cons (h : Linked nm l) {item : ℕ} (hsize : l.size ≠ 0)
    (hran : (enqueueTail item l nm).2.ranOut = false) :
    Moves nm (enqueueTail item l nm).2 l (enqueueTail item l nm).1 ∧
      (enqueueTail item l nm).2.values (enqueueTail item l nm).1 = nm.values l ++ [item] ∧ nm.ranOut = false := by
  obtain ⟨first, m, t, hhead, htail, hlast, hgetLast⟩ := h.exists_last hsize
  have hspec : nm.nodeAlloc.2.ranOut = false → _ := nodeAlloc_spec
  unfold enqueueTail at hran ⊢
  rcases halloc : nm.nodeAlloc with ⟨_ | n, nm₁⟩
  · rw [halloc] at hran hspec
    obtain ⟨-, _, hnone, -⟩ := hspec hran
    cases hnone
  rw [halloc] at hran hspec
  simp only [if_neg hsize, setLink_ranOut] at hran ⊢
  obtain ⟨hbefore, n', hn', hfresh, hnodes, hused⟩ := hspec hran
  cases hn'
  set nm₂ : NodeMemory := { nm₁ with nodes := Function.update nm₁.nodes n ⟨item, none⟩ } with hnm₂
  have hother : ∀ x, x ≠ n → nm₂.nodes x = nm.nodes x := by
    intro x hx
    simp only [hnm₂, Function.update_of_ne hx]
    exact congrFun hnodes x
  have hcell : ∀ x ∈ nm.cells l, nm₂.nodes x = nm.nodes x ∧ x ∈ nm₂.used := by
    intro x hx
    have hx' := h.used x hx
    exact ⟨hother x fun heq ↦ hfresh (heq ▸ hx'), hused ▸ Finset.mem_insert_of_mem hx'⟩
  obtain ⟨hlinked, hchain, hvalues⟩ := h.frame hcell
  have hcells : nm₂.cells l = nm.cells l := by rw [cells, hchain, ← cells]
  have hlink : nm₂.link l.tail = some m := by
    rw [← hlast, htail, link, link, (hcell t (mem_cells.2 (Or.inr (Or.inl htail)))).1]
  have hn : n ∉ nm₂.cells l := fun hn ↦ hfresh (h.used n (hcells ▸ hn))
  obtain ⟨hlinked', hchain', hvalue', hsame'⟩ := setLink_append hlinked hhead htail (hchain ▸ hgetLast) hn
    (hused ▸ Finset.mem_insert_self n nm.used)
  rw [hlink, htail, hhead]
  rw [hchain] at hchain'
  refine ⟨⟨hlinked', ?_, ?_⟩, ?_, hbefore⟩
  · intro x hx
    rw [mem_cells, hchain', List.mem_append, List.mem_singleton] at hx
    rcases hx with hx | hx | hx | rfl
    · exact Or.inl (mem_cells.2 (Or.inl (hhead.trans hx)))
    · exact Or.inl (mem_cells.2 (Or.inr (Or.inl (htail.trans hx))))
    · exact Or.inl (mem_cells.2 (Or.inr (Or.inr hx)))
    · exact Or.inr hfresh
  · intro x hx hout
    have hxn : x ≠ n := fun heq ↦ hfresh (heq ▸ hx)
    have hxm : x ≠ m := fun heq ↦ hout (mem_cells.2 (Or.inr (Or.inr (heq ▸ List.mem_of_getLast? hgetLast))))
    have hxt : x ≠ t := fun heq ↦ hout (mem_cells.2 (Or.inr (Or.inl (heq ▸ htail))))
    refine ⟨(hsame' x hxm hxt).trans (hother x hxn), ?_⟩
    simp only [setLink_used]
    exact hused ▸ Finset.mem_insert_of_mem hx
  · rw [values, hchain', List.map_append, List.map_singleton]
    simp only [hvalue']
    congr 1
    · rw [← hvalues, values, hchain]
    · simp only [hnm₂, Function.update_self]

/-- The writes of `enqueue_tail` on an empty list, from the state before its allocations. -/
theorem moves_first {nm₂ : NodeMemory} {h t n item : ℕ} (hht : h ≠ t) (hhn : h ≠ n) (htn : t ≠ n)
    (hused : h ∈ nm₂.used ∧ t ∈ nm₂.used ∧ n ∈ nm₂.used) (hmore : nm.used ⊆ nm₂.used)
    (hitem : (nm₂.nodes n).value = item) (hsame : ∀ x ∈ nm.used, nm₂.nodes x = nm.nodes x)
    (hcells : ∀ x, x = h ∨ x = t ∨ x = n → x ∈ nm.cells l ∨ x ∉ nm.used) :
    let nm' := ((nm₂.setLink (some h) (some n)).setLink (some t) (some n)).setLink (some n) (some t)
    Moves nm nm' l ⟨some h, some t, 1⟩ ∧ nm'.values ⟨some h, some t, 1⟩ = [item] := by
  intro nm'
  obtain ⟨hlinked, hchain, hvalue, hother⟩ := setLink_first hht hhn htn hused
  refine ⟨⟨hlinked, ?_, ?_⟩, ?_⟩
  · intro x hx
    rw [mem_cells, hchain, List.mem_singleton] at hx
    exact hcells x (by simpa [eq_comm] using hx)
  · intro x hx hout
    have hxh : x ≠ h := fun heq ↦ (hcells x (Or.inl heq)).elim hout fun hfresh ↦ hfresh hx
    have hxt : x ≠ t := fun heq ↦ (hcells x (Or.inr (Or.inl heq))).elim hout fun hfresh ↦ hfresh hx
    have hxn : x ≠ n := fun heq ↦ (hcells x (Or.inr (Or.inr heq))).elim hout fun hfresh ↦ hfresh hx
    refine ⟨(hother x hxh hxt hxn).trans (hsame x hx), ?_⟩
    simp only [nm', setLink_used]
    exact hmore hx
  · rw [values, hchain, List.map_singleton, hvalue, hitem]

theorem enqueueTail_nil (h : Linked nm l) {item : ℕ} (hsize : l.size = 0)
    (hran : (enqueueTail item l nm).2.ranOut = false) :
    Moves nm (enqueueTail item l nm).2 l (enqueueTail item l nm).1 ∧
      (enqueueTail item l nm).2.values (enqueueTail item l nm).1 = nm.values l ++ [item] ∧ nm.ranOut = false := by
  have hvalues : nm.values l = [] := by rw [values, chain, hsize]; rfl
  have hspec : nm.nodeAlloc.2.ranOut = false → _ := nodeAlloc_spec
  have hsentinels := h.sentinels
  rw [hvalues, List.nil_append]
  unfold enqueueTail at hran ⊢
  rcases halloc : nm.nodeAlloc with ⟨_ | n, nm₁⟩
  · rw [halloc] at hran hspec
    obtain ⟨-, _, hnone, -⟩ := hspec hran
    cases hnone
  rw [halloc] at hran hspec
  simp only [if_pos hsize, setLink_ranOut] at hran ⊢
  set nm₂ : NodeMemory := { nm₁ with nodes := Function.update nm₁.nodes n ⟨item, none⟩ } with hnm₂
  have hitem : (nm₂.nodes n).value = item := by simp only [hnm₂, Function.update_self]
  cases hhead : l.head with
  | some first =>
    rw [hhead] at hran hsentinels
    obtain ⟨t, htail⟩ := Option.isSome_iff_exists.1 hsentinels.symm
    obtain ⟨hbefore, _, hn, hfresh, hnodes, hused⟩ := hspec hran
    cases hn
    simp only [hhead, htail, hsize]
    have hnodup := h.nodup
    rw [cells, hhead, htail] at hnodup
    have hft : first ≠ t := fun heq ↦ (List.nodup_cons.1 hnodup).1 (heq ▸ List.mem_cons_self)
    have hfirst : first ∈ nm.cells l := mem_cells.2 (Or.inl hhead)
    have ht : t ∈ nm.cells l := mem_cells.2 (Or.inr (Or.inl htail))
    have hmore : nm.used ⊆ nm₂.used := hused ▸ Finset.subset_insert n nm.used
    have hne : ∀ x ∈ nm.cells l, x ≠ n := fun x hx heq ↦ hfresh (heq ▸ h.used x hx)
    have hsame : ∀ x ∈ nm.used, nm₂.nodes x = nm.nodes x := by
      intro x hx
      have hxn : x ≠ n := fun heq ↦ hfresh (heq ▸ hx)
      simp only [hnm₂, Function.update_of_ne hxn]
      exact congrFun hnodes x
    obtain ⟨hmoves, hnew⟩ := moves_first (l := l) hft (hne first hfirst) (hne t ht)
      ⟨hmore (h.used _ hfirst), hmore (h.used _ ht), hused ▸ Finset.mem_insert_self n nm.used⟩ hmore hitem hsame
      (by rintro x (rfl | rfl | rfl); exacts [Or.inl hfirst, Or.inl ht, Or.inr hfresh])
    exact ⟨hmoves, hnew, hbefore⟩
  | none =>
    rw [hhead] at hran
    obtain ⟨hran₃, t, ht, htfresh, htnodes, htused⟩ := nodeAlloc_spec hran
    obtain ⟨hran₂, first, hfirst, hffresh, hfnodes, hfused⟩ := nodeAlloc_spec hran₃
    obtain ⟨hbefore, _, hn, hfresh, hnodes, hused⟩ := hspec hran₂
    cases hn
    simp only [hfirst, ht, hsize]
    rw [hfused, Finset.mem_insert, not_or] at htfresh
    have hused₂ : nm₂.used = insert n nm.used := hused
    rw [hused₂, Finset.mem_insert, not_or] at htfresh hffresh
    set nm₄ := nm₂.nodeAlloc.2.nodeAlloc.2
    have hnodes₄ : nm₄.nodes = nm₂.nodes := htnodes.trans hfnodes
    have hitem₄ : (nm₄.nodes n).value = item := by rw [hnodes₄, hitem]
    have hsame : ∀ x ∈ nm.used, nm₄.nodes x = nm.nodes x := by
      intro x hx
      have hxn : x ≠ n := fun heq ↦ hfresh (heq ▸ hx)
      simp only [hnodes₄, hnm₂, Function.update_of_ne hxn]
      exact congrFun hnodes x
    have hused₄ : nm₄.used = insert t (insert first (insert n nm.used)) := by rw [htused, hfused, hused₂]
    have hmore : nm.used ⊆ nm₄.used := by
      intro x hx
      rw [hused₄]
      exact Finset.mem_insert_of_mem (Finset.mem_insert_of_mem (Finset.mem_insert_of_mem hx))
    obtain ⟨hmoves, hnew⟩ := moves_first (l := l) (Ne.symm htfresh.1) hffresh.1 htfresh.2.1
      (by simp [hused₄]) hmore hitem₄ hsame
      (by rintro x (rfl | rfl | rfl); exacts [Or.inr hffresh.2, Or.inr htfresh.2.2, Or.inr hfresh])
    exact ⟨hmoves, hnew, hbefore⟩

/-- While the pool does not run out, `enqueue_tail` adds the value at the end. -/
theorem enqueueTail_spec (h : Linked nm l) {item : ℕ} (hran : (enqueueTail item l nm).2.ranOut = false) :
    Moves nm (enqueueTail item l nm).2 l (enqueueTail item l nm).1 ∧
      (enqueueTail item l nm).2.values (enqueueTail item l nm).1 = nm.values l ++ [item] ∧ nm.ranOut = false := by
  by_cases hsize : l.size = 0
  · exact enqueueTail_nil h hsize hran
  · exact enqueueTail_cons h hsize hran

/-- `dequeue_front` and `node_free` take the first value. -/
theorem dequeueFront_spec (h : Linked nm l) (hsize : l.size ≠ 0) :
    ∃ n, (dequeueFront l nm).1 = some n ∧
      nm.values l = ((dequeueFront l nm).2.2.nodes n).value ::
        ((dequeueFront l nm).2.2.nodeFree n).values (dequeueFront l nm).2.1 ∧
      Moves nm ((dequeueFront l nm).2.2.nodeFree n) l (dequeueFront l nm).2.1 := by
  obtain ⟨first, m, t, hhead, htail, hlast, hgetLast⟩ := h.exists_last hsize
  obtain ⟨count, hcount⟩ := Nat.exists_eq_succ_of_ne_zero hsize
  cases hlink : nm.link l.head with
  | none =>
    have hchain : nm.chain l = [] := by rw [chain, hcount, hlink]; rfl
    rw [hchain] at hgetLast
    cases hgetLast
  | some n =>
    have hchain : nm.chain l = n :: follow nm.nodes count (nm.nodes n).link := by
      rw [chain, hcount, hlink, follow]
    have hcells : nm.cells l = first :: t :: n :: follow nm.nodes count (nm.nodes n).link := by
      rw [cells, hchain, hhead, htail]
      rfl
    have hnodup := h.nodup
    rw [hcells] at hnodup
    simp only [List.nodup_cons, List.mem_cons, not_or] at hnodup
    obtain ⟨⟨hft, hfn, hfrest⟩, ⟨htn, htrest⟩, hnrest, hrest⟩ := hnodup
    have hresult : dequeueFront l nm = (some n, ⟨some first, some t, count⟩,
        nm.setLink (some first) (nm.nodes n).link) := by
      rw [dequeueFront, hlink, hhead, htail, hcount]
      rfl
    rw [hresult]
    simp only
    set nm' := (nm.setLink (some first) (nm.nodes n).link).nodeFree n with hnm'
    have hsame : ∀ x, x ≠ first → x ≠ n → nm'.nodes x = nm.nodes x := by
      intro x hxf hxn
      simp only [hnm', nodeFree, setLink_some_nodes, Function.update_of_ne hxn, Function.update_of_ne hxf]
    have hstart : nm'.link (some first) = (nm.nodes n).link := by
      simp only [hnm', nodeFree, link, setLink_some_nodes, Function.update_of_ne hfn, Function.update_self]
    have hchain' : nm'.chain ⟨some first, some t, count⟩ = follow nm.nodes count (nm.nodes n).link := by
      rw [chain, hstart]
      exact follow_congr fun x hx ↦ by
        rw [hsame x (fun heq ↦ hfrest (heq ▸ hx)) (fun heq ↦ hnrest (heq ▸ hx))]
    have hcells' : nm'.cells ⟨some first, some t, count⟩ =
        first :: t :: follow nm.nodes count (nm.nodes n).link := by
      rw [cells, hchain']
      rfl
    have hused : ∀ x ∈ nm.used, x ≠ n → x ∈ nm'.used := fun x hx hxn ↦ Finset.mem_erase.2 ⟨hxn, by simpa using hx⟩
    have hincl : ∀ x ∈ nm'.cells ⟨some first, some t, count⟩, x ∈ nm.cells l ∧ x ≠ n := by
      intro x hx
      rw [hcells', List.mem_cons, List.mem_cons] at hx
      rw [hcells]
      rcases hx with rfl | rfl | hx
      · exact ⟨List.mem_cons_self, hfn⟩
      · exact ⟨List.mem_cons_of_mem _ List.mem_cons_self, htn⟩
      · exact ⟨by simp [hx], fun heq ↦ hnrest (heq ▸ hx)⟩
    refine ⟨n, rfl, ?_, ⟨?_, ?_, ?_, ?_, rfl⟩, fun x hx ↦ Or.inl (hincl x hx).1, ?_⟩
    · rw [values, hchain, List.map_cons, values, hchain']
      congr 1
      · rw [setLink_some_nodes, Function.update_of_ne (Ne.symm hfn)]
      · exact List.map_congr_left fun x hx ↦ by
          rw [hsame x (fun heq ↦ hfrest (heq ▸ hx)) (fun heq ↦ hnrest (heq ▸ hx))]
    · have hfull := h.full
      rw [hchain, hcount] at hfull
      rw [hchain']
      exact Nat.succ_injective hfull
    · rw [hcells']
      simp only [List.nodup_cons, List.mem_cons, not_or]
      exact ⟨⟨hft, hfrest⟩, htrest, hrest⟩
    · exact fun x hx ↦ hused x (h.used x (hincl x hx).1) (hincl x hx).2
    · intro x hx
      rw [hchain'] at hx
      have hmem : x ∈ follow nm.nodes count (nm.nodes n).link := List.mem_of_getLast? hx
      have hlastx : x ∈ (nm.chain l).getLast? := by
        rw [hchain]
        cases hrestEq : follow nm.nodes count (nm.nodes n).link with
        | nil =>
          rw [hrestEq] at hmem
          cases hmem
        | cons y ys =>
          rw [hrestEq] at hx
          rw [List.getLast?_cons_cons]
          exact hx
      have hold := h.last x hlastx
      rw [htail, link] at hold
      rw [link, hsame t (Ne.symm hft) htn]
      exact hold
    · intro x hx hout
      rw [hcells] at hout
      simp only [List.mem_cons, not_or] at hout
      exact ⟨hsame x hout.1 hout.2.2.1, hused x hx hout.2.2.1⟩

/-- Lists that share no node. -/
structure AllLinked (nm : NodeMemory) (lists : ℕ → NodeList) : Prop where
  linked : ∀ k, Linked nm (lists k)
  apart : ∀ k k', k ≠ k' → ∀ n ∈ nm.cells (lists k), n ∉ nm.cells (lists k')

theorem AllLinked.move {lists : ℕ → NodeList} (h : AllLinked nm lists) {k : ℕ} (hmoves : Moves nm nm' (lists k) l') :
    AllLinked nm' (Function.update lists k l') ∧ ∀ k' ≠ k, nm'.values (lists k') = nm.values (lists k') := by
  have hframe : ∀ k' ≠ k, Linked nm' (lists k') ∧ nm'.chain (lists k') = nm.chain (lists k') ∧
      nm'.values (lists k') = nm.values (lists k') := fun k' hk ↦
    (h.linked k').frame fun n hn ↦ hmoves.frame n ((h.linked k').used n hn) (h.apart k' k hk n hn)
  have hcells : ∀ k' ≠ k, nm'.cells (lists k') = nm.cells (lists k') := fun k' hk ↦ by
    rw [cells, (hframe k' hk).2.1, ← cells]
  have hnew : ∀ k' ≠ k, ∀ n ∈ nm'.cells l', n ∉ nm'.cells (lists k') := by
    intro k' hk n hn hn'
    rw [hcells k' hk] at hn'
    rcases hmoves.cells_of n hn with hold | hfresh
    · exact h.apart k' k hk n hn' hold
    · exact hfresh ((h.linked k').used n hn')
  refine ⟨⟨fun k' ↦ ?_, fun i j hij n hi hj ↦ ?_⟩, fun k' hk ↦ (hframe k' hk).2.2⟩
  · by_cases hk : k' = k
    · rw [hk, Function.update_self]
      exact hmoves.linked
    · rw [Function.update_of_ne hk]
      exact (hframe k' hk).1
  · by_cases hik : i = k
    · rw [hik, Function.update_self] at hi
      rw [Function.update_of_ne (hik ▸ hij.symm)] at hj
      exact hnew j (hik ▸ hij.symm) n hi hj
    · rw [Function.update_of_ne hik] at hi
      by_cases hjk : j = k
      · rw [hjk, Function.update_self] at hj
        exact hnew i hik n hj hi
      · rw [Function.update_of_ne hjk, hcells j hjk] at hj
        rw [hcells i hik] at hi
        exact h.apart i j hij n hi hj

theorem allLinked_init : AllLinked init fun _ ↦ initList where
  linked _ := ⟨rfl, List.nodup_nil, fun _ hn ↦ (List.not_mem_nil hn).elim, fun _ hn ↦ (nomatch hn), rfl⟩
  apart _ _ _ _ hn := (List.not_mem_nil hn).elim

end NodeMemory

end GemOS
