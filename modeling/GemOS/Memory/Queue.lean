import GemOS.Foundation.Fifo
import GemOS.Memory.Nodes

/-!
# A list as a queue

One list over a run of `enqueue_tail` and `dequeue_front`, while anything may happen to the nodes that are not its
own: other lists, `node_free` of what was dequeued. As long as `node_alloc` returns nodes that are not in use, the
list is a queue.
-/

namespace GemOS

open Foundation NodeMemory

/-- `dequeue_front`. -/
def NodeMemory.dequeue (l : NodeList) (nm : NodeMemory) : Option ℕ × NodeList × NodeMemory :=
  if l.size = 0 then (none, l, nm) else dequeueFront l nm

/-- The pool, a list, and the values of the nodes that `dequeue_front` returned. -/
structure Queue where
  nodes : NodeMemory
  list : NodeList
  returned : List (Option ℕ)

inductive QueueEvent where
  | call (call : FifoCall ℕ)
  /-- The pool is used for something else. -/
  | elsewhere (nodes : NodeMemory)

namespace Queue

def start (nodes : NodeMemory) : Queue := ⟨nodes, initList, []⟩

def step : QueueEvent → Queue → Queue
  | .call (.enqueue item), q =>
    let after := enqueueTail item q.list q.nodes
    ⟨after.2, after.1, q.returned⟩
  | .call .dequeue, q =>
    let after := dequeue q.list q.nodes
    ⟨after.2.2, after.2.1, q.returned ++ [after.1.map fun n ↦ (after.2.2.nodes n).value]⟩
  | .elsewhere nodes, q => { q with nodes := nodes }

/-- Every `node_alloc` of the call returns a node of the pool that is not in use; what goes on elsewhere leaves the
nodes of the list alone and keeps them in use. -/
def Supplied (q : Queue) : QueueEvent → Prop
  | .call (.enqueue item) => (enqueueTail item q.list q.nodes).2.ranOut = false
  | .call .dequeue => True
  | .elsewhere nodes => ∀ n ∈ q.nodes.cells q.list, nodes.nodes n = q.nodes.nodes n ∧ n ∈ nodes.used

/-- The calls of a run on the list. -/
def calls : List QueueEvent → List (FifoCall ℕ)
  | [] => []
  | .call call :: events => call :: calls events
  | .elsewhere _ :: events => calls events

/-- The list holds the items of the queue, and `dequeue_front` returned what the queue gave. -/
structure Holds (q : Queue) (fifo : Fifo ℕ) : Prop where
  linked : Linked q.nodes q.list
  values_eq : q.nodes.values q.list = fifo.items
  returned_eq : q.returned = fifo.given

variable {nm : NodeMemory} {l : NodeList} {q : Queue} {fifo : Fifo ℕ}

theorem values_length (h : Linked nm l) : (nm.values l).length = l.size := by
  rw [values, List.length_map, h.full]

/-- Taken out and not freed, the first node stays as it is. -/
theorem dequeue_linked (h : Linked nm l) (hsize : l.size ≠ 0) :
    ∃ n, (dequeue l nm).1 = some n ∧
      nm.values l = ((dequeue l nm).2.2.nodes n).value :: (dequeue l nm).2.2.values (dequeue l nm).2.1 ∧
      Linked (dequeue l nm).2.2 (dequeue l nm).2.1 := by
  obtain ⟨n, hn, hvalues, hmoves⟩ := dequeueFront_spec h hsize
  unfold dequeue
  rw [if_neg hsize]
  generalize dequeueFront l nm = after at *
  have hkept : ∀ x ∈ (after.2.2.nodeFree n).cells after.2.1,
      after.2.2.nodes x = (after.2.2.nodeFree n).nodes x ∧ x ∈ after.2.2.used := by
    intro x hx
    obtain ⟨hne, hused⟩ := Finset.mem_erase.1 (hmoves.linked.used x hx)
    exact ⟨(Function.update_of_ne hne _ _).symm, hused⟩
  obtain ⟨hlinked, -, hsame⟩ := hmoves.linked.frame hkept
  exact ⟨n, hn, by rw [hsame, hvalues], hlinked⟩

theorem Holds.step (h : q.Holds fifo) (event : QueueEvent) (hsupplied : q.Supplied event) :
    (Queue.step event q).Holds (run Fifo.step fifo (calls [event])) := by
  obtain ⟨hlinked, hvalues, hreturned⟩ := h
  rcases event with (item | _) | nodes
  · obtain ⟨hmoves, hnew, -⟩ := enqueueTail_spec hlinked hsupplied
    exact ⟨hmoves.linked, hnew.trans (by rw [hvalues]; rfl), hreturned⟩
  · by_cases hsize : q.list.size = 0
    · have hnil : fifo.items = [] := by rw [← hvalues, values, chain, hsize]; rfl
      have hstay : dequeue q.list q.nodes = (none, q.list, q.nodes) := if_pos hsize
      have hnext : Fifo.step .dequeue fifo = ⟨[], fifo.given ++ [none]⟩ := by
        simp only [Fifo.step, hnil, List.tail_nil, List.head?_nil]
      rw [calls, calls, run_cons, run_nil, hnext]
      simp only [Queue.step, hstay]
      exact ⟨hlinked, hvalues.trans hnil, congrArg (· ++ [none]) hreturned⟩
    · obtain ⟨n, hn, hfront, hlinked'⟩ := dequeue_linked hlinked hsize
      rw [hvalues] at hfront
      have hnext : Fifo.step .dequeue fifo = ⟨(dequeue q.list q.nodes).2.2.values (dequeue q.list q.nodes).2.1,
          fifo.given ++ [some ((dequeue q.list q.nodes).2.2.nodes n).value]⟩ := by
        simp only [Fifo.step, hfront, List.tail_cons, List.head?_cons]
      rw [calls, calls, run_cons, run_nil, hnext]
      refine ⟨hlinked', rfl, ?_⟩
      simp only [Queue.step, hn, hreturned, Option.map_some]
  · obtain ⟨hlinked', -, hsame⟩ := hlinked.frame hsupplied
    exact ⟨hlinked', hsame.trans hvalues, hreturned⟩

theorem calls_cons (event : QueueEvent) (events : List QueueEvent) :
    calls (event :: events) = calls [event] ++ calls events := by
  cases event <;> rfl

theorem Holds.run (h : q.Holds fifo) {events : List QueueEvent} (hsupplied : Along Queue.step Supplied q events) :
    (Foundation.run Queue.step q events).Holds (Foundation.run Fifo.step fifo (calls events)) := by
  induction hsupplied generalizing fifo with
  | nil q => exact h
  | @cons q event events head _ ih =>
    rw [calls_cons, run_append]
    exact ih (h.step event head)

/-- With a pool that lasts, a list is a queue: `dequeue_front` returned nodes with the values put in, each once and in
order, `NULL` exactly when there was none, and `size` counts the values that are still in the list. -/
theorem queue_fifo (nodes : NodeMemory) (events : List QueueEvent)
    (hsupplied : Along Queue.step Supplied (start nodes) events) :
    let q := Foundation.run Queue.step (start nodes) events
    let fifo := Foundation.run Fifo.step Fifo.empty (calls events)
    q.returned = fifo.given ∧ q.nodes.values q.list = fifo.items ∧
      q.returned.reduceOption ++ q.nodes.values q.list = Fifo.entered (calls events) ∧
      (((dequeue q.list q.nodes).1 = none) ↔ q.nodes.values q.list = []) ∧
      q.list.size + q.returned.reduceOption.length = (Fifo.entered (calls events)).length := by
  intro q fifo
  have hstart : (start nodes).Holds Fifo.empty :=
    ⟨⟨rfl, List.nodup_nil, fun _ hn ↦ (List.not_mem_nil hn).elim, fun _ hn ↦ (nomatch hn), rfl⟩, rfl, rfl⟩
  obtain ⟨hlinked, hvalues, hreturned⟩ : q.Holds fifo := hstart.run hsupplied
  have hconserved : q.returned.reduceOption ++ q.nodes.values q.list = Fifo.entered (calls events) := by
    rw [hreturned, hvalues]
    exact Fifo.given_append_items_empty (calls events)
  refine ⟨hreturned, hvalues, hconserved, ?_, ?_⟩
  · have hlength := values_length hlinked
    by_cases hsize : q.list.size = 0
    · rw [hsize] at hlength
      exact iff_of_true (congrArg Prod.fst (if_pos hsize)) (List.length_eq_zero_iff.1 hlength)
    · obtain ⟨n, hn, hfront, -⟩ := dequeue_linked hlinked hsize
      rw [hn, hfront]
      exact iff_of_false (Option.some_ne_none n) (List.cons_ne_nil _ _)
  · rw [← hconserved, List.length_append, values_length hlinked, Nat.add_comm]

/-- The list empties and is filled again. -/
def refill : List QueueEvent :=
  [.call (.enqueue 5), .call (.enqueue 6), .call .dequeue, .call .dequeue, .call .dequeue, .call (.enqueue 7)]

theorem queue_fifo_refill :
    let q := Foundation.run Queue.step (start .init) refill
    let fifo := Foundation.run Fifo.step Fifo.empty (calls refill)
    q.returned = fifo.given ∧ q.nodes.values q.list = fifo.items ∧
      q.returned.reduceOption ++ q.nodes.values q.list = Fifo.entered (calls refill) ∧
      (((dequeue q.list q.nodes).1 = none) ↔ q.nodes.values q.list = []) ∧
      q.list.size + q.returned.reduceOption.length = (Fifo.entered (calls refill)).length := by
  refine queue_fifo .init refill ?_
  refine .cons ?_ (.cons ?_ (.cons trivial (.cons trivial (.cons trivial (.cons ?_ (.nil _))))))
  all_goals
    unfold Supplied
    decide +kernel

example : (Foundation.run Queue.step (start .init) refill).returned = [some 5, some 6, none] := by decide +kernel

end Queue

end GemOS
