import GemOS.Foundation.Runs
import Mathlib.Data.List.ReduceOption

/-!
# First in, first out

The queue that a list with `enqueue` and `dequeue` is meant to be: its items in order, and what each `dequeue` gave so
far. What was given and what is still in the queue are together what was put in, in the same order.
-/

namespace GemOS.Foundation

variable {α : Type*}

inductive FifoCall (α : Type*) where
  | enqueue (item : α)
  | dequeue
  deriving DecidableEq

structure Fifo (α : Type*) where
  items : List α
  /-- What each `dequeue` gave, `none` for an empty queue. -/
  given : List (Option α)

namespace Fifo

def empty : Fifo α := ⟨[], []⟩

def step : FifoCall α → Fifo α → Fifo α
  | .enqueue item, q => ⟨q.items ++ [item], q.given⟩
  | .dequeue, q => ⟨q.items.tail, q.given ++ [q.items.head?]⟩

/-- The items put in, in order. -/
def entered : List (FifoCall α) → List α
  | [] => []
  | .enqueue item :: calls => item :: entered calls
  | .dequeue :: calls => entered calls

theorem given_append_items (calls : List (FifoCall α)) (q : Fifo α) :
    (run step q calls).given.reduceOption ++ (run step q calls).items = q.given.reduceOption ++
      q.items ++ entered calls := by
  induction calls generalizing q with
  | nil => rw [run_nil, entered, List.append_nil]
  | cons call calls ih =>
    rw [run_cons, ih]
    cases call with
    | enqueue item => simp only [step, entered, List.append_assoc, List.singleton_append]
    | dequeue =>
      simp only [step, entered, List.reduceOption_append]
      cases q.items <;> simp [List.reduceOption]

/-- Nothing is lost, doubled or overtaken. -/
theorem given_append_items_empty (calls : List (FifoCall α)) :
    (run step empty calls).given.reduceOption ++ (run step empty calls).items = entered calls :=
  given_append_items calls empty

end Fifo

end GemOS.Foundation
