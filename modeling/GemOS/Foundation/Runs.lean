import Mathlib.Data.List.Basic
import Mathlib.Order.Basic

/-!
# Runs of a deterministic machine

A machine is a step function on states, driven by events. `Along` holds of a run when a condition
holds of each event in the state before its step; what each such step preserves, the whole run
preserves.
-/

namespace GemOS.Foundation

variable {σ ε : Type*} (step : ε → σ → σ)

/-- The state after a list of events. -/
def run (s : σ) (events : List ε) : σ := events.foldl (fun s event ↦ step event s) s

/-- The condition holds before each step. -/
inductive Along (C : σ → ε → Prop) : σ → List ε → Prop
  | nil (s : σ) : Along C s []
  | cons {s : σ} {event : ε} {events : List ε} (head : C s event)
      (tail : Along C (step event s) events) : Along C s (event :: events)

/-- How often a condition holds before a step of the run. -/
def countAlong (C : ε → σ → Prop) [∀ event s, Decidable (C event s)] : σ → List ε → ℕ
  | _, [] => 0
  | s, event :: events => (if C event s then 1 else 0) + countAlong C (step event s) events

/-- A machine beside which an observer keeps a record of what each event finds. -/
def watch {τ : Type*} (see : ε → σ → τ → τ) (event : ε) (s : σ × τ) : σ × τ := (step event s.1, see event s.1 s.2)

variable {step}

@[simp]
theorem run_nil (s : σ) : run step s [] = s := rfl

@[simp]
theorem run_cons (s : σ) (event : ε) (events : List ε) :
    run step s (event :: events) = run step (step event s) events := rfl

theorem run_append (s : σ) (events later : List ε) :
    run step s (events ++ later) = run step (run step s events) later := List.foldl_append

theorem Along.of_append {C : σ → ε → Prop} {s : σ} {events later : List ε}
    (h : Along step C s (events ++ later)) : Along step C s events ∧ Along step C (run step s events) later := by
  induction events generalizing s with
  | nil => exact ⟨.nil s, h⟩
  | cons event events ih =>
    cases h with
    | cons head tail => exact ⟨.cons head (ih tail).1, (ih tail).2⟩

theorem along_cons_iff {C : σ → ε → Prop} {s : σ} {event : ε} {events : List ε} :
    Along step C s (event :: events) ↔ C s event ∧ Along step C (step event s) events := by
  constructor
  · intro h
    cases h with
    | cons head tail => exact ⟨head, tail⟩
  · rintro ⟨head, tail⟩
    exact .cons head tail

theorem along_append_iff {C : σ → ε → Prop} {s : σ} {events later : List ε} :
    Along step C s (events ++ later) ↔ Along step C s events ∧ Along step C (run step s events) later := by
  refine ⟨Along.of_append, fun h ↦ ?_⟩
  induction events generalizing s with
  | nil => exact h.2
  | cons event events ih =>
    obtain ⟨head, tail⟩ := along_cons_iff.1 h.1
    exact .cons head (ih ⟨tail, h.2⟩)

instance {C : σ → ε → Prop} [∀ s event, Decidable (C s event)] :
    (s : σ) → (events : List ε) → Decidable (Along step C s events)
  | s, [] => isTrue (.nil s)
  | s, event :: events =>
    if hhead : C s event then
      match instDecidableAlong (step event s) events with
      | isTrue htail => isTrue (.cons hhead htail)
      | isFalse htail => isFalse fun h ↦ by
        cases h with
        | cons _ tail => exact htail tail
    else isFalse fun h ↦ by
      cases h with
      | cons head _ => exact hhead head

/-- A condition that fails somewhere in a run fails first after some part of it. -/
theorem along_iff {C : σ → ε → Prop} {s : σ} {events : List ε} :
    Along step C s events ↔ ∀ before event later, events = before ++ event :: later →
      C (run step s before) event := by
  constructor
  · rintro h before event later rfl
    cases h.of_append.2 with
    | cons head _ => exact head
  · intro h
    induction events generalizing s with
    | nil => exact .nil s
    | cons event events ih =>
      refine .cons (h [] event events rfl) (ih fun before event' later hsplit ↦ ?_)
      exact h (event :: before) event' later (by rw [hsplit]; rfl)

theorem Along.mono {C C' : σ → ε → Prop} {s : σ} {events : List ε} (h : Along step C s events)
    (hC : ∀ s event, C s event → C' s event) : Along step C' s events := by
  induction h with
  | nil s => exact .nil s
  | cons head _ ih => exact .cons (hC _ _ head) ih

theorem Along.and {C C' : σ → ε → Prop} {s : σ} {events : List ε} (h : Along step C s events)
    (h' : Along step C' s events) : Along step (fun s event ↦ C s event ∧ C' s event) s events := by
  induction h with
  | nil s => exact .nil s
  | cons head _ ih =>
    obtain ⟨head', tail'⟩ := along_cons_iff.1 h'
    exact .cons ⟨head, head'⟩ (ih tail')

/-- Two conditions that agree where an invariant holds agree along the run, when the first keeps the invariant. -/
theorem along_congr {C C' : σ → ε → Prop} {I : σ → Prop} {s : σ} (events : List ε) (hstart : I s)
    (hiff : ∀ s event, I s → (C s event ↔ C' s event)) (hstep : ∀ s event, I s → C s event → I (step event s)) :
    Along step C s events ↔ Along step C' s events := by
  induction events generalizing s with
  | nil => exact iff_of_true (.nil s) (.nil s)
  | cons event events ih =>
    constructor
    · intro h
      cases h with
      | cons head tail => exact .cons ((hiff s event hstart).1 head) ((ih (hstep s event hstart head)).1 tail)
    · intro h
      cases h with
      | cons head tail =>
        have hhead := (hiff s event hstart).2 head
        exact .cons hhead ((ih (hstep s event hstart hhead)).2 tail)

/-- An invariant that each step under the condition preserves holds after the run. -/
theorem Along.invariant {C : σ → ε → Prop} {I : σ → Prop} {s : σ} {events : List ε}
    (h : Along step C s events) (hstart : I s)
    (hstep : ∀ s event, I s → C s event → I (step event s)) : I (run step s events) := by
  induction h with
  | nil s => exact hstart
  | cons head _ ih => exact ih (hstep _ _ hstart head)

/-- When each step in a good state leads to a good state exactly under a condition, as long as the run meets an
assumption, a run that meets it has only good states exactly under that condition. -/
theorem good_iff_along_under {A C : σ → ε → Prop} {I G : σ → Prop} {s : σ} {events : List ε}
    (hI : ∀ s event, I s → A s event → I (step event s))
    (hstep : ∀ s event, I s → A s event → G s → (G (step event s) ↔ C s event)) (hstart : I s) (hgood : G s)
    (hassumed : Along step A s events) :
    (∀ before later, events = before ++ later → G (run step s before)) ↔ Along step C s events := by
  induction events generalizing s with
  | nil =>
    refine ⟨fun _ ↦ .nil s, fun _ before later hsplit ↦ ?_⟩
    obtain rfl := (List.append_eq_nil_iff.1 hsplit.symm).1
    exact hgood
  | cons event events ih =>
    obtain ⟨hhere, hafter⟩ : A s event ∧ Along step A (step event s) events := by
      cases hassumed with
      | cons head tail => exact ⟨head, tail⟩
    constructor
    · intro h
      have hnext : G (step event s) := h [event] events rfl
      refine .cons ((hstep s event hstart hhere hgood).1 hnext) ?_
      refine (ih (hI _ _ hstart hhere) hnext hafter).1 fun before later hsplit ↦ ?_
      exact h (event :: before) later (by rw [hsplit]; rfl)
    · intro h before later hsplit
      cases h with
      | cons head tail =>
        have hnext : G (step event s) := (hstep s event hstart hhere hgood).2 head
        cases before with
        | nil => exact hgood
        | cons event' before =>
          obtain ⟨rfl, hsplit'⟩ := List.cons.inj hsplit
          exact (ih (hI _ _ hstart hhere) hnext hafter).2 tail before later hsplit'

/-- A rank that is positive and that every counted step lowers, as long as the run goes on, bounds the count. -/
theorem Along.countAlong_le {C : ε → σ → Prop} [∀ event s, Decidable (C event s)] {A : σ → ε → Prop} {I : σ → Prop}
    {rank : σ → ℕ} {s : σ} {events : List ε} (h : Along step A s events) (hstart : I s)
    (hpos : ∀ s, I s → 0 < rank s)
    (hstep : ∀ s event event', I s → A s event → A (step event s) event' →
      I (step event s) ∧ rank (step event s) + (if C event s then 1 else 0) ≤ rank s) :
    countAlong step C s events ≤ rank s := by
  induction h with
  | nil s => exact Nat.zero_le _
  | @cons s event events head tail ih =>
    rw [countAlong]
    cases tail with
    | nil =>
      have hone := hpos s hstart
      rw [countAlong]
      split <;> omega
    | @cons _ event' _ next rest =>
      obtain ⟨hnext, hle⟩ := hstep s event event' hstart head next
      have hcount := ih hnext
      omega

/-- An assumption that always holds can be left out. -/
theorem good_iff_along {C : σ → ε → Prop} {I G : σ → Prop} {s : σ} (hI : ∀ s event, I s → I (step event s))
    (hstep : ∀ s event, I s → G s → (G (step event s) ↔ C s event)) (hstart : I s) (hgood : G s)
    (events : List ε) :
    (∀ before later, events = before ++ later → G (run step s before)) ↔ Along step C s events := by
  have htrue : Along step (fun _ _ ↦ True) s events := along_iff.2 fun _ _ _ _ ↦ trivial
  exact good_iff_along_under (fun s event hs _ ↦ hI s event hs) (fun s event hs _ ↦ hstep s event hs) hstart hgood htrue

section Agreement

variable {step' : ε → σ → σ} {C : σ → ε → Prop} {s : σ} {events : List ε}

/-- Two machines that agree on the events of a run end in the same state. -/
theorem run_of_agree (h : Along step' (fun s event ↦ step' event s = step event s) s events) :
    run step' s events = run step s events := by
  induction h with
  | nil s => rfl
  | @cons s event events head _ ih => rw [run_cons, ih, run_cons, head]

theorem along_of_agree (h : Along step' (fun s event ↦ step' event s = step event s) s events) :
    Along step' C s events ↔ Along step C s events := by
  induction h with
  | nil s => exact iff_of_true (.nil s) (.nil s)
  | @cons s event events head _ ih => rw [along_cons_iff, along_cons_iff, ih, head]

theorem countAlong_of_agree {C : ε → σ → Prop} [∀ event s, Decidable (C event s)]
    (h : Along step' (fun s event ↦ step' event s = step event s) s events) :
    countAlong step' C s events = countAlong step C s events := by
  induction h with
  | nil s => rfl
  | @cons s event events head _ ih => rw [countAlong, ih, countAlong, head]

/-- They have the same states on the way. -/
theorem forall_before_of_agree {G : σ → Prop} (h : Along step' (fun s event ↦ step' event s = step event s) s events) :
    (∀ before later, events = before ++ later → G (run step' s before)) ↔
      ∀ before later, events = before ++ later → G (run step s before) := by
  have hsame : ∀ before later, events = before ++ later → run step' s before = run step s before := by
    rintro before later rfl
    exact run_of_agree h.of_append.1
  constructor
  · intro hgood before later hsplit
    exact hsame before later hsplit ▸ hgood before later hsplit
  · intro hgood before later hsplit
    exact (hsame before later hsplit).symm ▸ hgood before later hsplit

end Agreement

section Order

variable [Preorder σ]

theorem le_run (hup : ∀ event s, s ≤ step event s) (s : σ) (events : List ε) :
    s ≤ run step s events := by
  induction events generalizing s with
  | nil => exact le_rfl
  | cons event events ih => exact (hup event s).trans (ih (step event s))

/-- When steps only go up and `G` is inherited downwards, a run that ends in `G` had `G` throughout,
and each step may use it. -/
theorem Along.invariant_under {C : σ → ε → Prop} {G I : σ → Prop} {s : σ} {events : List ε}
    (hup : ∀ event s, s ≤ step event s) (hG : ∀ {s s' : σ}, s ≤ s' → G s' → G s)
    (h : Along step C s events) (hstart : I s)
    (hstep : ∀ s event, I s → C s event → G (step event s) → I (step event s))
    (hend : G (run step s events)) : I (run step s events) := by
  induction h with
  | nil s => exact hstart
  | cons head _ ih => exact ih (hstep _ _ hstart head (hG (le_run hup _ _) hend)) hend

end Order

end GemOS.Foundation
