import Mathlib.Data.List.Basic
import Mathlib.Tactic

/-!
# Rotation over a cycle of places

A scan of the places `1, …, n` that starts behind a place meets the others in a fixed cyclic order, the
starting place last; a scan that starts outside the cycle, at `0`, meets them in their usual order. `gap`
counts the places passed on the way. A scheduler that always serves the first willing place behind the
last one served gets closer to a place that stays willing with every service.
-/

namespace GemOS.Foundation

/-- The number of places between `start` and `place`, in scanning order. -/
def gap (n start place : ℕ) : ℕ := if start < place then place - start - 1 else n + place - start - 1

variable {n start place other : ℕ}

theorem gap_lt (hstart : start ≤ n) (hplace : 1 ≤ place ∧ place ≤ n) : gap n start place < n := by
  unfold gap
  split <;> omega

theorem gap_first (hn : 1 ≤ n) : gap n start (if start = n then 1 else start + 1) = 0 := by
  unfold gap
  split <;> split <;> omega

/-- The last place of a scan. -/
theorem gap_eq_pred (hstart : start ≤ n) (hplace : 1 ≤ place ∧ place ≤ n) :
    gap n start place + 1 = n ↔ place = start ∨ start = 0 ∧ place = n := by
  unfold gap
  split <;> omega

theorem gap_next (hstart : start ≤ n) (hplace : 1 ≤ place ∧ place ≤ n) (hlast : gap n start place + 1 ≠ n) :
    gap n start (if place = n then 1 else place + 1) = gap n start place + 1 := by
  rw [Ne, gap_eq_pred hstart hplace] at hlast
  unfold gap
  split <;> split <;> split <;> omega

theorem gap_inj (hstart : start ≤ n) (hplace : 1 ≤ place ∧ place ≤ n) (hother : 1 ≤ other ∧ other ≤ n)
    (heq : gap n start place = gap n start other) : place = other := by
  unfold gap at heq
  split at heq <;> split at heq <;> omega

/-- Serving a place before another one gets closer to the other. -/
theorem gap_trans (hstart : start ≤ n) (hplace : 1 ≤ place ∧ place ≤ n) (hother : 1 ≤ other ∧ other ≤ n)
    (hlt : gap n start place < gap n start other) : gap n place other < gap n start other := by
  unfold gap at *
  split at hlt <;> split at hlt <;> split <;> omega

/-- The place served, and no willing place before it. -/
structure ServesNext (n : ℕ) (willing : ℕ → Prop) (start place : ℕ) : Prop where
  mem : 1 ≤ place ∧ place ≤ n
  chosen : willing place
  first : ∀ other, 1 ≤ other ∧ other ≤ n → willing other → gap n start place ≤ gap n start other

/-- A place that stays willing while another one is served comes closer. -/
theorem ServesNext.gap_lt {willing : ℕ → Prop} (h : ServesNext n willing start place) (hstart : start ≤ n)
    (hother : 1 ≤ other ∧ other ≤ n) (hwilling : willing other) (hne : place ≠ other) :
    gap n place other < gap n start other := by
  apply gap_trans hstart h.mem hother
  apply lt_of_le_of_ne (h.first other hother hwilling)
  intro heq
  exact hne (gap_inj hstart h.mem hother heq)

/-- The places in scanning order. -/
def scanOrder (n start : ℕ) : List ℕ := List.range' (start + 1) (n - start) ++ List.range' 1 start

theorem mem_scanOrder (hstart : start ≤ n) : place ∈ scanOrder n start ↔ 1 ≤ place ∧ place ≤ n := by
  simp only [scanOrder, List.mem_append, List.mem_range'_1]
  omega

/-- A scan meets the places in the order of their gaps. -/
theorem pairwise_scanOrder (hstart : start ≤ n) :
    (scanOrder n start).Pairwise fun place other ↦ gap n start place < gap n start other := by
  apply List.pairwise_append.2
  refine ⟨?_, ?_, fun place hplace other hother ↦ ?_⟩
  · apply (List.pairwise_lt_range' 1).imp_of_mem
    intro place other hplace hother hlt
    rw [List.mem_range'_1] at hplace hother
    unfold gap
    split <;> split <;> omega
  · apply (List.pairwise_lt_range' 1).imp_of_mem
    intro place other hplace hother hlt
    rw [List.mem_range'_1] at hplace hother
    unfold gap
    split <;> split <;> omega
  · rw [List.mem_range'_1] at hplace hother
    unfold gap
    split <;> split <;> omega

/-- The place served is the first willing one in scanning order. -/
theorem ServesNext.find?_eq {willing : ℕ → Prop} [DecidablePred willing] (h : ServesNext n willing start place)
    (hstart : start ≤ n) : (scanOrder n start).find? (fun other ↦ decide (willing other)) = some place := by
  obtain ⟨before, after, hsplit⟩ := List.append_of_mem ((mem_scanOrder hstart).2 h.mem)
  have hordered := pairwise_scanOrder hstart
  rw [List.find?_eq_some_iff_append]
  refine ⟨decide_eq_true h.chosen, before, after, hsplit, fun other hother ↦ ?_⟩
  rw [hsplit, List.pairwise_append] at hordered
  have hlt := hordered.2.2 other hother place (List.mem_cons_self ..)
  have hmem : other ∈ scanOrder n start := hsplit ▸ List.mem_append_left _ hother
  rw [Bool.not_eq_true', decide_eq_false_iff_not]
  intro hwilling
  exact absurd (h.first other ((mem_scanOrder hstart).1 hmem) hwilling) (not_le.2 hlt)

end GemOS.Foundation
