import Mathlib.Data.List.Pairwise
import Mathlib.Tactic

/-!
# Tours of a tree

From a node of some level the slots that are in use lead to nodes of the level below. The tour lists the nodes in the
order in which a recursion leaves them, each with the path of slots to it. No path is listed twice, and the paths
listed are those that lead somewhere.
-/

namespace GemOS.Foundation

variable {ν ι : Type*} (slots : ℕ → ν → List ι) (next : ν → ι → ν)

/-- The nodes below a node, with their paths, each after those below it. -/
def tour : ℕ → ν → List (List ι × ν)
  | 0, t => [([], t)]
  | level + 1, t =>
    ((slots (level + 1) t).flatMap fun i ↦ (tour level (next t i)).map fun p ↦ (i :: p.1, p.2)) ++ [([], t)]

/-- A path of slots in use leads from a node of a level to another node. -/
inductive Leads : ℕ → ν → List ι → ν → Prop
  | here (level : ℕ) (t : ν) : Leads level t [] t
  | step {level : ℕ} {t u : ν} {i : ι} {path : List ι} (slot : i ∈ slots (level + 1) t)
      (rest : Leads level (next t i) path u) : Leads (level + 1) t (i :: path) u

/-- No node above the last level is reached by two paths. -/
def Unshared (level : ℕ) (t : ν) : Prop :=
  ∀ path path' u, Leads slots next level t path u → Leads slots next level t path' u →
    path.length < level → path'.length < level → path = path'

variable {slots next} {level : ℕ} {t u : ν} {i : ι} {path : List ι}

theorem Leads.length_le (h : Leads slots next level t path u) : path.length ≤ level := by
  induction h with
  | here => exact Nat.zero_le _
  | step _ _ ih => exact Nat.succ_le_succ ih

theorem leads_nil_iff : Leads slots next level t [] u ↔ u = t := by
  constructor
  · intro h
    cases h
    rfl
  · rintro rfl
    exact .here level u

theorem leads_cons_iff :
    Leads slots next (level + 1) t (i :: path) u ↔ i ∈ slots (level + 1) t ∧
      Leads slots next level (next t i) path u := by
  constructor
  · intro h
    cases h with
    | step slot rest => exact ⟨slot, rest⟩
  · rintro ⟨slot, rest⟩
    exact .step slot rest

/-- The tour visits exactly the nodes that paths lead to. -/
theorem mem_tour_iff : (path, u) ∈ tour slots next level t ↔ Leads slots next level t path u := by
  induction level generalizing t path with
  | zero =>
    constructor
    · intro h
      obtain ⟨rfl, rfl⟩ := Prod.mk.inj (List.mem_singleton.1 h)
      exact .here 0 u
    · intro h
      cases h
      exact List.mem_singleton_self _
  | succ level ih =>
    simp only [tour, List.mem_append, List.mem_flatMap, List.mem_map, List.mem_singleton, Prod.mk.injEq, Prod.exists]
    constructor
    · rintro (⟨i, hi, path, u, hmem, rfl, rfl⟩ | ⟨rfl, rfl⟩)
      · exact .step hi (ih.1 hmem)
      · exact .here _ _
    · intro h
      cases h with
      | here => exact Or.inr ⟨rfl, rfl⟩
      | step slot rest => exact Or.inl ⟨_, slot, _, _, ih.2 rest, rfl, rfl⟩

/-- It visits each path once. -/
theorem tour_nodup (hslots : ∀ level t, (slots level t).Nodup) (level : ℕ) (t : ν) :
    ((tour slots next level t).map Prod.fst).Nodup := by
  induction level generalizing t with
  | zero => exact List.nodup_singleton _
  | succ level ih =>
    have hsub : ∀ i, ((tour slots next level (next t i)).map fun p ↦ (i :: p.1, p.2)).map Prod.fst =
        ((tour slots next level (next t i)).map Prod.fst).map (i :: ·) := fun i ↦ by
      rw [List.map_map, List.map_map]
      rfl
    rw [tour, List.map_append, List.map_flatMap]
    simp only [hsub]
    rw [List.map_singleton, List.nodup_append]
    refine ⟨?_, List.nodup_singleton _, ?_⟩
    · rw [List.nodup_flatMap]
      refine ⟨fun i _ ↦ (ih (next t i)).map fun path path' heq ↦ (List.cons.inj heq).2, ?_⟩
      refine (hslots (level + 1) t).imp fun hne path hmem hmem' ↦ ?_
      obtain ⟨_, -, rfl⟩ := List.mem_map.1 hmem
      obtain ⟨_, -, heq⟩ := List.mem_map.1 hmem'
      exact hne (List.cons.inj heq).1.symm
    · rintro path hmem path' hmem' rfl
      obtain rfl := List.mem_singleton.1 hmem'
      obtain ⟨i, -, hmem⟩ := List.mem_flatMap.1 hmem
      obtain ⟨_, -, heq⟩ := List.mem_map.1 hmem
      exact List.cons_ne_nil _ _ heq

/-- The last step of a path. -/
theorem leads_concat_iff :
    Leads slots next level t (path ++ [i]) u ↔
      ∃ s, Leads slots next level t path s ∧ path.length < level ∧
        i ∈ slots (level - path.length) s ∧ u = next s i := by
  induction path generalizing level t with
  | nil =>
    cases level with
    | zero =>
      refine iff_of_false (fun h ↦ ?_) fun ⟨_, _, hlt, _⟩ ↦ Nat.not_lt_zero _ hlt
      cases h
    | succ level =>
      rw [List.nil_append, leads_cons_iff, leads_nil_iff]
      constructor
      · rintro ⟨slot, rfl⟩
        exact ⟨t, .here _ t, Nat.succ_pos level, slot, rfl⟩
      · rintro ⟨s, hs, -, slot, rfl⟩
        obtain rfl := leads_nil_iff.1 hs
        exact ⟨slot, rfl⟩
  | cons j path ih =>
    cases level with
    | zero =>
      refine iff_of_false (fun h ↦ ?_) fun ⟨_, _, hlt, _⟩ ↦ Nat.not_lt_zero _ hlt
      cases h
    | succ level =>
      have hlevel : level + 1 - (j :: path).length = level - path.length := by
        rw [List.length_cons, Nat.add_sub_add_right]
      rw [List.cons_append, leads_cons_iff, ih, hlevel]
      simp only [leads_cons_iff, List.length_cons, Nat.add_lt_add_iff_right]
      constructor
      · rintro ⟨slot, s, hs, hrest⟩
        exact ⟨s, ⟨slot, hs⟩, hrest⟩
      · rintro ⟨s, ⟨slot, hs⟩, hrest⟩
        exact ⟨slot, s, hs, hrest⟩

namespace Unshared

variable {j : ι} {path' : List ι}

theorem below (h : Unshared slots next (level + 1) t) (hi : i ∈ slots (level + 1) t) :
    Unshared slots next level (next t i) := fun path path' u hpath hpath' hlt hlt' ↦
  (List.cons.inj (h (i :: path) (i :: path') u (.step hi hpath) (.step hi hpath') (Nat.succ_lt_succ hlt)
    (Nat.succ_lt_succ hlt'))).2

/-- No path comes back. -/
theorem not_self (h : Unshared slots next (level + 1) t) (hi : i ∈ slots (level + 1) t)
    (hpath : Leads slots next level (next t i) path t) (hlt : path.length < level) : False :=
  List.cons_ne_nil _ _ (h (i :: path) [] t (.step hi hpath) (.here _ t) (Nat.succ_lt_succ hlt) (Nat.succ_pos level))

/-- What lies below one slot does not lie below another. -/
theorem slot_eq (h : Unshared slots next (level + 1) t) (hi : i ∈ slots (level + 1) t) (hj : j ∈ slots (level + 1) t)
    (hpath : Leads slots next level (next t i) path u) (hpath' : Leads slots next level (next t j) path' u)
    (hlt : path.length < level) (hlt' : path'.length < level) : i = j :=
  (List.cons.inj (h (i :: path) (j :: path') u (.step hi hpath) (.step hj hpath') (Nat.succ_lt_succ hlt)
    (Nat.succ_lt_succ hlt'))).1

end Unshared

end GemOS.Foundation
