import Mathlib.Data.List.Induction
import Mathlib.Data.List.Infix
import Mathlib.Logic.Function.Basic
import Mathlib.Tactic

/-!
# Forests of linked tables

A store maps a node and a slot to an entry, and `child` says which entries link to another node.
From a root, a path of slots leads to at most one node. The tables reached from a set of roots within
a fixed depth form a forest when no node is reached twice (`Separated`). In a forest a write to one
slot is seen at that slot only: all other entries, named by root and path, keep their value, also when
the write links a fresh empty table.
-/

namespace GemOS.Foundation.TableForest

variable {ν ι ε : Type*}

/-- The node a path of slots leads to. -/
def walk (child : ε → Option ν) (store : ν → ι → ε) : ν → List ι → Option ν
  | t, [] => some t
  | t, i :: path => (child (store t i)).bind fun u ↦ walk child store u path

/-- The entry at slot `i` of the table at the end of a path, zero where there is no table. -/
def entryAt [Zero ε] (child : ε → Option ν) (store : ν → ι → ε) (root : ν) (path : List ι) (i : ι) : ε :=
  (walk child store root path).elim 0 fun t ↦ store t i

section Walk

variable {child : ε → Option ν} {store : ν → ι → ε}

@[simp]
theorem walk_nil (t : ν) : walk child store t [] = some t := rfl

theorem walk_append (t : ν) (path rest : List ι) :
    walk child store t (path ++ rest) =
      (walk child store t path).bind fun u ↦ walk child store u rest := by
  induction path generalizing t with
  | nil => rfl
  | cons i path ih =>
    simp only [List.cons_append, walk, Option.bind_assoc]
    congr 1
    funext u
    exact ih u

theorem walk_concat (t : ν) (path : List ι) (i : ι) :
    walk child store t (path ++ [i]) =
      (walk child store t path).bind fun u ↦ child (store u i) := by
  rw [walk_append]
  congr 1
  funext u
  simp [walk]

variable [Zero ε]

theorem entryAt_of_walk {root t : ν} {path : List ι} (h : walk child store root path = some t) (i : ι) :
    entryAt child store root path i = store t i := by
  rw [entryAt, h]
  rfl

theorem entryAt_of_walk_none {root : ν} {path : List ι} (h : walk child store root path = none)
    (i : ι) : entryAt child store root path i = 0 := by
  rw [entryAt, h]
  rfl

@[simp]
theorem entryAt_nil (root : ν) (i : ι) : entryAt child store root [] i = store root i := rfl

theorem walk_concat_eq_child (hzero : child 0 = none) (root : ν) (path : List ι) (i : ι) :
    walk child store root (path ++ [i]) = child (entryAt child store root path i) := by
  rw [walk_concat]
  rcases hwalk : walk child store root path with _ | t
  · rw [entryAt_of_walk_none hwalk, hzero]
    rfl
  · rw [entryAt_of_walk hwalk]
    rfl

theorem walk_of_entryAt_ne_zero {root : ν} {path : List ι} {i : ι}
    (h : entryAt child store root path i ≠ 0) :
    ∃ t, walk child store root path = some t ∧ store t i = entryAt child store root path i := by
  rcases hwalk : walk child store root path with _ | t
  · exact absurd (entryAt_of_walk_none hwalk i) h
  · exact ⟨t, rfl, (entryAt_of_walk hwalk i).symm⟩

end Walk

/-- Within the depth, no node is reached twice. -/
def Separated (child : ε → Option ν) (depth : ℕ) (roots : ν → Prop) (store : ν → ι → ε) : Prop :=
  ∀ root root' path path' t, roots root → roots root' → path.length ≤ depth → path'.length ≤ depth →
    walk child store root path = some t → walk child store root' path' = some t →
      root = root' ∧ path = path'

/-- The tables of the forest. -/
def Node (child : ε → Option ν) (depth : ℕ) (roots : ν → Prop) (store : ν → ι → ε) (t : ν) : Prop :=
  ∃ root path, roots root ∧ path.length ≤ depth ∧ walk child store root path = some t

def setEntry [DecidableEq ν] [DecidableEq ι] (store : ν → ι → ε) (t : ν) (i : ι) (e : ε) :
    ν → ι → ε := fun t' i' ↦ if t' = t ∧ i' = i then e else store t' i'

section Roots

variable {child : ε → Option ν} {depth : ℕ} {roots : ν → Prop} {store store' : ν → ι → ε}

theorem Node.of_root {root : ν} (hroot : roots root) : Node child depth roots store root :=
  ⟨root, [], hroot, Nat.zero_le _, rfl⟩

theorem Node.mono {fewer : ν → Prop} {t : ν} (h : Node child depth fewer store t)
    (hsub : ∀ root, fewer root → roots root) : Node child depth roots store t := by
  obtain ⟨root, path, hroot, hlength, hwalk⟩ := h
  exact ⟨root, path, hsub root hroot, hlength, hwalk⟩

/-- A walk only reads tables of the forest. -/
theorem walk_congr (hsame : ∀ t, Node child depth roots store t → store' t = store t) {root : ν}
    (hroot : roots root) {path : List ι} (hlength : path.length ≤ depth) :
    walk child store' root path = walk child store root path := by
  induction path using List.reverseRecOn with
  | nil => rfl
  | append_singleton path i ih =>
    have hshort : path.length ≤ depth := by
      rw [List.length_append] at hlength
      omega
    rw [walk_concat, walk_concat, ih hshort]
    rcases hwalk : walk child store root path with _ | t
    · rfl
    · rw [Option.bind_some, Option.bind_some, hsame t ⟨root, path, hroot, hshort, hwalk⟩]

theorem entryAt_congr [Zero ε] (hsame : ∀ t, Node child depth roots store t → store' t = store t)
    {root : ν} (hroot : roots root) {path : List ι} (hlength : path.length ≤ depth) (i : ι) :
    entryAt child store' root path i = entryAt child store root path i := by
  rcases hwalk : walk child store root path with _ | t
  · rw [entryAt_of_walk_none hwalk, entryAt_of_walk_none ((walk_congr hsame hroot hlength).trans hwalk)]
  · rw [entryAt_of_walk hwalk, entryAt_of_walk ((walk_congr hsame hroot hlength).trans hwalk),
      hsame t ⟨root, path, hroot, hlength, hwalk⟩]

theorem Separated.congr (h : Separated child depth roots store)
    (hsame : ∀ t, Node child depth roots store t → store' t = store t) :
    Separated child depth roots store' := by
  intro root root' path path' t hroot hroot' hlength hlength' hwalk hwalk'
  rw [walk_congr hsame hroot hlength] at hwalk
  rw [walk_congr hsame hroot' hlength'] at hwalk'
  exact h root root' path path' t hroot hroot' hlength hlength' hwalk hwalk'

theorem node_congr (hsame : ∀ t, Node child depth roots store t → store' t = store t) (t : ν) :
    Node child depth roots store' t ↔ Node child depth roots store t := by
  refine exists_congr fun root ↦ exists_congr fun path ↦ and_congr_right fun hroot ↦
    and_congr_right fun hlength ↦ ?_
  rw [walk_congr hsame hroot hlength]

/-- A path from an empty table ends at once. -/
theorem walk_of_empty [Zero ε] (hzero : child 0 = none) {t : ν} (hempty : ∀ i, store t i = 0)
    {path : List ι} {u : ν} (hwalk : walk child store t path = some u) : path = [] ∧ u = t := by
  cases path with
  | nil => exact ⟨rfl, (Option.some.inj hwalk).symm⟩
  | cons i path =>
    rw [walk, hempty i, hzero] at hwalk
    exact absurd hwalk (by simp)

theorem entryAt_of_empty [Zero ε] (hzero : child 0 = none) {t : ν} (hempty : ∀ i, store t i = 0)
    (path : List ι) (i : ι) : entryAt child store t path i = 0 := by
  rcases hwalk : walk child store t path with _ | u
  · exact entryAt_of_walk_none hwalk i
  · rw [entryAt_of_walk hwalk, (walk_of_empty hzero hempty hwalk).2, hempty]

/-- An empty table that the forest does not use may be taken as a further root. -/
theorem Separated.add_root [Zero ε] (h : Separated child depth roots store) (hzero : child 0 = none)
    {g : ν} (hempty : ∀ i, store g i = 0) (hfresh : ¬ Node child depth roots store g) :
    Separated child depth (fun root ↦ roots root ∨ root = g) store := by
  have hapart : ∀ root path path' t, roots root → path.length ≤ depth →
      walk child store root path = some t → walk child store g path' = some t → False := by
    intro root path path' t hroot hlength hwalk hwalk'
    obtain ⟨-, rfl⟩ := walk_of_empty hzero hempty hwalk'
    exact hfresh ⟨root, path, hroot, hlength, hwalk⟩
  intro root root' path path' t hroot hroot' hlength hlength' hwalk hwalk'
  rcases hroot with hroot | rfl <;> rcases hroot' with hroot' | rfl
  · exact h root root' path path' t hroot hroot' hlength hlength' hwalk hwalk'
  · exact (hapart root path path' t hroot hlength hwalk hwalk').elim
  · exact (hapart root' path' path t hroot' hlength' hwalk' hwalk).elim
  · rw [(walk_of_empty hzero hempty hwalk).1, (walk_of_empty hzero hempty hwalk').1]
    exact ⟨rfl, rfl⟩

theorem node_add_root [Zero ε] (hzero : child 0 = none) {g : ν} (hempty : ∀ i, store g i = 0) (t : ν) :
    Node child depth (fun root ↦ roots root ∨ root = g) store t ↔
      Node child depth roots store t ∨ t = g := by
  constructor
  · rintro ⟨root, path, hroot | rfl, hlength, hwalk⟩
    · exact Or.inl ⟨root, path, hroot, hlength, hwalk⟩
    · exact Or.inr (walk_of_empty hzero hempty hwalk).2
  · rintro (h | rfl)
    · exact h.mono fun root hroot ↦ Or.inl hroot
    · exact Node.of_root (Or.inr rfl)

end Roots

section Write

variable [DecidableEq ν] [DecidableEq ι] {child : ε → Option ν} {depth : ℕ} {roots : ν → Prop}
  {store : ν → ι → ε} {root : ν} {path : List ι} {t : ν} {i : ι} {e : ε}

theorem setEntry_self (store : ν → ι → ε) (t : ν) (i : ι) (e : ε) : setEntry store t i e t i = e := by
  simp [setEntry]

theorem setEntry_of_ne {t' : ν} {i' : ι} (h : ¬ (t' = t ∧ i' = i)) :
    setEntry store t i e t' i' = store t' i' := if_neg h

/-- A write does not change where a path leads that does not pass through the written slot. -/
theorem walk_setEntry (h : Separated child depth roots store) (hroot : roots root)
    (hlength : path.length ≤ depth) (hwalk : walk child store root path = some t) {root' : ν}
    (hroot' : roots root') {path' : List ι} (hlength' : path'.length ≤ depth)
    (hoff : ¬ (root' = root ∧ path ++ [i] <+: path')) :
    walk child (setEntry store t i e) root' path' = walk child store root' path' := by
  induction path' using List.reverseRecOn with
  | nil => rfl
  | append_singleton path' j ih =>
    have hshort : path'.length ≤ depth := by
      rw [List.length_append] at hlength'
      omega
    have hoff' : ¬ (root' = root ∧ path ++ [i] <+: path') := fun hon ↦
      hoff ⟨hon.1, hon.2.trans (List.prefix_append _ _)⟩
    rw [walk_concat, walk_concat, ih hshort hoff']
    rcases hwalk' : walk child store root' path' with _ | u
    · rfl
    · have hne : ¬ (u = t ∧ j = i) := by
        rintro ⟨rfl, rfl⟩
        obtain ⟨rfl, rfl⟩ := h root' root path' path u hroot' hroot hshort hlength hwalk' hwalk
        exact hoff ⟨rfl, List.prefix_rfl⟩
      rw [Option.bind_some, Option.bind_some, setEntry_of_ne hne]

variable [Zero ε]

/-- What may be written to a slot of the forest: any entry in a table of the last level, and above
it an entry in place of one that links nothing, which links nothing itself or a fresh empty table. -/
structure Writable (child : ε → Option ν) (depth : ℕ) (roots : ν → Prop) (store : ν → ι → ε)
    (path : List ι) (t : ν) (i : ι) (e : ε) : Prop where
  old_leaf : path.length < depth → child (store t i) = none
  fresh : path.length < depth → ∀ g, child e = some g →
    (∀ j, store g j = 0) ∧ ¬ Node child depth roots store g

/-- Below the written slot there is at most the one fresh table. -/
theorem walk_setEntry_below (hzero : child 0 = none) (h : Separated child depth roots store)
    (hroot : roots root) (hlength : path.length < depth)
    (hwalk : walk child store root path = some t)
    (hwrite : Writable child depth roots store path t i e) (rest : List ι) :
    walk child (setEntry store t i e) root (path ++ [i] ++ rest) =
      if rest = [] then child e else none := by
  have hpath : walk child (setEntry store t i e) root path = some t := by
    rw [walk_setEntry h hroot hlength.le hwalk hroot hlength.le, hwalk]
    rintro ⟨-, hlead⟩
    simpa using hlead.length_le
  rw [walk_append, walk_concat, hpath, Option.bind_some, setEntry_self]
  cases rest with
  | nil => simp
  | cons j rest =>
    rcases hchild : child e with _ | g
    · rfl
    · obtain ⟨hempty, hfresh⟩ := hwrite.fresh hlength g hchild
      have hne : g ≠ t := by
        rintro rfl
        exact hfresh ⟨root, path, hroot, hlength.le, hwalk⟩
      rw [Option.bind_some, walk, setEntry_of_ne (fun hand ↦ hne hand.1), hempty, hzero]
      rfl

/-- A write is seen at the written slot only. -/
theorem entryAt_setEntry (hzero : child 0 = none) (h : Separated child depth roots store)
    (hroot : roots root) (hlength : path.length ≤ depth)
    (hwalk : walk child store root path = some t)
    (hwrite : Writable child depth roots store path t i e) {root' : ν} (hroot' : roots root')
    {path' : List ι} (hlength' : path'.length ≤ depth) (j : ι) :
    entryAt child (setEntry store t i e) root' path' j =
      if root' = root ∧ path' = path ∧ j = i then e else entryAt child store root' path' j := by
  by_cases hbelow : root' = root ∧ path ++ [i] <+: path'
  · obtain ⟨rfl, rest, rfl⟩ := hbelow
    have hdeep : path.length < depth := by
      simp only [List.length_append, List.length_singleton] at hlength'
      omega
    have hother : ¬ (root' = root' ∧ path ++ [i] ++ rest = path ∧ j = i) := by
      rintro ⟨-, hself, -⟩
      have := congrArg List.length hself
      simp at this
    have hnone : walk child store root' (path ++ [i] ++ rest) = none := by
      rw [walk_append, walk_concat, hwalk, Option.bind_some, hwrite.old_leaf hdeep]
      rfl
    rw [if_neg hother, entryAt_of_walk_none hnone, entryAt,
      walk_setEntry_below hzero h hroot hdeep hwalk hwrite]
    split
    · rcases hchild : child e with _ | g
      · rfl
      · obtain ⟨hempty, hfresh⟩ := hwrite.fresh hdeep g hchild
        have hne : ¬ (g = t ∧ j = i) := by
          rintro ⟨rfl, -⟩
          exact hfresh ⟨root', path, hroot, hdeep.le, hwalk⟩
        rw [Option.elim_some, setEntry_of_ne hne, hempty]
    · rfl
  · have hsame := walk_setEntry (e := e) h hroot hlength hwalk hroot' hlength' hbelow
    rcases hwalk' : walk child store root' path' with _ | u
    · have hother : ¬ (root' = root ∧ path' = path ∧ j = i) := by
        rintro ⟨rfl, rfl, -⟩
        rw [hwalk] at hwalk'
        exact absurd hwalk' (by simp)
      rw [if_neg hother, entryAt_of_walk_none hwalk', entryAt_of_walk_none (hsame.trans hwalk')]
    · rw [entryAt_of_walk hwalk', entryAt_of_walk (hsame.trans hwalk')]
      by_cases hut : u = t
      · subst u
        obtain ⟨rfl, rfl⟩ := h root' root path' path t hroot' hroot hlength' hlength hwalk' hwalk
        simp [setEntry]
      · have hother : ¬ (root' = root ∧ path' = path ∧ j = i) := by
          rintro ⟨rfl, rfl, -⟩
          rw [hwalk] at hwalk'
          exact hut (Option.some.inj hwalk').symm
        rw [if_neg hother, setEntry_of_ne fun hand ↦ hut hand.1]

/-- The tables after a write: the old ones, and the fresh one when the write links a table. -/
theorem walk_setEntry_cases (hzero : child 0 = none) (h : Separated child depth roots store)
    (hroot : roots root) (hlength : path.length ≤ depth)
    (hwalk : walk child store root path = some t)
    (hwrite : Writable child depth roots store path t i e) {root' : ν} (hroot' : roots root')
    {path' : List ι} (hlength' : path'.length ≤ depth) {u : ν}
    (hwalk' : walk child (setEntry store t i e) root' path' = some u) :
    walk child store root' path' = some u ∨
      (root' = root ∧ path' = path ++ [i] ∧ path.length < depth ∧ child e = some u) := by
  by_cases hbelow : root' = root ∧ path ++ [i] <+: path'
  · obtain ⟨rfl, rest, rfl⟩ := hbelow
    have hdeep : path.length < depth := by
      simp only [List.length_append, List.length_singleton] at hlength'
      omega
    rw [walk_setEntry_below hzero h hroot hdeep hwalk hwrite] at hwalk'
    split at hwalk'
    · rename_i hrest
      subst rest
      exact Or.inr ⟨rfl, by simp, hdeep, hwalk'⟩
    · exact absurd hwalk' (by simp)
  · rw [walk_setEntry h hroot hlength hwalk hroot' hlength' hbelow] at hwalk'
    exact Or.inl hwalk'

theorem Separated.setEntry (hzero : child 0 = none) (h : Separated child depth roots store)
    (hroot : roots root) (hlength : path.length ≤ depth)
    (hwalk : walk child store root path = some t)
    (hwrite : Writable child depth roots store path t i e) :
    Separated child depth roots (setEntry store t i e) := by
  intro first second path₁ path₂ u hfirst hsecond hlen₁ hlen₂ hwalk₁ hwalk₂
  have hcases₁ := walk_setEntry_cases hzero h hroot hlength hwalk hwrite hfirst hlen₁ hwalk₁
  have hcases₂ := walk_setEntry_cases hzero h hroot hlength hwalk hwrite hsecond hlen₂ hwalk₂
  rcases hcases₁ with hold₁ | ⟨rfl, rfl, hdeep, hchild⟩ <;>
    rcases hcases₂ with hold₂ | ⟨rfl, rfl, hdeep', hchild'⟩
  · exact h first second path₁ path₂ u hfirst hsecond hlen₁ hlen₂ hold₁ hold₂
  · exact absurd ⟨first, path₁, hfirst, hlen₁, hold₁⟩ (hwrite.fresh hdeep' u hchild').2
  · exact absurd ⟨second, path₂, hsecond, hlen₂, hold₂⟩ (hwrite.fresh hdeep u hchild).2
  · exact ⟨rfl, rfl⟩

theorem node_setEntry (hzero : child 0 = none) (h : Separated child depth roots store)
    (hroot : roots root) (hlength : path.length ≤ depth)
    (hwalk : walk child store root path = some t)
    (hwrite : Writable child depth roots store path t i e) {u : ν}
    (hnode : Node child depth roots (TableForest.setEntry store t i e) u) :
    Node child depth roots store u ∨ (path.length < depth ∧ child e = some u) := by
  obtain ⟨root', path', hroot', hlength', hwalk'⟩ := hnode
  rcases walk_setEntry_cases hzero h hroot hlength hwalk hwrite hroot' hlength' hwalk' with
    hold | ⟨-, -, hdeep, hchild⟩
  · exact Or.inl ⟨root', path', hroot', hlength', hold⟩
  · exact Or.inr ⟨hdeep, hchild⟩

end Write

end GemOS.Foundation.TableForest
