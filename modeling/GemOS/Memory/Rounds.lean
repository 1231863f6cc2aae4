import GemOS.Memory.Chunks

/-!
# Rounds of `os_alloc` and `os_free`

A client that allocates and frees the same size over and over gets its chunk back when both calls agree on the class.
`os_alloc` rounds a size up to a class, `os_free` down: they agree on powers of two from 32 on. For the other sizes
each round takes a chunk from one class and gives it to another, and once the first has no recycled chunk left, each
round cuts a new one.
-/

namespace GemOS

open Foundation Memory

namespace ObjectCaches

variable {s : ObjectCaches} {size n : ℕ}

/-- `p = os_alloc(size)` and `os_free(p, size)`. -/
def round (size : ℕ) (s : ObjectCaches) : ObjectCaches := osFree (osAlloc size s).1 size (osAlloc size s).2

def rounds (size : ℕ) : ℕ → ObjectCaches → ObjectCaches
  | 0, s => s
  | n + 1, s => round size (rounds size n s)

/-- The next `os_alloc` takes neither a frame nor a further chunk of one. -/
def TakesNothing (size : ℕ) (s : ObjectCaches) : Prop :=
  (osAlloc size s).2.mem = s.mem ∧ ∀ k, ((osAlloc size s).2.chunks k).freePosition = (s.chunks k).freePosition

/-- Both calls agree on the class of a size exactly when it is the size of a class. -/
theorem class_eq_iff (hpos : 1 ≤ size) (hle : size ≤ 2048) :
    allocClass size = freeClass size ↔ ∃ k, 5 ≤ k ∧ size = 2 ^ k := by
  have hiff : allocClass size = freeClass size ↔ 1 <<< freeClass size = size := by
    change (if 1 <<< freeClass size ≠ size then freeClass size + 1 else freeClass size) = freeClass size ↔ _
    split
    · rename_i hne
      exact iff_of_false (Nat.succ_ne_self _) hne
    · rename_i heq
      exact iff_of_true rfl (not_not.1 heq)
  rw [hiff, Nat.shiftLeft_eq, Nat.one_mul]
  constructor
  · exact fun heq ↦ ⟨freeClass size, (class_spec hpos hle).2.2.2.1.1, heq.symm⟩
  · rintro ⟨k, hk, rfl⟩
    have hlt : k < 12 := (Nat.pow_lt_pow_iff_right (by norm_num)).1 (lt_of_le_of_lt hle (by norm_num : 2048 < 2 ^ 12))
    interval_cases k <;> decide

theorem osAlloc_ranOut (size : ℕ) (s : ObjectCaches) : (osAlloc size s).2.nodes.ranOut = s.nodes.ranOut := by
  unfold osAlloc
  split
  · rfl
  · simp only
    split
    · exact NodeMemory.setLink_ranOut _ _ _
    · split <;> rfl

/-- The pool does not recover. -/
theorem ranOut_enqueueTail {item : ℕ} {l : NodeList} {nm : NodeMemory} (h : (nm.enqueueTail item l).2.ranOut = false) :
    nm.ranOut = false := by
  have hspec : nm.nodeAlloc.2.ranOut = false → _ := NodeMemory.nodeAlloc_spec
  refine (hspec ?_).1
  unfold NodeMemory.enqueueTail at h
  rcases halloc : nm.nodeAlloc with ⟨_ | n, nm₁⟩
  · rw [halloc] at h
    exact h
  · rw [halloc] at h
    simp only at h
    split at h
    · simp only [NodeMemory.setLink_ranOut] at h
      cases hhead : l.head with
      | some _ =>
        rw [hhead] at h
        exact h
      | none =>
        rw [hhead] at h
        exact (NodeMemory.nodeAlloc_spec (NodeMemory.nodeAlloc_spec h).1).1
    · simpa only [NodeMemory.setLink_ranOut] using h

theorem osFree_ranOut {ptr : ℕ} (h : (osFree ptr size s).nodes.ranOut = false) : s.nodes.ranOut = false := by
  unfold osFree at h
  split at h
  · exact h
  · exact ranOut_enqueueTail h

/-- `os_alloc` keeps the free lists in order, whatever the size. -/
theorem lists_osAlloc (hlists : s.Lists) (size : ℕ) : (osAlloc size s).2.Lists := by
  by_cases hsize : size = 0 ∨ size > 2048
  · unfold osAlloc
    rw [if_pos hsize]
    exact hlists
  · cases hfront : s.recycled (allocClass size) with
    | cons p rest => exact (osAlloc_recycled hlists (by omega) (by omega) hfront).2.2.1
    | nil =>
      rw [osAlloc_cut hlists (by omega) (by omega) hfront]
      split <;> exact (lists_update hlists _ _ _ _).1

theorem lists_osFree (hlists : s.Lists) {ptr : ℕ} (hran : (osFree ptr size s).nodes.ranOut = false) :
    (osFree ptr size s).Lists := by
  by_cases hsize : size = 0 ∨ size > 2048
  · unfold osFree
    rw [if_pos hsize]
    exact hlists
  · exact (osFree_spec hlists (by omega) (by omega) hran).2.1

/-- The next call takes nothing exactly when its class has a recycled chunk. -/
theorem takesNothing_iff (hlists : s.Lists) (hpos : 1 ≤ size) (hle : size ≤ 2048) :
    TakesNothing size s ↔ s.recycled (allocClass size) ≠ [] := by
  cases hfront : s.recycled (allocClass size) with
  | cons p rest =>
    obtain ⟨-, hmem, -, hchunks, -⟩ := osAlloc_recycled hlists hpos hle hfront
    exact iff_of_true ⟨hmem, fun k ↦ (hchunks k).1⟩ (List.cons_ne_nil p rest)
  | nil =>
    refine iff_of_false ?_ (not_not.2 rfl)
    rintro ⟨-, hchunks⟩
    have hposition := hchunks (allocClass size - 5)
    rw [osAlloc_cut hlists hpos hle hfront] at hposition
    split at hposition
    · rename_i hpast
      simp only [Function.update_self] at hposition
      -- a frame is given up only past its second position, and the first of the new one is taken
      have hshift : 2 ≤ pageSize >>> allocClass size := by
        obtain ⟨hlow, hhigh⟩ := (class_spec hpos hle).1
        simp only [Nat.shiftRight_eq_div_pow, pageSize]
        exact (Nat.le_div_iff_mul_le (by positivity)).2 (by
          have := Nat.pow_le_pow_right (show 0 < 2 by norm_num) hhigh
          omega)
      omega
    · simp only [Function.update_self] at hposition
      omega

theorem round_ranOut (h : (round size s).nodes.ranOut = false) : s.nodes.ranOut = false :=
  (osAlloc_ranOut size s).symm.trans (osFree_ranOut h)

/-- What one round does to the class that the size is served from. -/
theorem round_spec (hlists : s.Lists) (hpos : 1 ≤ size) (hle : size ≤ 2048)
    (hran : (round size s).nodes.ranOut = false) :
    (round size s).Lists ∧ ((round size s).recycled (allocClass size)).length =
      (s.recycled (allocClass size)).length - 1 + (if allocClass size = freeClass size then 1 else 0) := by
  have halloc := lists_osAlloc hlists size
  obtain ⟨-, -, -, hfreed, hothers⟩ := osFree_spec halloc hpos hle hran
  have hclass := (class_spec hpos hle).1
  have hlength : ((osAlloc size s).2.recycled (allocClass size)).length =
      (s.recycled (allocClass size)).length - 1 := by
    cases hfront : s.recycled (allocClass size) with
    | cons p rest => rw [(osAlloc_recycled hlists hpos hle hfront).2.2.2.2.1, List.length_cons, Nat.add_sub_cancel]
    | nil =>
      rw [osAlloc_cut hlists hpos hle hfront]
      split <;> rw [(lists_update hlists _ _ _ _).2, hfront] <;> rfl
  refine ⟨lists_osFree halloc hran, ?_⟩
  unfold round
  split
  · rename_i hsame
    rw [hsame] at hlength ⊢
    rw [hfreed, List.length_append, hlength, List.length_singleton]
  · rename_i hdiff
    rw [hothers _ hclass hdiff, hlength, Nat.add_zero]

theorem rounds_ranOut {later : ℕ} (hle : n ≤ later) (h : (rounds size later s).nodes.ranOut = false) :
    (rounds size n s).nodes.ranOut = false := by
  induction later, hle using Nat.le_induction with
  | base => exact h
  | succ later _ ih => exact ih (round_ranOut h)

theorem rounds_lists (hlists : s.Lists) (hpos : 1 ≤ size) (hle : size ≤ 2048) (n : ℕ)
    (hran : (rounds size n s).nodes.ranOut = false) : (rounds size n s).Lists := by
  induction n with
  | zero => exact hlists
  | succ n ih => exact (round_spec (ih (round_ranOut hran)) hpos hle hran).1

/-- When the calls agree on the class, the chunk freed last is there for the next round. -/
theorem rounds_same (hlists : s.Lists) (hpos : 1 ≤ size) (hle : size ≤ 2048) (hclass : allocClass size = freeClass size)
    (hran : (rounds size (n + 1) s).nodes.ranOut = false) :
    (rounds size (n + 1) s).recycled (allocClass size) ≠ [] := by
  have hlength := (round_spec (rounds_lists hlists hpos hle n (round_ranOut hran)) hpos hle hran).2
  rw [if_pos hclass] at hlength
  intro hnil
  rw [show round size (rounds size n s) = rounds size (n + 1) s from rfl, hnil] at hlength
  exact absurd hlength.symm (Nat.succ_ne_zero _)

/-- When they do not, each round uses up a recycled chunk of the class. -/
theorem rounds_other (hlists : s.Lists) (hpos : 1 ≤ size) (hle : size ≤ 2048)
    (hclass : allocClass size ≠ freeClass size)
    (n : ℕ) (hran : (rounds size n s).nodes.ranOut = false) :
    ((rounds size n s).recycled (allocClass size)).length = (s.recycled (allocClass size)).length - n := by
  induction n with
  | zero => rfl
  | succ n ih =>
    have hlength := (round_spec (rounds_lists hlists hpos hle n (round_ranOut hran)) hpos hle hran).2
    rw [if_neg hclass, ih (round_ranOut hran)] at hlength
    rw [rounds, hlength]
    omega

/-- The list nodes last through a call. -/
def NodesLast (s : CacheClient) (c : CacheCall) : Prop := (CacheClient.step c s).caches.nodes.ranOut = false

/-- The free lists are in order after any calls, as long as the nodes last. -/
theorem lists_run (phys : PhysMem) (apicBase : ApicBase) {calls : List CacheCall}
    (hlast : Along CacheClient.step NodesLast (CacheClient.boot phys apicBase) calls) :
    (run CacheClient.step (CacheClient.boot phys apicBase) calls).caches.Lists := by
  refine hlast.invariant (I := fun s ↦ s.caches.Lists) (CacheClient.ok_boot phys apicBase).lists fun s c hs hc ↦ ?_
  cases c with
  | alloc size => exact lists_osAlloc hs size
  | free ptr size => exact lists_osFree hs hc

/-- In every state that any calls lead to, none of the rounds after the first takes a chunk or a frame exactly when
the size is a power of two from 32 on, or the class still has more recycled chunks than there are rounds. -/
theorem rounds_recycle_iff (phys : PhysMem) (apicBase : ApicBase) (calls : List CacheCall)
    (hlast : Along CacheClient.step NodesLast (CacheClient.boot phys apicBase) calls) {size count : ℕ}
    (hpos : 1 ≤ size) (hle : size ≤ 2048) (hcount : 1 ≤ count)
    (hran : (rounds size count (run CacheClient.step (CacheClient.boot phys apicBase) calls).caches).nodes.ranOut =
      false) :
    (∀ n, 1 ≤ n → n ≤ count →
        TakesNothing size (rounds size n (run CacheClient.step (CacheClient.boot phys apicBase) calls).caches)) ↔
      (∃ k, 5 ≤ k ∧ size = 2 ^ k) ∨
        count < ((run CacheClient.step (CacheClient.boot phys apicBase) calls).caches.recycled
          (allocClass size)).length := by
  have hlists := lists_run phys apicBase hlast
  generalize (run CacheClient.step (CacheClient.boot phys apicBase) calls).caches = s at *
  rw [← class_eq_iff hpos hle]
  have htakes : ∀ n ≤ count, TakesNothing size (rounds size n s) ↔ (rounds size n s).recycled (allocClass size) ≠ [] :=
    fun n hn ↦ takesNothing_iff (rounds_lists hlists hpos hle n (rounds_ranOut hn hran)) hpos hle
  constructor
  · intro hall
    by_contra hneither
    obtain ⟨hclass, hfew⟩ := not_or.1 hneither
    refine (htakes count le_rfl).1 (hall count hcount le_rfl) (List.length_eq_zero_iff.1 ?_)
    rw [rounds_other hlists hpos hle hclass count hran]
    omega
  · intro hcases n hn hn'
    refine (htakes n hn').2 ?_
    by_cases hclass : allocClass size = freeClass size
    · obtain ⟨n, rfl⟩ := Nat.exists_eq_add_of_le' hn
      exact rounds_same hlists hpos hle hclass (rounds_ranOut hn' hran)
    · intro hnil
      have hlength := rounds_other hlists hpos hle hclass n (rounds_ranOut hn' hran)
      have hmany := hcases.resolve_left hclass
      rw [hnil, List.length_nil] at hlength
      omega

theorem rounds_recycle_iff_blank :
    (∀ n, 1 ≤ n → n ≤ 2 → TakesNothing 64 (rounds 64 n (run CacheClient.step CacheClient.blank []).caches)) ↔
      (∃ k, 5 ≤ k ∧ 64 = 2 ^ k) ∨
        2 < ((run CacheClient.step CacheClient.blank []).caches.recycled (allocClass 64)).length :=
  rounds_recycle_iff _ _ [] (.nil _) (by norm_num) (by norm_num) (by norm_num) (by decide +kernel)

/-- The second round of `os_alloc(48)` cuts another chunk, although the first was freed. -/
theorem rounds_leak_blank :
    (rounds 48 1 CacheClient.blank.caches).nodes.ranOut = false ∧
      ¬ TakesNothing 48 (rounds 48 1 CacheClient.blank.caches) := by
  refine ⟨by decide +kernel, fun hnothing ↦ absurd (hnothing.2 1) ?_⟩
  decide +kernel

end ObjectCaches

end GemOS
