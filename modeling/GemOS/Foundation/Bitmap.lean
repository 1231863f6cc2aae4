import Mathlib.Data.BitVec
import Mathlib.Logic.Function.Basic
import Mathlib.Tactic

/-!
# Bit sets stored as machine words

A bit set over the natural numbers is kept as an unbounded table of `w`-bit words; bit `i` lives in
word `i / w` at position `i % w`. Setting and clearing act on one word only, and the three facts a
client needs are which bits an update changes, when a word is full, and where the first clear bit of
a word is.
-/

namespace GemOS.Foundation

/-- A table of `w`-bit words read as a set of naturals. -/
abbrev BitTable (w : ℕ) := ℕ → BitVec w

namespace BitTable

variable {w : ℕ}

def test (table : BitTable w) (i : ℕ) : Bool := (table (i / w)).getLsbD (i % w)

/-- Or one shifted bit into its word. -/
def insert (table : BitTable w) (i : ℕ) : BitTable w :=
  Function.update table (i / w) (table (i / w) ||| (1#w <<< (i % w)))

/-- Xor a bit with itself, which leaves a clear bit clear. -/
def erase (table : BitTable w) (i : ℕ) : BitTable w :=
  Function.update table (i / w)
    (table (i / w) ^^^ (((table (i / w) >>> (i % w)) &&& 1#w) <<< (i % w)))

theorem index_eq_iff (i j : ℕ) : i = j ↔ i / w = j / w ∧ i % w = j % w := by
  constructor
  · rintro rfl
    exact ⟨rfl, rfl⟩
  · rintro ⟨hdiv, hmod⟩
    rw [← Nat.div_add_mod i w, ← Nat.div_add_mod j w, hdiv, hmod]

theorem getLsbD_one_shiftLeft (position j : ℕ) (hw : position < w) :
    (1#w <<< position).getLsbD j = decide (j = position) := by
  simp only [BitVec.getLsbD_shiftLeft, BitVec.getLsbD_one]
  by_cases hj : j = position
  · subst j
    simp [hw, Nat.zero_lt_of_lt hw]
  · have : ¬ (j < w ∧ position ≤ j ∧ j - position = 0) := by omega
    simp only [hj, decide_false]
    by_contra hne
    simp only [Bool.not_eq_false, Bool.and_eq_true, decide_eq_true_eq, Bool.not_eq_true',
      decide_eq_false_iff_not] at hne
    omega

@[simp]
theorem test_insert (hw : 0 < w) (table : BitTable w) (i j : ℕ) :
    (table.insert i).test j = (table.test j || decide (j = i)) := by
  unfold test insert
  by_cases hword : j / w = i / w
  · rw [hword, Function.update_self, BitVec.getLsbD_or,
      getLsbD_one_shiftLeft _ _ (Nat.mod_lt i hw)]
    simp [index_eq_iff (w := w) j i, hword]
  · have hne : j ≠ i := fun h ↦ hword (by rw [h])
    rw [Function.update_of_ne hword]
    simp [hne]

@[simp]
theorem test_erase (hw : 0 < w) (table : BitTable w) (i j : ℕ) :
    (table.erase i).test j = (table.test j && !decide (j = i)) := by
  unfold test erase
  by_cases hword : j / w = i / w
  · rw [hword, Function.update_self, BitVec.getLsbD_xor, BitVec.getLsbD_shiftLeft]
    have hlt : j % w < w := Nat.mod_lt j hw
    by_cases hbit : j % w = i % w
    · have heq : j = i := (index_eq_iff (w := w) j i).2 ⟨hword, hbit⟩
      subst j
      simp [hlt, Nat.zero_lt_of_lt hlt]
    · have hne : j ≠ i := fun h ↦ hbit (by rw [h])
      have hout : j % w < i % w ∨ 0 < j % w - i % w := by omega
      rcases hout with hlow | hhigh
      · simp [hne, hlow]
      · simp [hne, BitVec.getLsbD_and, BitVec.getLsbD_one, Nat.pos_iff_ne_zero.1 hhigh]
  · have hne : j ≠ i := fun h ↦ hword (by rw [h])
    rw [Function.update_of_ne hword]
    simp [hne]

/-- The position of the first clear bit at or above `bit` among the next `fuel` positions, or
`bit + fuel` when there is none. -/
def firstClear (word : BitVec w) : (fuel bit : ℕ) → ℕ
  | 0, bit => bit
  | fuel + 1, bit => if word.getLsbD bit then firstClear word fuel (bit + 1) else bit

theorem firstClear_le (word : BitVec w) (fuel bit : ℕ) :
    firstClear word fuel bit ≤ bit + fuel := by
  induction fuel generalizing bit with
  | zero => exact le_rfl
  | succ fuel ih =>
    unfold firstClear
    split
    · exact (ih (bit + 1)).trans (by omega)
    · omega

theorem getLsbD_firstClear (word : BitVec w) (fuel bit : ℕ)
    (h : firstClear word fuel bit < bit + fuel) :
    word.getLsbD (firstClear word fuel bit) = false := by
  induction fuel generalizing bit with
  | zero => exact absurd h (by simp [firstClear])
  | succ fuel ih =>
    unfold firstClear at h ⊢
    split
    · rename_i hset
      rw [if_pos hset] at h
      exact ih (bit + 1) (by omega)
    · rename_i hclear
      simpa using hclear

theorem firstClear_eq_of_full (word : BitVec w) (fuel bit : ℕ)
    (h : ∀ j, bit ≤ j → j < bit + fuel → word.getLsbD j = true) :
    firstClear word fuel bit = bit + fuel := by
  induction fuel generalizing bit with
  | zero => rfl
  | succ fuel ih =>
    unfold firstClear
    rw [if_pos (h bit le_rfl (by omega)), ih (bit + 1) fun j hlow hhigh ↦ h j (by omega) (by omega)]
    omega

/-- A word is all ones exactly when each of its positions is set. -/
theorem eq_allOnes_iff (word : BitVec w) :
    word = BitVec.allOnes w ↔ ∀ j < w, word.getLsbD j = true := by
  constructor
  · rintro rfl j hj
    simp [hj]
  · intro h
    apply BitVec.eq_of_getLsbD_eq
    intro j hj
    simp [h j hj, hj]

/-- A clear position in range bounds the first clear one. -/
theorem firstClear_le_of_clear (word : BitVec w) (fuel bit j : ℕ) (hlow : bit ≤ j)
    (hhigh : j < bit + fuel) (hclear : word.getLsbD j = false) : firstClear word fuel bit ≤ j := by
  induction fuel generalizing bit with
  | zero => omega
  | succ fuel ih =>
    unfold firstClear
    split
    · rename_i hset
      have hne : bit ≠ j := by
        rintro rfl
        rw [hclear] at hset
        exact Bool.noConfusion hset
      exact ih (bit + 1) (by omega) (by omega)
    · exact hlow

theorem firstClear_lt_iff (word : BitVec w) :
    firstClear word w 0 < w ↔ word ≠ BitVec.allOnes w := by
  rw [ne_eq, eq_allOnes_iff]
  constructor
  · intro hlt hall
    have hclear := getLsbD_firstClear word w 0 (by omega)
    rw [hall _ hlt] at hclear
    exact Bool.noConfusion hclear
  · intro hnot
    obtain ⟨j, hj⟩ := not_forall.1 hnot
    obtain ⟨hlt, hclear⟩ := Classical.not_imp.1 hj
    exact (firstClear_le_of_clear word w 0 j (Nat.zero_le j) (by omega)
      (by simpa using hclear)).trans_lt hlt

/-- The words `position, position + 1, …` are skipped while full and below `limit`. -/
def skipFull (table : BitTable w) (limit : ℕ) : (fuel position : ℕ) → ℕ
  | 0, position => position
  | fuel + 1, position =>
    if table position = BitVec.allOnes w ∧ position < limit then
      skipFull table limit fuel (position + 1)
    else position

/-- With enough fuel the scan stops at the limit or at a word that is not full, and every word it
passed is full. -/
theorem skipFull_spec (table : BitTable w) (limit fuel position : ℕ)
    (hfuel : limit ≤ position + fuel) (hstart : position ≤ limit) :
    position ≤ skipFull table limit fuel position ∧ skipFull table limit fuel position ≤ limit ∧
      (skipFull table limit fuel position < limit →
        table (skipFull table limit fuel position) ≠ BitVec.allOnes w) ∧
      ∀ k, position ≤ k → k < skipFull table limit fuel position → table k = BitVec.allOnes w := by
  induction fuel generalizing position with
  | zero =>
    simp only [skipFull]
    exact ⟨le_rfl, hstart, fun h ↦ by omega, fun k hlow hhigh ↦ by omega⟩
  | succ fuel ih =>
    unfold skipFull
    split
    · rename_i hskip
      obtain ⟨hlow, hhigh, hstop, hfull⟩ := ih (position + 1) (by omega) (by omega)
      refine ⟨by omega, hhigh, hstop, fun k hk hlt ↦ ?_⟩
      rcases Nat.eq_or_lt_of_le hk with rfl | hgt
      · exact hskip.1
      · exact hfull k hgt hlt
    · rename_i hskip
      refine ⟨le_rfl, hstart, fun hlt heq ↦ hskip ⟨heq, hlt⟩, fun k hk hlt ↦ by omega⟩

theorem word_full_iff (hw : 0 < w) (table : BitTable w) (k : ℕ) :
    table k = BitVec.allOnes w ↔ ∀ i, i / w = k → table.test i = true := by
  rw [eq_allOnes_iff]
  constructor
  · rintro h i rfl
    exact h _ (Nat.mod_lt i hw)
  · intro h j hj
    have hi := h (k * w + j) (by rw [Nat.mul_comm, Nat.mul_add_div hw, Nat.div_eq_of_lt hj, add_zero])
    unfold test at hi
    rwa [Nat.mul_comm, Nat.mul_add_div hw, Nat.div_eq_of_lt hj, add_zero, Nat.mul_add_mod,
      Nat.mod_eq_of_lt hj] at hi

end BitTable

end GemOS.Foundation
