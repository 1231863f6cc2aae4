import GemOS.Shell.Commands
import Mathlib.Data.Nat.Digits.Defs

/-!
# The arguments of init

`parse_init` starts at the sixth byte, behind one blank, and stores a number at the first blank of each further run. A
second blank before the first number therefore stores a zero first, and all arguments come one slot later.
-/

namespace GemOS

namespace Shell

def isDigit (c : UInt8) : Bool := 48 ≤ c && c ≤ 57

/-- A decimal number behind blanks. -/
structure Argument where
  blanks : List UInt8
  digits : List UInt8
  blanks_ne : blanks ≠ []
  digits_ne : digits ≠ []
  blank : ∀ c ∈ blanks, isBlank c = true
  digit : ∀ c ∈ digits, isDigit c = true

namespace Argument

def text (a : Argument) : List UInt8 := a.blanks ++ a.digits

/-- The number that the digits denote. -/
def number (a : Argument) : ℕ := Nat.ofDigits 10 (a.digits.map fun c ↦ c.toNat - 48).reverse

/-- The number as a `u64`. -/
def value (a : Argument) : ℕ := a.number % 2 ^ 64

end Argument

/-- The word `init` and its arguments. -/
def commandLine (arguments : List Argument) : List UInt8 := cText "init" ++ arguments.flatMap Argument.text

/-- The `j`-th number is in the `j`-th word from `args` on, and the other words are as before. -/
def Stores (arguments : List Argument) (args args' : ℕ → ℕ) : Prop :=
  ∀ w, args' w = ((arguments.map Argument.value)[w]?).getD (args w)

variable {cmd : ℕ → UInt8} {rest : List UInt8} {num value : ℕ} {args : ℕ → ℕ} {a first : Argument}
  {arguments : List Argument}

theorem digit_spec {c : UInt8} (h : isDigit c = true) :
    isBlank c = false ∧ ∀ value, addDigit value c = (value * 10 + (c.toNat - 48)) % 2 ^ 64 := by
  simp only [isDigit, Bool.and_eq_true, decide_eq_true_eq, UInt8.le_iff_toNat_le] at h
  change 48 ≤ c.toNat ∧ c.toNat ≤ 57 at h
  constructor
  · rw [isBlank, Bool.or_eq_false_iff, decide_eq_false_iff_not, decide_eq_false_iff_not]
    constructor <;> rintro rfl <;> exact absurd h.1 (by decide)
  · intro value
    have hsigned : c < 128 := UInt8.lt_iff_toNat_lt.2 (lt_of_le_of_lt h.2 (by decide))
    rw [addDigit, if_pos hsigned]
    omega

theorem scanned_digits {digits : List UInt8} (h : ∀ c ∈ digits, isDigit c = true) :
    scanned false (digits ++ rest) num value args = scanned false rest num (digits.foldl addDigit value) args := by
  induction digits generalizing value with
  | nil => rfl
  | cons c digits ih =>
    rw [List.forall_mem_cons] at h
    rw [List.cons_append, scanned, (digit_spec h.1).1, List.foldl_cons]
    exact ih h.2

theorem scanned_blanks {blanks : List UInt8} (h : ∀ c ∈ blanks, isBlank c = true) :
    scanned true (blanks ++ rest) num value args = scanned true rest num value args := by
  induction blanks with
  | nil => rfl
  | cons c blanks ih =>
    rw [List.forall_mem_cons] at h
    rw [List.cons_append, scanned, if_pos h.1]
    exact ih h.2

/-- Digits are read as a numeral. -/
theorem foldl_addDigit {digits : List UInt8} (h : ∀ c ∈ digits, isDigit c = true) (hvalue : value < 2 ^ 64) :
    digits.foldl addDigit value =
      (value * 10 ^ digits.length + Nat.ofDigits 10 (digits.map fun c ↦ c.toNat - 48).reverse) % 2 ^ 64 := by
  induction digits generalizing value with
  | nil =>
    simp only [List.foldl_nil, List.length_nil, List.map_nil, List.reverse_nil, Nat.ofDigits_nil, pow_zero]
    omega
  | cons c digits ih =>
    rw [List.forall_mem_cons] at h
    rw [List.foldl_cons, (digit_spec h.1).2, ih h.2 (Nat.mod_lt _ (by norm_num)), List.map_cons, List.reverse_cons,
      Nat.ofDigits_append, List.length_reverse, List.length_map, Nat.ofDigits_singleton, List.length_cons]
    have hsplit : (value * 10 + (c.toNat - 48)) * 10 ^ digits.length =
        value * 10 ^ (digits.length + 1) + 10 ^ digits.length * (c.toNat - 48) := by ring
    rw [Nat.add_mod, Nat.mod_mul_mod, ← Nat.add_mod, hsplit]
    congr 1
    ring

theorem Argument.foldl_digits (a : Argument) : a.digits.foldl addDigit 0 = a.value := by
  rw [foldl_addDigit a.digit (by norm_num), Nat.zero_mul, Nat.zero_add]
  rfl

/-- A number behind blanks: what was read before is stored, and the number read. -/
theorem scanned_argument : scanned false (a.text ++ rest) num value args =
    scanned false rest (num + 1) a.value (Function.update args num value) := by
  obtain ⟨b, blanks, hblanks⟩ := List.exists_cons_of_ne_nil a.blanks_ne
  obtain ⟨d, digits, hdigits⟩ := List.exists_cons_of_ne_nil a.digits_ne
  have hblank := a.blank
  have hdigit := a.digit
  rw [Argument.text, ← a.foldl_digits]
  rw [hblanks, List.forall_mem_cons] at hblank
  rw [hdigits, List.forall_mem_cons] at hdigit
  rw [hblanks, hdigits, List.cons_append, List.cons_append, scanned, if_pos hblank.1, List.append_assoc,
    scanned_blanks hblank.2, List.cons_append, scanned, (digit_spec hdigit.1).1, List.foldl_cons]
  exact scanned_digits hdigit.2

/-- All that is left are arguments. -/
theorem scanned_arguments (w : ℕ) : scanned false (arguments.flatMap Argument.text) num value args w =
    if w < num then args w else ((value :: arguments.map Argument.value)[w - num]?).getD (args w) := by
  induction arguments generalizing num value args with
  | nil =>
    simp only [List.flatMap_nil, scanned, List.map_nil]
    rcases lt_trichotomy w num with hlt | rfl | hgt
    · rw [if_pos hlt, Function.update_of_ne hlt.ne]
    · rw [if_neg (lt_irrefl w), Function.update_self, Nat.sub_self]
      rfl
    · rw [if_neg (by omega), Function.update_of_ne hgt.ne', List.getElem?_eq_none (by simp; omega)]
      rfl
  | cons a arguments ih =>
    rw [List.flatMap_cons, scanned_argument, ih]
    rcases lt_trichotomy w num with hlt | rfl | hgt
    · rw [if_pos (by omega), if_pos hlt, Function.update_of_ne hlt.ne]
    · rw [if_pos (by omega), if_neg (lt_irrefl w), Function.update_self, Nat.sub_self]
      rfl
    · obtain ⟨d, rfl⟩ := Nat.exists_eq_add_of_lt hgt
      rw [if_neg (by omega), if_neg (by omega), Function.update_of_ne (by omega),
        show num + d + 1 - (num + 1) = d by omega,
        show num + d + 1 - num = d + 1 by omega, List.map_cons, List.getElem?_cons_succ]

theorem endsWell_arguments {line : List UInt8} (h : EndsWell line) :
    EndsWell (line ++ arguments.flatMap Argument.text) := by
  induction arguments generalizing line with
  | nil => rwa [List.flatMap_nil, List.append_nil]
  | cons a arguments ih =>
    rw [List.flatMap_cons, ← List.append_assoc]
    refine ih fun c hc ↦ ?_
    rw [Argument.text, ← List.append_assoc, List.getLast?_append_of_ne_nil _ a.digits_ne] at hc
    exact (digit_spec (a.digit c (List.mem_of_getLast? hc))).1

/-- A list that agrees with itself moved by one holds zeros. -/
theorem shifted_iff (values : List ℕ) (args : ℕ → ℕ) :
    (∀ w, ((0 :: values)[w]?).getD (args w) = (values[w]?).getD (args w)) ↔
      (∀ v ∈ values, v = 0) ∧ args values.length = 0 := by
  constructor
  · intro h
    have hzero : ∀ w (hw : w < values.length), values[w] = 0 := by
      intro w hw
      induction w with
      | zero =>
        have hhere := h 0
        rw [List.getElem?_eq_getElem hw] at hhere
        exact hhere.symm
      | succ w ih =>
        have hhere := h (w + 1)
        rw [List.getElem?_cons_succ, List.getElem?_eq_getElem hw, List.getElem?_eq_getElem (by omega), Option.getD_some,
          Option.getD_some, ih (by omega)] at hhere
        exact hhere.symm
    refine ⟨fun v hv ↦ ?_, ?_⟩
    · obtain ⟨w, hw, rfl⟩ := List.getElem_of_mem hv
      exact hzero w hw
    · have hhere := h values.length
      rw [List.getElem?_eq_none le_rfl, Option.getD_none] at hhere
      rw [← hhere]
      cases hvalues : values.length with
      | zero => rfl
      | succ n =>
        rw [List.getElem?_cons_succ, List.getElem?_eq_getElem (by omega), Option.getD_some]
        exact hzero n (by omega)
  · rintro ⟨hzero, hargs⟩ w
    have hvalues : ∀ w < values.length, values[w]? = some 0 := fun w hw ↦ by
      rw [List.getElem?_eq_getElem hw, hzero _ (List.getElem_mem hw)]
    rcases lt_trichotomy w values.length with hlt | rfl | hgt
    · rw [hvalues w hlt]
      cases w with
      | zero => rfl
      | succ w => rw [List.getElem?_cons_succ, hvalues w (by omega)]
    · rw [List.getElem?_eq_none le_rfl, Option.getD_none, hargs]
      cases hlength : values.length with
      | zero => rfl
      | succ n => rw [List.getElem?_cons_succ, hvalues n (by omega), Option.getD_some]
    · rw [List.getElem?_eq_none (by simp only [List.length_cons]; omega), List.getElem?_eq_none hgt.le]

/-- With up to five arguments `parse_init` ends, and it stores each in its slot exactly when one blank comes before
the first number, or all numbers are 0 modulo `2^64` and so is what the next word held. -/
theorem slots_iff (_hcount : arguments.length + 1 ≤ argSlots) (h : HoldsFrom cmd 0 (commandLine (first :: arguments)))
    (args : ℕ → ℕ) {fuel : ℕ} (hfuel : 2 * (commandLine (first :: arguments)).length < fuel) :
    (parseInit cmd args fuel).ended = true ∧
      (Stores (first :: arguments) args (parseInit cmd args fuel).args ↔
        first.blanks.length = 1 ∨ (∀ a ∈ first :: arguments, a.value = 0) ∧ args (arguments.length + 1) = 0) := by
  obtain ⟨b, blanks, hblanks⟩ := List.exists_cons_of_ne_nil first.blanks_ne
  have hline : commandLine (first :: arguments) =
      cText "init" ++ b :: (blanks ++ first.digits ++ arguments.flatMap Argument.text) := by
    rw [commandLine, List.flatMap_cons, Argument.text, hblanks, List.cons_append, List.cons_append]
  have hdrop : (commandLine (first :: arguments)).drop 5 = blanks ++ first.digits ++
      arguments.flatMap Argument.text := by
    rw [hline]
    rfl
  have hlong : 5 ≤ (commandLine (first :: arguments)).length := by
    rw [hline, List.length_append, List.length_cons, show (cText "init").length = 4 by decide]
    omega
  have hheld := h.drop hlong
  rw [hdrop] at hheld
  have hwell : EndsWell (blanks ++ first.digits ++ arguments.flatMap Argument.text) := by
    refine endsWell_arguments fun c hc ↦ ?_
    rw [List.getLast?_append_of_ne_nil _ first.digits_ne] at hc
    exact (digit_spec (first.digit c (List.mem_of_getLast? hc))).1
  have hshort : 2 * (blanks ++ first.digits ++ arguments.flatMap Argument.text).length < fuel := by
    rw [← hdrop, List.length_drop]
    omega
  obtain ⟨hended, hargs⟩ : (parseInit cmd args fuel).ended = true ∧ (parseInit cmd args fuel).args =
      scanned false (blanks ++ first.digits ++ arguments.flatMap Argument.text) 0 0 args :=
    parseFrom_ends hheld hshort ⟨fun hskip ↦ Bool.noConfusion hskip, hwell⟩
  refine ⟨hended, ?_⟩
  unfold Stores
  rw [hargs]
  have hfirst := first.foldl_digits
  by_cases hone : blanks = []
  · refine iff_of_true (fun w ↦ ?_) (Or.inl (by rw [hblanks, hone]; rfl))
    rw [hone, List.nil_append, scanned_digits first.digit, scanned_arguments, if_neg (Nat.not_lt_zero w), hfirst]
    rfl
  · let shorter : Argument := ⟨blanks, first.digits, hone, first.digits_ne,
      fun c hc ↦ first.blank c (hblanks ▸ List.mem_cons_of_mem b hc), first.digit⟩
    have hmany : first.blanks.length ≠ 1 := fun hlength ↦ hone (by
      rw [hblanks, List.length_cons, Nat.add_eq_right] at hlength
      exact List.length_eq_zero_iff.1 hlength)
    rw [or_iff_right hmany]
    have hshifted : ∀ w, scanned false (blanks ++ first.digits ++ arguments.flatMap Argument.text) 0 0 args w =
        ((0 :: (first :: arguments).map Argument.value)[w]?).getD (args w) := by
      intro w
      have hscanned : scanned false ((shorter :: arguments).flatMap Argument.text) 0 0 args w = _ := scanned_arguments w
      rw [if_neg (Nat.not_lt_zero w), Nat.sub_zero] at hscanned
      exact hscanned
    simp only [hshifted]
    rw [shifted_iff, List.forall_mem_map, List.length_map, List.length_cons]

/-- The argument 7 behind a blank. -/
def seven : Argument :=
  ⟨[32], cText "7", by decide, by decide, List.all_eq_true.1 (by decide), List.all_eq_true.1 (by decide)⟩

/-- The argument 7 behind a blank and a tab. -/
def sevenApart : Argument :=
  ⟨[32, 9], cText "7", by decide, by decide, List.all_eq_true.1 (by decide), List.all_eq_true.1 (by decide)⟩

/-- The chunk of `invoke_dsh`, zeroed, after a line. -/
def typed (arguments : List Argument) : ℕ → UInt8 := lineBuffer (fun _ ↦ 0) (commandLine arguments)

theorem holds_seven : HoldsFrom (typed [seven, sevenApart]) 0 (commandLine [seven, sevenApart]) := by
  have hheld := holds_lineBuffer (fun _ ↦ 0) (commandLine [seven, sevenApart])
  rwa [show text (commandLine [seven, sevenApart]) = commandLine [seven, sevenApart] by decide] at hheld

theorem slots_iff_seven :
    (parseInit (typed [seven, sevenApart]) (fun _ ↦ 0) 100).ended = true ∧
      (Stores [seven, sevenApart] (fun _ ↦ 0) (parseInit (typed [seven, sevenApart]) (fun _ ↦ 0) 100).args ↔
        seven.blanks.length = 1 ∨ (∀ a ∈ [seven, sevenApart], a.value = 0) ∧ (fun _ : ℕ ↦ 0) 2 = 0) :=
  slots_iff (by decide) holds_seven _ (by decide)

/-- Behind two blanks the only argument comes in the second slot. -/
theorem sevenApart_shifted :
    HoldsFrom (typed [sevenApart]) 0 (commandLine [sevenApart]) ∧
      (parseInit (typed [sevenApart]) (fun _ ↦ 0) 100).ended = true ∧
      (parseInit (typed [sevenApart]) (fun _ ↦ 0) 100).args 0 = 0 ∧
      (parseInit (typed [sevenApart]) (fun _ ↦ 0) 100).args 1 = 7 ∧
      ¬ Stores [sevenApart] (fun _ ↦ 0) (parseInit (typed [sevenApart]) (fun _ ↦ 0) 100).args := by
  refine ⟨?_, by decide +kernel, by decide +kernel, by decide +kernel, fun hstores ↦ ?_⟩
  · have hheld := holds_lineBuffer (fun _ ↦ 0) (commandLine [sevenApart])
    rwa [show text (commandLine [sevenApart]) = commandLine [sevenApart] by decide] at hheld
  · exact absurd (hstores 0) (by decide +kernel)

end Shell

end GemOS
