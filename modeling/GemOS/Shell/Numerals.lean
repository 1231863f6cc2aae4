import GemOS.Shell.Printf
import Mathlib.Data.Nat.Digits.Lemmas

/-!
# The numerals that are put out

`vprintf` makes a number positive before it divides it into digits, which fails for the least number of each type, and
`%u` shares the code of `%d`.
-/

namespace GemOS

namespace Shell

def digitValue (c : UInt8) : Option ℕ :=
  if 48 ≤ c ∧ c ≤ 57 then some (c.toNat - 48)
  else if 65 ≤ c ∧ c ≤ 70 then some (c.toNat - 55)
  else none

/-- The number that a numeral denotes, which has a digit and no superfluous 0 in front. -/
def readNumeral (base : ℕ) (text : List UInt8) : Option ℕ :=
  match text.mapM digitValue with
  | none => none
  | some digits =>
    if digits = [] ∨ (1 < digits.length ∧ digits.head? = some 0) ∨ digits.any (base ≤ ·) then none
    else some (Nat.ofDigits base digits.reverse)

/-- A numeral behind at most one minus sign. -/
def readSigned (read : List UInt8 → Option ℕ) : List UInt8 → Option ℤ
  | [] => none
  | c :: rest => if c = '-'.toUInt8 then (read rest).map fun n : ℕ ↦
    -(n : ℤ) else (read (c :: rest)).map fun n : ℕ ↦ (n : ℤ)

def readDecimal : List UInt8 → Option ℤ := readSigned (readNumeral 10)

/-- Hexadecimal digits behind `0x`. -/
def readHex : List UInt8 → Option ℤ :=
  readSigned fun text ↦ if text.take 2 = cText "0x" then readNumeral 16 (text.drop 2) else none

/-- The text that a format puts out. -/
def Printed.text (p : Printed) : List UInt8 := (List.range p.buffer.out).map p.buffer.buf

/-- The text denotes the number, and its digits fit in `chars`. -/
def Spells (read : List UInt8 → Option ℤ) (text cells : List UInt8) (n : ℤ) : Prop :=
  read text = some n ∧ cells.length ≤ 20

variable {digit : ℤ → UInt8} {base fuel k m : ℕ} {text : List UInt8} {num tmp : ℤ} {digits : List ℕ}

theorem digitCells_natCast (hbase : 2 ≤ base) (hm : m ≤ fuel) :
    digitCells digit base fuel m = (Nat.digits base m).map fun d : ℕ ↦ digit d := by
  induction fuel generalizing m with
  | zero =>
    obtain rfl := Nat.le_zero.1 hm
    rw [Nat.digits_zero]
    rfl
  | succ fuel ih =>
    rw [digitCells]
    split
    · obtain rfl : m = 0 := by omega
      rw [Nat.digits_zero]
      rfl
    · have hdiv : m / base < m := Nat.div_lt_self (by omega) hbase
      rw [Nat.digits_def' hbase (by omega), List.map_cons, ← Int.ofNat_tdiv, ih (by omega)]
      rfl

/-- A round of the loop for each digit. -/
theorem digitCells_length_le (base : ℕ) (h : tmp.natAbs < base ^ k) : (digitCells digit base fuel tmp).length ≤ k := by
  induction fuel generalizing tmp k with
  | zero => exact Nat.zero_le k
  | succ fuel ih =>
    rw [digitCells]
    split
    · exact Nat.zero_le k
    · cases k with
      | zero =>
        rw [pow_zero] at h
        omega
      | succ k =>
        refine Nat.succ_le_succ (ih ?_)
        rw [Int.natAbs_tdiv, Int.natAbs_natCast]
        exact Nat.div_lt_of_lt_mul (by rwa [pow_succ, Nat.mul_comm] at h)

theorem magnitude_eq {modulus : ℕ} (h : -(modulus : ℤ) < 2 * num) : magnitude modulus num = num.natAbs := by
  rw [magnitude]
  split
  · rw [Int.bmod_eq_of_le (by omega) (by omega)]
    omega
  · omega

theorem mapM_digitValue (h : ∀ d ∈ digits, digitValue (digit d) = some d) :
    (digits.map fun d : ℕ ↦ digit d).mapM digitValue = some digits := by
  induction digits with
  | nil => rfl
  | cons d digits ih =>
    obtain ⟨hd, hdigits⟩ := List.forall_mem_cons.1 h
    rw [List.map_cons, List.mapM_cons, hd, ih hdigits]
    rfl

/-- The digits of a number are a numeral of it. -/
theorem readNumeral_digits (hbase : 2 ≤ base) (hdigit : ∀ d < base, digitValue (digit d) = some d) (hm : m ≠ 0) :
    readNumeral base ((Nat.digits base m).map fun d : ℕ ↦ digit d).reverse = some m := by
  have hmap : ((Nat.digits base m).map fun d : ℕ ↦ digit d).reverse.mapM digitValue =
      some (Nat.digits base m).reverse := by
    rw [← List.map_reverse]
    exact mapM_digitValue fun d hd ↦ hdigit d (Nat.digits_lt_base hbase (List.mem_reverse.1 hd))
  rw [readNumeral, hmap]
  refine (if_neg ?_).trans ?_
  · rintro (hnil | ⟨-, hhead⟩ | hany)
    · exact hm (Nat.digits_eq_nil_iff_eq_zero.1 (List.reverse_eq_nil_iff.1 hnil))
    · rw [List.head?_reverse, List.getLast?_eq_some_getLast (Nat.digits_ne_nil_iff_ne_zero.2 hm),
        Option.some_inj] at hhead
      exact Nat.getLast_digit_ne_zero base hm hhead
    · obtain ⟨d, hd, hle⟩ := List.any_eq_true.1 hany
      exact absurd (Nat.digits_lt_base hbase (List.mem_reverse.1 hd)) (not_lt.2 (of_decide_eq_true hle))
  · rw [List.reverse_reverse, Nat.ofDigits_digits]

theorem readSigned_numeral (h : readNumeral base text = some m) :
    readSigned (readNumeral base) text = some (m : ℤ) := by
  cases text with
  | nil => exact absurd h (by simp [readNumeral])
  | cons c rest =>
    rw [readSigned, if_neg, h]
    · rfl
    · rintro rfl
      exact absurd h (by simp [readNumeral, List.mapM_cons, show digitValue '-'.toUInt8 = none from rfl])

theorem decimalDigit_value {d : ℕ} (h : d < 10) : digitValue (decimalDigit d) = some d := by
  interval_cases d <;> rfl

theorem hexDigit_value {d : ℕ} (h : d < 16) : digitValue (hexDigit d) = some d := by
  interval_cases d <;> rfl

/-- The cells of every number but the least. -/
theorem intCells_eq (h : -2 ^ 31 < num) : intCells num = (Nat.digits 10 num.natAbs).map fun d : ℕ ↦ decimalDigit d := by
  rw [intCells, magnitude_eq (by push_cast; omega)]
  exact digitCells_natCast (by norm_num) le_rfl

/-- `%d` puts out a numeral of every number but the least. -/
theorem readDecimal_intText (h : -2 ^ 31 ≤ num) : readDecimal (intText num) = if num = -2 ^ 31 then
    none else some num := by
  split
  · subst num
    decide +kernel
  · rename_i hleast
    rw [intText, readDecimal]
    split
    · subst num
      rfl
    · rename_i hzero
      have hread := readNumeral_digits (by norm_num) (fun d hd ↦ decimalDigit_value hd) (Int.natAbs_ne_zero.2 hzero)
      rw [intCells_eq (by omega)]
      split
      · rw [List.singleton_append, readSigned, if_pos (by decide), hread, Option.map_some]
        exact congrArg some (by omega)
      · rw [List.nil_append, readSigned_numeral hread]
        exact congrArg some (by omega)

/-- `%x` puts out a numeral of every number but the least. -/
theorem readHex_longText (h : -2 ^ 63 ≤ num) : readHex (longText num) = if num = -2 ^ 63 then none else some num := by
  split
  · subst num
    decide +kernel
  · rename_i hleast
    rw [longText, readHex]
    have hnumeral : readNumeral 16 (if num = 0 then [48] else (longCells num).reverse) = some num.natAbs := by
      split
      · subst num
        rfl
      · rename_i hzero
        have hcells : longCells num = (Nat.digits 16 num.natAbs).map fun d : ℕ ↦ hexDigit d := by
          rw [longCells, magnitude_eq (by push_cast; omega)]
          exact digitCells_natCast (by norm_num) le_rfl
        rw [hcells]
        exact readNumeral_digits (by norm_num) (fun d hd ↦ hexDigit_value hd) (Int.natAbs_ne_zero.2 hzero)
    split
    · rw [List.singleton_append, List.cons_append, readSigned, if_pos (by decide)]
      simp only [List.cons_append, List.nil_append, List.take_succ_cons, List.take_zero,
        List.drop_succ_cons, List.drop_zero]
      rw [if_pos (by decide), hnumeral, Option.map_some]
      exact congrArg some (by omega)
    · rw [List.nil_append, List.cons_append, readSigned, if_neg (by decide)]
      simp only [List.cons_append, List.nil_append, List.take_succ_cons, List.take_zero,
        List.drop_succ_cons, List.drop_zero]
      rw [if_pos (by decide), hnumeral, Option.map_some]
      exact congrArg some (by omega)

theorem intText_natCast (hm : m ≠ 0) (hlt : m < 2 ^ 31) :
    intText m = (Nat.digits 10 m).reverse.map fun d : ℕ ↦ decimalDigit d := by
  rw [intText, if_neg (by omega), if_neg (by omega), intCells_eq (by omega), Int.natAbs_natCast, List.nil_append,
    List.map_reverse]

theorem digitChar_decimalDigit {d : ℕ} (h : d < 10) : (Nat.digitChar d).toNat = (decimalDigit d).toNat := by
  interval_cases d <;> rfl

/-- The digits that `%d` puts out are those of `Nat.toDigits`; by induction on the number. -/
theorem toDigits_intText (hm : m ≠ 0) (hlt : m < 2 ^ 31) :
    (Nat.toDigits 10 m).map Char.toNat = (intText m).map UInt8.toNat := by
  rw [intText_natCast hm hlt]
  clear hlt
  induction m using Nat.strong_induction_on with
  | _ m ih =>
    rw [Nat.toDigits_eq_if (by norm_num), Nat.digits_def' (by norm_num) (Nat.pos_of_ne_zero hm)]
    split
    · rename_i hsmall
      rw [Nat.div_eq_of_lt hsmall, Nat.mod_eq_of_lt hsmall, Nat.digits_zero]
      exact congrArg ([·]) (digitChar_decimalDigit hsmall)
    · have hrest := ih (m / 10) (by omega) (by omega)
      rw [List.map_append, hrest, List.reverse_cons, List.map_append, List.map_append]
      exact congrArg (_ ++ [·]) (digitChar_decimalDigit (Nat.mod_lt m (by norm_num)))

theorem argInt_range (word : BitVec 64) : -2 ^ 31 ≤ argInt word ∧ argInt word < 2 ^ 31 :=
  ⟨BitVec.le_toInt (word.setWidth 32), BitVec.toInt_lt⟩

theorem argLong_range (word : BitVec 64) : -2 ^ 63 ≤ argLong word ∧ argLong word < 2 ^ 63 :=
  ⟨BitVec.le_toInt word, BitVec.toInt_lt⟩

theorem natAbs_magnitude_le {modulus : ℕ} (h : -(modulus : ℤ) ≤ 2 * num) :
    (magnitude modulus num).natAbs ≤ num.natAbs := by
  rw [magnitude]
  split
  · rw [Int.bmod_def, Int.emod_eq_of_lt (by omega) (by omega)]
    split <;> omega
  · exact le_rfl

theorem intCells_length_le (word : BitVec 64) : (intCells (argInt word)).length ≤ 20 := by
  obtain ⟨hle, hlt⟩ := argInt_range word
  refine digitCells_length_le 10 (lt_of_le_of_lt (natAbs_magnitude_le (by push_cast; omega)) ?_)
  omega

theorem longCells_length_le (word : BitVec 64) : (longCells (argLong word)).length ≤ 20 := by
  obtain ⟨hle, hlt⟩ := argLong_range word
  refine digitCells_length_le 16 (lt_of_le_of_lt (natAbs_magnitude_le (by push_cast; omega)) ?_)
  omega

variable {mem buf : ℕ → UInt8} {args : ℕ → BitVec 64}

theorem Printed.text_puts (reads : List ℕ) (taken : ℕ) :
    Printed.text ⟨(Buffer.mk buf 0).puts text, taken, reads, true⟩ = text := by
  obtain ⟨hout, hbuf⟩ := Buffer.puts_spec ⟨buf, 0⟩ text
  rw [Nat.zero_add] at hout
  refine List.ext_getElem (by simp [Printed.text, hout]) fun i hi hi' ↦ ?_
  simp [Printed.text, hbuf, hi']

/-- What a format of one directive puts out. -/
theorem vprintf_text {ch : UInt8} (hch : ch ≠ 0) (hstring : directive ch ≠ .string) :
    (vprintf mem (cString 0 ['%'.toUInt8, ch]) args buf (fuel + 3)).text = (Piece.directive ch).text (args 0) [] := by
  have hpieces : pieces ['%'.toUInt8, ch] = [.directive ch] := pieces_directive ch
  have hmatch : Matching mem args (fun _ ↦ []) (fuel + 3) (pieces ['%'.toUInt8, ch]) 0 := by
    rw [hpieces]
    refine ⟨?_, trivial⟩
    rintro _ ⟨⟩ h
    exact absurd h hstring
  rw [vprintf, vprintfFrom_eq (holdsText_cString (by simpa using ⟨by decide, hch⟩)) hmatch (endsUnpaired_directive ch)
    (by simp), Printed.text_puts, hpieces]
  exact List.append_nil _

/-- `sprintf` leaves the text that the format puts out, and a NUL byte behind it. -/
theorem sprintf_text (mem format : ℕ → UInt8) (args : ℕ → BitVec 64) (out : ℕ → UInt8) (fuel : ℕ) :
    (List.range ((sprintf mem format args out fuel).out + 1)).map (sprintf mem format args out fuel).buf =
      (vprintf mem format args out fuel).text ++ [0] := by
  rw [sprintf, List.range_succ, List.map_append, Printed.text]
  congr 1
  · refine List.map_congr_left fun i hi ↦ Function.update_of_ne ?_ ..
    exact (List.mem_range.1 hi).ne
  · exact congrArg ([·]) (Function.update_self ..)

/-- Every number comes out as it is but the least `int` and `long`; `%u` takes the upper half of its type for
negative. -/
theorem numerals_iff (mem buf : ℕ → UInt8) (args : ℕ → BitVec 64) (fuel : ℕ) :
    (Spells readDecimal (vprintf mem (cString 0 (cText "%d")) args buf (fuel + 3)).text (intCells (argInt (args 0)))
      (argInt (args 0)) ↔ argInt (args 0) ≠ -2 ^ 31) ∧
    (Spells readDecimal (vprintf mem (cString 0 (cText "%u")) args buf (fuel + 3)).text (intCells (argInt (args 0)))
      ((args 0).setWidth 32).toNat ↔ ((args 0).setWidth 32).toNat < 2 ^ 31) ∧
    (Spells readHex (vprintf mem (cString 0 (cText "%x")) args buf (fuel + 3)).text (longCells (argLong (args 0)))
      (argLong (args 0)) ↔ argLong (args 0) ≠ -2 ^ 63) := by
  have hint := readDecimal_intText (argInt_range (args 0)).1
  have hd : (vprintf mem (cString 0 (cText "%d")) args buf (fuel + 3)).text = intText (argInt (args 0)) :=
    vprintf_text (by decide) (by decide)
  have hu : (vprintf mem (cString 0 (cText "%u")) args buf (fuel + 3)).text = intText (argInt (args 0)) :=
    vprintf_text (by decide) (by decide)
  have hx : (vprintf mem (cString 0 (cText "%x")) args buf (fuel + 3)).text = longText (argLong (args 0)) :=
    vprintf_text (by decide) (by decide)
  have hcells := intCells_length_le (args 0)
  refine ⟨?_, ?_, ?_⟩
  · rw [Spells, hd, hint, and_iff_left hcells]
    split <;> simp_all
  · have hunsigned := BitVec.toInt_eq_toNat_cond ((args 0).setWidth 32)
    rw [← argInt] at hunsigned
    rw [Spells, hu, hint, and_iff_left hcells]
    split <;> split at hunsigned <;> simp only [Option.some_inj, reduceCtorEq, false_iff] <;> omega
  · rw [Spells, hx, readHex_longText (argLong_range (args 0)).1, and_iff_left (longCells_length_le (args 0))]
    split <;> simp_all

/-- Three numbers that do not come out as they are. -/
theorem numerals_extreme :
    ¬ Spells readDecimal (vprintf (fun _ ↦ 0) (cString 0 (cText "%d")) (fun _ ↦ 2147483648) (fun _ ↦ 0) 3).text
      (intCells (argInt 2147483648)) (argInt 2147483648) ∧
    ¬ Spells readDecimal (vprintf (fun _ ↦ 0) (cString 0 (cText "%u")) (fun _ ↦ 4294967295) (fun _ ↦ 0) 3).text
      (intCells (argInt 4294967295)) 4294967295 ∧
    ¬ Spells readHex (vprintf (fun _ ↦ 0) (cString 0 (cText "%x")) (fun _ ↦ 9223372036854775808) (fun _ ↦ 0) 3).text
      (longCells (argLong 9223372036854775808)) (argLong 9223372036854775808) := by
  refine ⟨fun h ↦ ?_, fun h ↦ ?_, fun h ↦ ?_⟩ <;> exact absurd h.1 (by decide +kernel)

end Shell

end GemOS
