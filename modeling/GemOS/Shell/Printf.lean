import GemOS.Shell.Commands
import Mathlib.Data.BitVec

/-!
# The formatted output

`vprintf` fetches characters of the format in two places, and only the first tests for the NUL byte. A format that
ends in a `%` of its own is therefore read past its end. The texts are shorter than 2^31, so the `int` counters are
natural numbers.
-/

namespace GemOS

namespace Shell

/-- The characters in `buf`, and the next free one. -/
structure Buffer where
  buf : ℕ → UInt8
  out : ℕ

namespace Buffer

/-- `buf[out++] = ch`. -/
def put (b : Buffer) (ch : UInt8) : Buffer := ⟨Function.update b.buf b.out ch, b.out + 1⟩

@[simp] theorem put_buf (b : Buffer) (ch : UInt8) : (b.put ch).buf = Function.update b.buf b.out ch := rfl

@[simp] theorem put_out (b : Buffer) (ch : UInt8) : (b.put ch).out = b.out + 1 := rfl

def puts (b : Buffer) (text : List UInt8) : Buffer := text.foldl put b

@[simp] theorem puts_nil (b : Buffer) : b.puts [] = b := rfl

@[simp] theorem puts_cons (b : Buffer) (ch : UInt8) (text : List UInt8) :
    b.puts (ch :: text) = (b.put ch).puts text := rfl

theorem puts_append (b : Buffer) (text more : List UInt8) : b.puts (text ++ more) = (b.puts text).puts more :=
  List.foldl_append

/-- A text comes behind what is there, and nothing else changes. -/
theorem puts_spec (b : Buffer) (text : List UInt8) : (b.puts text).out = b.out + text.length ∧
    ∀ w, (b.puts text).buf w = if w < b.out then b.buf w else (text[w - b.out]?).getD (b.buf w) := by
  induction text generalizing b with
  | nil => exact ⟨rfl, fun w ↦ (ite_self _).symm⟩
  | cons ch text ih =>
    obtain ⟨hout, hbuf⟩ := ih (b.put ch)
    refine ⟨by rw [puts_cons, hout, put_out, List.length_cons, Nat.add_assoc, Nat.add_comm 1], fun w ↦ ?_⟩
    rw [puts_cons, hbuf, put_out, put_buf]
    rcases lt_trichotomy w b.out with hlt | rfl | hgt
    · rw [if_pos (by omega), if_pos hlt, Function.update_of_ne hlt.ne]
    · rw [if_pos (by omega), if_neg (lt_irrefl _), Function.update_self, Nat.sub_self]
      rfl
    · obtain ⟨d, rfl⟩ := Nat.exists_eq_add_of_lt hgt
      rw [if_neg (by omega), if_neg (by omega), Function.update_of_ne (by omega),
        show b.out + d + 1 - (b.out + 1) = d by omega,
        show b.out + d + 1 - b.out = d + 1 by omega, List.getElem?_cons_succ]

end Buffer

/-- The cases of the `switch`. -/
inductive Directive where
  | char
  | int
  | long
  | string
  | other
  deriving DecidableEq

def directive (ch : UInt8) : Directive :=
  if ch = 'c'.toUInt8 then .char
  else if ch = 'd'.toUInt8 ∨ ch = 'u'.toUInt8 then .int
  else if ch = 'x'.toUInt8 then .long
  else if ch = 's'.toUInt8 then .string
  else .other

/-- The arguments taken. -/
def Directive.takes : Directive → ℕ
  | other => 0
  | _ => 1

/-- `va_arg(args, int)`: the lower half of the word. -/
def argInt (word : BitVec 64) : ℤ := (word.setWidth 32).toInt

/-- `va_arg(args, long)`. -/
def argLong (word : BitVec 64) : ℤ := word.toInt

/-- `'0' + tmp % 10`. -/
def decimalDigit (r : ℤ) : UInt8 := UInt8.ofInt (48 + r)

def hexDigit (r : ℤ) : UInt8 := if 9 < r then UInt8.ofInt (65 + (r - 10)) else UInt8.ofInt (48 + r)

/-- `chars` after `while(tmp)`, whose rounds bring `tmp` nearer to 0. -/
def digitCells (digit : ℤ → UInt8) (base : ℤ) : (fuel : ℕ) → (tmp : ℤ) → List UInt8
  | 0, _ => []
  | fuel + 1, tmp => if tmp = 0 then [] else digit (tmp.tmod base) :: digitCells digit base fuel (tmp.tdiv base)

/-- `tmp` where the digits start: `-tmp` wraps. -/
def magnitude (modulus : ℕ) (num : ℤ) : ℤ := if num < 0 then (-num).bmod modulus else num

/-- The cells of `chars` that an `int` takes. -/
def intCells (num : ℤ) : List UInt8 := digitCells decimalDigit 10 num.natAbs (magnitude (2 ^ 32) num)

def longCells (num : ℤ) : List UInt8 := digitCells hexDigit 16 num.natAbs (magnitude (2 ^ 64) num)

/-- The cases `d` and `u`. -/
def printInt (num : ℤ) (b : Buffer) : Buffer :=
  if num = 0 then b.put 48
  else (if num < 0 then b.put 45 else b).puts (intCells num).reverse

/-- The case `x`. -/
def printLong (num : ℤ) (b : Buffer) : Buffer :=
  let b := ((if num < 0 then b.put 45 else b).put 48).put 120
  if num = 0 then b.put 48 else b.puts (longCells num).reverse

/-- The loop of the case `s`, with whether it ended. -/
def copyString (mem : ℕ → UInt8) (str : ℕ) : (fuel : ℕ) → (i : ℕ) → Buffer → Buffer × Bool
  | 0, _, b => (b, false)
  | fuel + 1, i, b => if mem (str + i) = 0 then (b, true) else copyString mem str fuel (i + 1) (b.put (mem (str + i)))

def printDirective (mem : ℕ → UInt8) (fuel : ℕ) (ch : UInt8) (word : BitVec 64) (b : Buffer) : Buffer × Bool :=
  match directive ch with
  | .char => (b.put (UInt8.ofNat word.toNat), true)
  | .int => (printInt (argInt word) b, true)
  | .long => (printLong (argLong word) b, true)
  | .string => if word = 0 then (b, true) else copyString mem word.toNat fuel 0 b
  | .other => (b.put ch, true)

/-- The buffer after some steps of `vprintf`, the arguments taken and the characters of the format read. -/
structure Printed where
  buffer : Buffer
  taken : ℕ
  reads : List ℕ
  ended : Bool

def Printed.after (reads : List ℕ) (ended : Bool) (p : Printed) : Printed :=
  { p with reads := reads ++ p.reads, ended := ended && p.ended }

/-- The outer loop; `limit` is the fuel of the inner ones. -/
def vprintfFrom (mem format : ℕ → UInt8) (args : ℕ → BitVec 64) (limit : ℕ) : (fuel : ℕ) →
    (count taken : ℕ) → Buffer → Printed
  | 0, _, taken, b => ⟨b, taken, [], false⟩
  | fuel + 1, count, taken, b =>
    if format count = 0 then ⟨b, taken, [count], true⟩
    else if format count ≠ '%'.toUInt8 then
      (vprintfFrom mem format args limit fuel (count + 1) taken (b.put (format count))).after [count] true
    else
      -- no test for the NUL byte here
      let ch := format (count + 1)
      let printed := printDirective mem limit ch (args taken) b
      (vprintfFrom mem format args limit fuel (count + 2) (taken + (directive ch).takes) printed.1).after
        [count, count + 1] printed.2

/-- `vprintf`, which returns `out`. -/
def vprintf (mem format : ℕ → UInt8) (args : ℕ → BitVec 64) (buf : ℕ → UInt8) (fuel : ℕ) : Printed :=
  vprintfFrom mem format args fuel fuel 0 0 ⟨buf, 0⟩

/-- `sprintf` puts a NUL byte behind the text. -/
def sprintf (mem format : ℕ → UInt8) (args : ℕ → BitVec 64) (out : ℕ → UInt8) (fuel : ℕ) : Buffer :=
  let printed := (vprintf mem format args out fuel).buffer
  { printed with buf := Function.update printed.buf printed.out 0 }

/-- A piece of a format: a character for itself, or what stands behind a `%`. -/
inductive Piece where
  | literal (ch : UInt8)
  | directive (ch : UInt8)

/-- The pieces of a format; a `%` at the end has nothing to stand before. -/
def pieces : List UInt8 → List Piece
  | [] => []
  | c :: rest =>
    if c = '%'.toUInt8 then
      match rest with
      | [] => []
      | ch :: rest => .directive ch :: pieces rest
    else .literal c :: pieces rest

/-- The format ends in a `%` that is not itself behind a `%`. -/
def endsUnpaired : List UInt8 → Bool
  | [] => false
  | c :: rest =>
    if c = '%'.toUInt8 then
      match rest with
      | [] => true
      | _ :: rest => endsUnpaired rest
    else endsUnpaired rest

def Piece.takes : Piece → ℕ
  | literal _ => 0
  | directive ch => (Shell.directive ch).takes

/-- What `%d` and `%u` put out. -/
def intText (num : ℤ) : List UInt8 :=
  if num = 0 then [48] else (if num < 0 then [45] else []) ++ (intCells num).reverse

def longText (num : ℤ) : List UInt8 :=
  (if num < 0 then [45] else []) ++ [48, 120] ++ (if num = 0 then [48] else (longCells num).reverse)

/-- What a piece stands for, given its argument and the text that the argument points to. -/
def Piece.text (word : BitVec 64) (string : List UInt8) : Piece → List UInt8
  | literal ch => [ch]
  | directive ch =>
    match Shell.directive ch with
    | .char => [UInt8.ofNat word.toNat]
    | .int => intText (argInt word)
    | .long => longText (argLong word)
    | .string => if word = 0 then [] else string
    | .other => [ch]

/-- The texts of the pieces one after the other, each directive with the next argument. -/
def rendered (args : ℕ → BitVec 64) (strings : ℕ → List UInt8) : List Piece → (taken : ℕ) → List UInt8
  | [], _ => []
  | p :: ps, taken => p.text (args taken) (strings taken) ++ rendered args strings ps (taken + p.takes)

/-- A text without NUL bytes, and one behind it. -/
structure HoldsText (mem : ℕ → UInt8) (start : ℕ) (text : List UInt8) : Prop where
  text_ne : ∀ c ∈ text, c ≠ 0
  mem_eq : ∀ i ≤ text.length, mem (start + i) = text.getD i 0

/-- The arguments that the directives of `ps` take: one of `%s` is NULL or points to its text. -/
def Matching (mem : ℕ → UInt8) (args : ℕ → BitVec 64) (strings : ℕ → List UInt8) (limit : ℕ) :
    List Piece → (taken : ℕ) → Prop
  | [], _ => True
  | p :: ps, taken =>
    (∀ ch, p = .directive ch → Shell.directive ch = .string → args taken ≠ 0 →
      HoldsText mem (args taken).toNat (strings taken) ∧ (strings taken).length < limit) ∧
    Matching mem args strings limit ps (taken + p.takes)

/-- `vprintf` ended with the concatenation of the pieces in `buf` and its length as `out`, one argument taken by each
directive that has one, and no character read behind the NUL byte of the format. -/
structure Lawful (cs : List UInt8) (args : ℕ → BitVec 64) (strings : ℕ → List UInt8) (buf : ℕ → UInt8)
    (p : Printed) : Prop where
  ended : p.ended = true
  buf_eq : ∀ w, p.buffer.buf w = ((rendered args strings (pieces cs) 0)[w]?).getD (buf w)
  out_eq : p.buffer.out = (rendered args strings (pieces cs) 0).length
  taken_eq : p.taken = ((pieces cs).map Piece.takes).sum
  reads_le : ∀ count ∈ p.reads, count ≤ cs.length

variable {mem format : ℕ → UInt8} {args : ℕ → BitVec 64} {strings : ℕ → List UInt8} {limit fuel count taken start : ℕ}
  {buf : ℕ → UInt8} {b : Buffer} {cs text : List UInt8}

theorem pieces_literal {c : UInt8} (hc : c ≠ '%'.toUInt8) : pieces (c :: cs) = .literal c :: pieces cs := by
  rw [pieces.eq_def]
  exact if_neg hc

theorem pieces_directive (ch : UInt8) : pieces ('%'.toUInt8 :: ch :: cs) = .directive ch :: pieces cs := by
  rw [pieces.eq_def]
  exact if_pos rfl

theorem endsUnpaired_literal {c : UInt8} (hc : c ≠ '%'.toUInt8) : endsUnpaired (c :: cs) = endsUnpaired cs := by
  rw [endsUnpaired.eq_def]
  exact if_neg hc

theorem endsUnpaired_directive (ch : UInt8) : endsUnpaired ('%'.toUInt8 :: ch :: cs) = endsUnpaired cs := by
  rw [endsUnpaired.eq_def]
  exact if_pos rfl

theorem HoldsText.nil_iff : HoldsText mem start [] ↔ mem start = 0 := by
  refine ⟨fun h ↦ h.mem_eq 0 le_rfl, fun h ↦ ⟨by simp, fun i hi ↦ ?_⟩⟩
  obtain rfl : i = 0 := Nat.le_zero.1 hi
  exact h

theorem HoldsText.cons_iff {c : UInt8} : HoldsText mem start (c :: text) ↔
    c ≠ 0 ∧ mem start = c ∧ HoldsText mem (start + 1) text := by
  constructor
  · intro h
    obtain ⟨hc, htext⟩ := List.forall_mem_cons.1 h.text_ne
    refine ⟨hc, h.mem_eq 0 (Nat.zero_le _), htext, fun i hi ↦ ?_⟩
    rw [Nat.add_assoc, Nat.add_comm 1]
    exact h.mem_eq (i + 1) (Nat.succ_le_succ hi)
  · rintro ⟨hc, hmem, htext⟩
    refine ⟨List.forall_mem_cons.2 ⟨hc, htext.text_ne⟩, fun i hi ↦ ?_⟩
    cases i with
    | zero => exact hmem
    | succ i =>
      rw [Nat.add_comm i, ← Nat.add_assoc, Nat.add_comm 1 i]
      exact htext.mem_eq i (Nat.le_of_succ_le_succ hi)

theorem copyString_eq {i : ℕ} (h : HoldsText mem (start + i) text) (hfuel : text.length < fuel) :
    copyString mem start fuel i b = (b.puts text, true) := by
  induction text generalizing fuel i b with
  | nil =>
    obtain ⟨fuel, rfl⟩ := Nat.exists_eq_succ_of_ne_zero (Nat.ne_of_gt hfuel)
    rw [copyString, if_pos (HoldsText.nil_iff.1 h)]
    rfl
  | cons c text ih =>
    obtain ⟨fuel, rfl⟩ := Nat.exists_eq_succ_of_ne_zero (Nat.ne_of_gt (Nat.zero_lt_of_lt hfuel))
    obtain ⟨hc, hmem, htext⟩ := HoldsText.cons_iff.1 h
    rw [copyString, hmem, if_neg hc]
    exact ih htext (Nat.lt_of_succ_lt_succ hfuel)

theorem printInt_eq (num : ℤ) : printInt num b = b.puts (intText num) := by
  rw [printInt, intText]
  split
  · rfl
  · rw [Buffer.puts_append]
    split <;> rfl

theorem printLong_eq (num : ℤ) : printLong num b = b.puts (longText num) := by
  rw [printLong, longText, Buffer.puts_append, Buffer.puts_append]
  split <;> split <;> rfl

/-- A directive puts out its text. -/
theorem printDirective_eq {ch : UInt8} {word : BitVec 64} {string : List UInt8}
    (h : directive ch = .string → word ≠ 0 → HoldsText mem word.toNat string ∧ string.length < limit) :
    printDirective mem limit ch word b = (b.puts ((Piece.directive ch).text word string), true) := by
  rw [printDirective, Piece.text]
  cases hch : directive ch with
  | char => rfl
  | int => exact congrArg (·, true) (printInt_eq _)
  | long => exact congrArg (·, true) (printLong_eq _)
  | string =>
    by_cases hword : word = 0
    · simp only [if_pos hword, Buffer.puts_nil]
    · obtain ⟨hstring, hlimit⟩ := h hch hword
      simp only [if_neg hword]
      exact copyString_eq hstring hlimit
  | other => rfl

theorem vprintfFrom_literal {c : UInt8} (h : HoldsText format count (c :: cs)) (hc : c ≠ '%'.toUInt8) :
    vprintfFrom mem format args limit (fuel + 1) count taken b =
      (vprintfFrom mem format args limit fuel (count + 1) taken (b.put c)).after [count] true := by
  obtain ⟨hne, hformat, -⟩ := HoldsText.cons_iff.1 h
  rw [vprintfFrom, hformat, if_neg hne, if_pos hc]

theorem vprintfFrom_directive (h : format count = '%'.toUInt8) :
    vprintfFrom mem format args limit (fuel + 1) count taken b =
      (vprintfFrom mem format args limit fuel (count + 2) (taken + (directive (format (count + 1))).takes)
        (printDirective mem limit (format (count + 1)) (args taken) b).1).after [count, count + 1]
        (printDirective mem limit (format (count + 1)) (args taken) b).2 := by
  rw [vprintfFrom, h, if_neg (by decide), if_neg (not_not.2 rfl)]

/-- The reads are the rest of the format up to its NUL byte. -/
theorem vprintfFrom_eq (h : HoldsText format count cs) (hmatch : Matching mem args strings limit (pieces cs) taken)
    (hpaired : endsUnpaired cs = false) (hfuel : cs.length < fuel) :
    vprintfFrom mem format args limit fuel count taken b =
      ⟨b.puts (rendered args strings (pieces cs) taken), taken + ((pieces cs).map Piece.takes).sum,
        List.range' count (cs.length + 1), true⟩ := by
  obtain ⟨fuel, rfl⟩ := Nat.exists_eq_succ_of_ne_zero (Nat.ne_of_gt (Nat.zero_lt_of_lt hfuel))
  induction cs using pieces.induct generalizing fuel count taken b with
  | case1 =>
    rw [vprintfFrom, if_pos (HoldsText.nil_iff.1 h)]
    rfl
  | case2 => exact absurd hpaired (by decide)
  | case3 ch rest ih =>
    obtain ⟨-, hpercent, hch⟩ := HoldsText.cons_iff.1 h
    obtain ⟨-, hch, hrest⟩ := HoldsText.cons_iff.1 hch
    simp only [List.length_cons, Nat.succ_eq_add_one] at hfuel
    obtain ⟨fuel, rfl⟩ := Nat.exists_eq_succ_of_ne_zero (n := fuel) (by omega)
    rw [pieces_directive, Matching] at hmatch
    rw [endsUnpaired_directive] at hpaired
    have hrec := ih (b := b.puts ((Piece.directive ch).text (args taken) (strings taken))) hrest hmatch.2
      hpaired fuel (by omega)
    rw [vprintfFrom_directive hpercent, hch, printDirective_eq (hmatch.1 ch rfl), pieces_directive, rendered,
      Buffer.puts_append, List.map_cons, List.sum_cons, ← Nat.add_assoc, List.length_cons,
        List.length_cons, List.range'_succ,
      List.range'_succ]
    exact congrArg (Printed.after [count, count + 1] true) hrec
  | case4 c rest hc ih =>
    obtain ⟨-, -, hrest⟩ := HoldsText.cons_iff.1 h
    simp only [List.length_cons, Nat.succ_eq_add_one] at hfuel
    obtain ⟨fuel, rfl⟩ := Nat.exists_eq_succ_of_ne_zero (n := fuel) (by omega)
    rw [pieces_literal hc, Matching] at hmatch
    rw [endsUnpaired_literal hc] at hpaired
    have hrec := ih (b := b.put c) hrest hmatch.2 hpaired fuel (by omega)
    rw [vprintfFrom_literal h hc, pieces_literal hc, rendered, Buffer.puts_append, List.map_cons, List.sum_cons,
      ← Nat.add_assoc, List.length_cons, List.range'_succ]
    exact congrArg (Printed.after [count] true) hrec

/-- A single `%` at the end takes the NUL byte for a directive, and the loop goes on behind it. -/
theorem vprintfFrom_unpaired (h : HoldsText format count cs) (hunpaired : endsUnpaired cs = true)
    (hfuel : cs.length < fuel) :
    count + cs.length + 1 ∈ (vprintfFrom mem format args limit fuel count taken b).reads := by
  obtain ⟨fuel, rfl⟩ := Nat.exists_eq_succ_of_ne_zero (Nat.ne_of_gt (Nat.zero_lt_of_lt hfuel))
  induction cs using pieces.induct generalizing fuel count taken b with
  | case1 => exact absurd hunpaired (by decide)
  | case2 =>
    obtain ⟨-, hpercent, -⟩ := HoldsText.cons_iff.1 h
    obtain ⟨fuel, rfl⟩ := Nat.exists_eq_succ_of_ne_zero (n := fuel) (Nat.ne_of_gt (Nat.lt_of_succ_lt_succ hfuel))
    rw [vprintfFrom_directive hpercent]
    refine List.mem_append_right _ ?_
    rw [vprintfFrom]
    split
    · exact List.mem_singleton_self _
    · split <;> exact List.mem_append_left _ (List.mem_cons_self ..)
  | case3 ch rest ih =>
    obtain ⟨-, hpercent, hch⟩ := HoldsText.cons_iff.1 h
    obtain ⟨-, -, hrest⟩ := HoldsText.cons_iff.1 hch
    simp only [List.length_cons, Nat.succ_eq_add_one] at hfuel
    obtain ⟨fuel, rfl⟩ := Nat.exists_eq_succ_of_ne_zero (n := fuel) (by omega)
    rw [endsUnpaired_directive] at hunpaired
    rw [vprintfFrom_directive hpercent, List.length_cons, List.length_cons,
      show count + (rest.length + 1 + 1) + 1 = count + 2 + rest.length + 1 by omega]
    exact List.mem_append_right _ (ih hrest hunpaired fuel (by omega))
  | case4 c rest hc ih =>
    obtain ⟨-, -, hrest⟩ := HoldsText.cons_iff.1 h
    simp only [List.length_cons, Nat.succ_eq_add_one] at hfuel
    obtain ⟨fuel, rfl⟩ := Nat.exists_eq_succ_of_ne_zero (n := fuel) (by omega)
    rw [endsUnpaired_literal hc] at hunpaired
    rw [vprintfFrom_literal h hc, List.length_cons, show count + (rest.length + 1) + 1 =
      count + 1 + rest.length + 1 by omega]
    exact List.mem_append_right _ (ih hrest hunpaired fuel (by omega))

/-- `vprintf` puts out what the format and its arguments stand for exactly when no `%` is left over at the end. -/
theorem vprintf_lawful_iff (h : HoldsText format 0 cs) (hmatch : Matching mem args strings fuel (pieces cs) 0)
    (hfuel : cs.length < fuel) :
    Lawful cs args strings buf (vprintf mem format args buf fuel) ↔ endsUnpaired cs = false := by
  constructor
  · intro hlawful
    rw [← Bool.not_eq_true]
    intro hunpaired
    have hread := hlawful.reads_le _ (vprintfFrom_unpaired h hunpaired hfuel)
    omega
  · intro hpaired
    rw [vprintf, vprintfFrom_eq h hmatch hpaired hfuel]
    obtain ⟨hout, hbuf⟩ := Buffer.puts_spec ⟨buf, 0⟩ (rendered args strings (pieces cs) 0)
    refine ⟨rfl, fun w ↦ ?_, hout.trans (Nat.zero_add _), Nat.zero_add _, fun count hcount ↦ ?_⟩
    · exact (hbuf w).trans (if_neg (Nat.not_lt_zero w))
    · have := (List.mem_range'_1.1 hcount).2
      omega

/-- A text in memory, with NUL bytes behind it. -/
def cString (start : ℕ) (text : List UInt8) (i : ℕ) : UInt8 := text.getD (i - start) 0

theorem holdsText_cString (h : text.all (· != 0) = true) : HoldsText (cString start text) start text := by
  refine ⟨fun c hc ↦ bne_iff_ne.1 (List.all_eq_true.1 h c hc), fun i _ ↦ ?_⟩
  rw [cString, Nat.add_sub_cancel_left]

theorem vprintf_lawful_iff_string : Lawful (cText "%s=%d") (fun _ ↦ 8) (fun _ ↦ cText "pid") (fun _ ↦ 0)
    (vprintf (cString 8 (cText "pid")) (cString 0 (cText "%s=%d")) (fun _ ↦ 8) (fun _ ↦ 0) 8) ↔
      endsUnpaired (cText "%s=%d") = false := by
  have hpieces : pieces (cText "%s=%d") = [.directive 115, .literal 61, .directive 100] := rfl
  have hmatch : Matching (cString 8 (cText "pid")) (fun _ ↦ 8) (fun _ ↦ cText "pid") 8 (pieces (cText "%s=%d")) 0 := by
    rw [hpieces]
    refine ⟨fun _ _ _ _ ↦ ⟨holdsText_cString (by decide), by decide⟩, ?_, ?_, trivial⟩
    · exact fun ch hch ↦ nomatch hch
    · rintro ch hch hstring
      cases hch
      exact absurd hstring (by decide)
  exact vprintf_lawful_iff (holdsText_cString (by decide)) hmatch (by decide)

/-- The format `%`: the NUL byte is put out, and the character behind it is read. -/
theorem vprintf_unpaired_percent : HoldsText (cString 0 (cText "%")) 0 (cText "%") ∧
    ¬ Lawful (cText "%") (fun _ ↦ 0) (fun _ ↦ []) (fun _ ↦ 0)
      (vprintf (fun _ ↦ 0) (cString 0 (cText "%")) (fun _ ↦ 0) (fun _ ↦ 0) 2) := by
  refine ⟨holdsText_cString (by decide), fun h ↦ ?_⟩
  exact absurd (h.reads_le 2 (by decide)) (by decide)

end Shell

end GemOS
