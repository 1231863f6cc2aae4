import GemOS.Foundation.Runs
import Mathlib.Data.List.GetD
import Mathlib.Data.List.TakeWhile
import Mathlib.Tactic

/-!
# Command lines

`serial_read` puts the bytes up to a carriage return into the chunk of `invoke_dsh`, with a NUL byte behind them, and
drops what comes before the next newline. A line that starts with `init` goes to `parse_init`, which starts at its sixth
byte. None of the loops has a bound of its own: a long line runs over the chunk, a bare `init` or a blank at the end
takes the scan past the NUL byte into the rest of an earlier command, and six arguments need a sixth slot.
-/

namespace GemOS

open Foundation

/-- The bytes of a C string literal. -/
def cText (s : String) : List UInt8 := s.toList.map Char.toUInt8

def isBlank (c : UInt8) : Bool := c = 32 || c = 9

/-- An access of the shell, by offset from `command` or by slot of `args`. -/
inductive Access where
  | writeByte (offset : ℕ)
  | readByte (offset : ℕ)
  | writeSlot (num : ℕ)

/-- The slots after some steps of `parse_init`, and what they touched. -/
structure Parsed where
  args : ℕ → ℕ
  accesses : List Access
  ended : Bool

def Parsed.after (accesses : List Access) (p : Parsed) : Parsed := { p with accesses := accesses ++ p.accesses }

/-- `value *= 10; value += cmd[ctr] - '0'`, with a signed character. -/
def addDigit (value : ℕ) (c : UInt8) : ℕ :=
  (value * 10 + c.toNat + (if c < 128 then 2 ^ 64 else 2 ^ 64 - 256) - 48) % 2 ^ 64

/-- The loop of `parse_init`; `skipping` in the inner one. -/
def parseFrom (cmd : ℕ → UInt8) : (fuel : ℕ) → (skipping : Bool) → (ctr num value : ℕ) → (args : ℕ → ℕ) → Parsed
  | 0, _, _, _, _, args => ⟨args, [], false⟩
  | fuel + 1, true, ctr, num, value, args =>
    if isBlank (cmd ctr) then (parseFrom cmd fuel true (ctr + 1) num value args).after [.readByte ctr]
    else (parseFrom cmd fuel false (ctr + 1) num (addDigit value (cmd ctr)) args).after [.readByte ctr]
  | fuel + 1, false, ctr, num, value, args =>
    if cmd ctr = 0 then ⟨Function.update args num value, [.readByte ctr, .writeSlot num], true⟩
    else if isBlank (cmd ctr) then
      (parseFrom cmd fuel true ctr (num + 1) 0 (Function.update args num value)).after [.readByte ctr, .writeSlot num]
    else (parseFrom cmd fuel false (ctr + 1) num (addDigit value (cmd ctr)) args).after [.readByte ctr]

/-- `ctr` is an `int`. -/
def parseFuel : ℕ := 2 ^ 32

/-- `parse_init`. -/
def parseInit (cmd : ℕ → UInt8) (args : ℕ → ℕ) (fuel : ℕ) : Parsed := parseFrom cmd fuel false 5 0 0 args

inductive ShellPhase where
  /-- In the first loop of `serial_read`. -/
  | reading (ctr : ℕ)
  /-- In the second one. -/
  | finishing
  | rebooted
  /-- `parse_init` does not come back. -/
  | lost

structure Shell where
  /-- The bytes from `command` on. -/
  command : ℕ → UInt8
  /-- The words from `args` on. -/
  args : ℕ → ℕ
  phase : ShellPhase

namespace Shell

/-- `os_alloc(1024)`. -/
def commandSize : ℕ := 1024

/-- `struct init_args` has five words. -/
def argSlots : ℕ := 5

/-- `!strcmp(command, word)`. -/
def strcmpEq (cmd : ℕ → UInt8) (word : List UInt8) : Bool :=
  (List.range word.length).all (fun i ↦ cmd i = word.getD i 0) && cmd word.length = 0

/-- `!memcmp(command, word, len)`, the whole word. -/
def memcmpEq (cmd : ℕ → UInt8) (word : List UInt8) : Bool := (List.range word.length).all fun i ↦ cmd i = word.getD i 0

def quits (cmd : ℕ → UInt8) : Bool := strcmpEq cmd (cText "exit") || strcmpEq cmd (cText "shutdown")

/-- The line goes to `parse_init`. -/
def launches (cmd : ℕ → UInt8) : Bool := memcmpEq cmd (cText "init")

/-- One round of `invoke_dsh` after `serial_read`; the process that `exec_init` starts comes back to the same loop, and
the other commands only print. -/
def dispatch (s : Shell) : Shell :=
  if s.command 0 = 0 then { s with phase := .reading 0 }
  else if quits s.command then { s with phase := .rebooted }
  else if launches s.command then
    let parsed := parseInit s.command s.args parseFuel
    { s with args := parsed.args, phase := if parsed.ended then .reading 0 else .lost }
  else { s with phase := .reading 0 }

/-- A byte arrives on the console. -/
def consume (ch : UInt8) (s : Shell) : Shell :=
  match s.phase with
  | .reading ctr =>
    if ch = 13 then { s with command := Function.update s.command ctr 0, phase := .finishing }
    else { s with command := Function.update s.command ctr ch, phase := .reading ((ctr + 1) % 2 ^ 32) }
  | .finishing => if ch = 10 then s.dispatch else s
  | .rebooted | .lost => s

/-- What the step touches. -/
def Touches (s : Shell) (ch : UInt8) (a : Access) : Prop :=
  match s.phase with
  | .reading ctr => a = .writeByte ctr
  | .finishing =>
    ch = 10 ∧ s.command 0 ≠ 0 ∧ quits s.command = false ∧ launches s.command = true ∧
      ∃ fuel, a ∈ (parseInit s.command s.args fuel).accesses
  | .rebooted | .lost => False

/-- Inside the chunk, at most at the first NUL byte of the command, inside the structure. -/
def Within (cmd : ℕ → UInt8) : Access → Prop
  | .writeByte offset => offset < commandSize
  | .readByte offset => ∀ i < offset, cmd i ≠ 0
  | .writeSlot num => num < argSlots

/-- The step touches nothing else. -/
def Contained (s : Shell) (ch : UInt8) : Prop := ∀ a, s.Touches ch a → Within s.command a

/-- How many blanks start a run of blanks. -/
def blankRuns : (before : Bool) → List UInt8 → ℕ
  | _, [] => 0
  | before, c :: rest => (if isBlank c && !before then 1 else 0) + blankRuns (isBlank c) rest

/-- The last byte is no blank. -/
def EndsWell (rest : List UInt8) : Prop := ∀ c ∈ rest.getLast?, isBlank c = false

/-- The bytes of a line before its first NUL byte. -/
def text (line : List UInt8) : List UInt8 := line.takeWhile (· ≠ 0)

/-- A line that starts with `init` goes on by at least a byte, has at most four runs of blanks behind its fifth byte,
and does not end with one. -/
def CommandOk (line : List UInt8) : Prop :=
  line.take 4 = cText "init" →
    5 ≤ (text line).length ∧ EndsWell ((text line).drop 5) ∧ blankRuns false ((text line).drop 5) ≤ 4

/-- The command that reboots the machine. -/
def Quits (line : List UInt8) : Prop := text line = cText "exit" ∨ text line = cText "shutdown"

/-- The lines of a stream are short enough, and in order as commands. -/
inductive Orderly : List UInt8 → Prop
  /-- A line of which the end has not arrived. -/
  | unfinished {line : List UInt8} (unread : 13 ∉ line) (short : line.length ≤ commandSize) : Orderly line
  /-- A line for which no newline has arrived. -/
  | finishing {line tail : List UInt8} (unread : 13 ∉ line) (short : line.length < commandSize)
      (waits : 10 ∉ tail) : Orderly (line ++ 13 :: tail)
  | quitting {line tail rest : List UInt8} (unread : 13 ∉ line) (short : line.length < commandSize)
      (waits : 10 ∉ tail) (quits : Quits line) : Orderly (line ++ 13 :: (tail ++ 10 :: rest))
  | command {line tail rest : List UInt8} (unread : 13 ∉ line) (short : line.length < commandSize)
      (waits : 10 ∉ tail) (ok : CommandOk line) (more : Orderly rest) : Orderly (line ++ 13 :: (tail ++ 10 :: rest))

variable {cmd : ℕ → UInt8} {str rest : List UInt8} {ctr num value : ℕ} {args : ℕ → ℕ} {skipping : Bool}

/-- The bytes from an offset on are those of a C string, with its NUL byte. -/
structure HoldsFrom (cmd : ℕ → UInt8) (ctr : ℕ) (str : List UInt8) : Prop where
  byte : ∀ i (h : i < str.length), cmd (ctr + i) = str[i]
  solid : ∀ c ∈ str, c ≠ 0
  stop : cmd (ctr + str.length) = 0

/-- What `parse_init` touches stays within bounds, as a condition on the bytes that are left. -/
def scans : (skipping : Bool) → List UInt8 → ℕ → Prop
  | false, [], num => num < argSlots
  | true, [], _ => False
  | false, c :: rest, num => if isBlank c then num < argSlots ∧ scans true rest (num + 1) else scans false rest num
  | true, c :: rest, num => if isBlank c then scans true rest num else scans false rest num

theorem scans_iff (skipping : Bool) (rest : List UInt8) (num : ℕ) :
    scans skipping rest num ↔
      (skipping = true → rest ≠ []) ∧ EndsWell rest ∧ num + blankRuns skipping rest < argSlots := by
  induction rest generalizing skipping num with
  | nil => cases skipping <;> simp [scans, EndsWell, blankRuns]
  | cons c rest ih =>
    have hends : isBlank c = false → (EndsWell (c :: rest) ↔ EndsWell rest) := fun hblank ↦ by
      cases rest with
      | nil => simp [EndsWell, hblank]
      | cons d rest => simp [EndsWell, List.getLast?_cons_cons]
    have hblankEnds : isBlank c = true → (EndsWell (c :: rest) ↔ rest ≠ [] ∧ EndsWell rest) := fun hblank ↦ by
      cases rest with
      | nil => simp [EndsWell, hblank]
      | cons d rest => simp [EndsWell, List.getLast?_cons_cons]
    cases hblank : isBlank c with
    | false => cases skipping <;> simp [scans, blankRuns, hblank, ih, hends hblank]
    | true =>
      cases skipping with
      | false =>
        simp only [scans, blankRuns, hblank, ih, hblankEnds hblank]
        simp only [if_true, Bool.not_false, Bool.and_self]
        constructor
        · rintro ⟨-, hne, hwell, hruns⟩
          exact ⟨fun h ↦ Bool.noConfusion h, ⟨hne trivial, hwell⟩, by omega⟩
        · rintro ⟨-, ⟨hne, hwell⟩, hruns⟩
          exact ⟨by omega, fun _ ↦ hne, hwell, by omega⟩
      | true => simp [scans, blankRuns, hblank, ih, hblankEnds hblank, and_assoc]

/-- All that the loop touches, in whatever number of steps, stays within bounds. -/
def Clean (cmd : ℕ → UInt8) (skipping : Bool) (ctr num value : ℕ) (args : ℕ → ℕ) : Prop :=
  ∀ fuel, ∀ a ∈ (parseFrom cmd fuel skipping ctr num value args).accesses, Within cmd a

/-- One step of the loop. -/
theorem clean_step {accesses : List Access} {skipping' : Bool} {ctr' num' value' : ℕ} {args' : ℕ → ℕ}
    (hstep : ∀ fuel, parseFrom cmd (fuel + 1) skipping ctr num value args =
      (parseFrom cmd fuel skipping' ctr' num' value' args').after accesses) :
    Clean cmd skipping ctr num value args ↔
      (∀ a ∈ accesses, Within cmd a) ∧ Clean cmd skipping' ctr' num' value' args' := by
  constructor
  · intro h
    refine ⟨fun a ha ↦ h 1 a ?_, fun fuel a ha ↦ h (fuel + 1) a ?_⟩
    · rw [hstep]
      exact List.mem_append_left _ ha
    · rw [hstep]
      exact List.mem_append_right _ ha
  · rintro ⟨hfirst, hrest⟩ fuel a ha
    cases fuel with
    | zero => cases skipping <;> exact (List.not_mem_nil ha).elim
    | succ fuel =>
      rw [hstep] at ha
      rcases List.mem_append.1 ha with hmem | hmem
      · exact hfirst a hmem
      · exact hrest fuel a hmem

theorem within_read (hbefore : ∀ i < ctr, cmd i ≠ 0) {accesses : List Access} :
    (∀ a ∈ .readByte ctr :: accesses, Within cmd a) ↔ ∀ a ∈ accesses, Within cmd a := by
  rw [List.forall_mem_cons]
  exact and_iff_right hbefore

/-- At the NUL byte the loop ends; in the inner one it is stepped over. -/
theorem clean_nil (hbefore : ∀ i < ctr, cmd i ≠ 0) (hstop : cmd ctr = 0) :
    Clean cmd skipping ctr num value args ↔ scans skipping [] num := by
  have hblank : isBlank (cmd ctr) = false := by rw [hstop]; rfl
  cases skipping with
  | false =>
    have hstep : ∀ fuel, parseFrom cmd (fuel + 1) false ctr num value args =
        ⟨Function.update args num value, [.readByte ctr, .writeSlot num], true⟩ := fun fuel ↦ by
      rw [parseFrom, if_pos hstop]
    constructor
    · intro h
      exact h 1 (.writeSlot num) (by rw [hstep]; simp)
    · intro hslot fuel a ha
      cases fuel with
      | zero => exact (List.not_mem_nil ha).elim
      | succ fuel =>
        rw [hstep] at ha
        rcases List.mem_cons.1 ha with rfl | ha
        · exact hbefore
        · obtain rfl := List.mem_singleton.1 ha
          exact hslot
  | true =>
    have hstep : ∀ fuel, parseFrom cmd (fuel + 1) true ctr num value args =
        (parseFrom cmd fuel false (ctr + 1) num (addDigit value (cmd ctr)) args).after [.readByte ctr] := fun fuel ↦ by
      rw [parseFrom, if_neg (by rw [hblank]; exact Bool.noConfusion)]
    rw [clean_step hstep]
    refine iff_of_false (fun h ↦ ?_) id
    -- the next step reads the byte behind the NUL byte
    have hread : ∀ p : Parsed, parseFrom cmd 1 false (ctr + 1) num (addDigit value (cmd ctr)) args = p →
        Access.readByte (ctr + 1) ∈ p.accesses := by
      rintro _ rfl
      rw [parseFrom]
      split_ifs <;> simp [Parsed.after]
    exact h.2 1 (.readByte (ctr + 1)) (hread _ rfl) ctr (Nat.lt_succ_self ctr) hstop

theorem HoldsFrom.tail {c : UInt8} (h : HoldsFrom cmd ctr (c :: rest)) : HoldsFrom cmd (ctr + 1) rest where
  byte i hi := by
    have hbyte := h.byte (i + 1) (by simpa using hi)
    rwa [List.getElem_cons_succ, show ctr + (i + 1) = ctr + 1 + i by omega] at hbyte
  solid d hd := h.solid d (List.mem_cons_of_mem c hd)
  stop := by
    have hstop := h.stop
    rwa [List.length_cons, show ctr + (rest.length + 1) = ctr + 1 + rest.length by omega] at hstop

/-- What the loop of `parse_init` touches stays within bounds exactly when the bytes that are left allow it. -/
theorem clean_iff (h : HoldsFrom cmd ctr rest) (hbefore : ∀ i < ctr, cmd i ≠ 0) :
    Clean cmd skipping ctr num value args ↔ scans skipping rest num := by
  induction rest generalizing skipping ctr num value args with
  | nil => exact clean_nil hbefore h.stop
  | cons c rest ih =>
    have hbyte : cmd ctr = c := h.byte 0 (by simp)
    have hsolid : cmd ctr ≠ 0 := hbyte ▸ h.solid c List.mem_cons_self
    have hbefore' : ∀ i < ctr + 1, cmd i ≠ 0 := fun i hi ↦ by
      rcases Nat.lt_succ_iff_lt_or_eq.1 hi with hlt | rfl
      · exact hbefore i hlt
      · exact hsolid
    have hnone : (∀ a ∈ [Access.readByte ctr], Within cmd a) ↔ True := by
      rw [within_read hbefore]
      simp
    cases hblank : isBlank c with
    | false =>
      cases skipping with
      | false =>
        rw [clean_step fun fuel ↦ by rw [parseFrom, if_neg hsolid, hbyte, hblank]; rfl]
        rw [hnone, true_and, ih h.tail hbefore']
        simp [scans, hblank]
      | true =>
        rw [clean_step fun fuel ↦ by rw [parseFrom, hbyte, hblank]; rfl]
        rw [hnone, true_and, ih h.tail hbefore']
        simp [scans, hblank]
    | true =>
      have hskip : ∀ num value args, Clean cmd true ctr num value args ↔ scans true rest num := fun num value args ↦ by
        rw [clean_step fun fuel ↦ by rw [parseFrom, hbyte, hblank]; rfl]
        rw [hnone, true_and, ih h.tail hbefore']
      cases skipping with
      | false =>
        rw [clean_step fun fuel ↦ by rw [parseFrom, if_neg hsolid, hbyte, hblank]; rfl]
        rw [within_read hbefore, hskip]
        simp [scans, hblank, Within]
      | true =>
        rw [hskip]
        simp [scans, hblank]

theorem HoldsFrom.drop (h : HoldsFrom cmd 0 str) {n : ℕ} (hn : n ≤ str.length) : HoldsFrom cmd n (str.drop n) where
  byte i hi := by
    rw [List.length_drop] at hi
    have hbyte := h.byte (n + i) (by omega)
    rwa [Nat.zero_add, ← List.getElem_drop] at hbyte
  solid c hc := h.solid c (List.mem_of_mem_drop hc)
  stop := by
    have hstop := h.stop
    rwa [Nat.zero_add, ← Nat.add_sub_cancel' hn, ← List.length_drop] at hstop

theorem HoldsFrom.ne_zero (h : HoldsFrom cmd 0 str) {i : ℕ} (hi : i < str.length) : cmd i ≠ 0 := by
  have hbyte := h.byte i hi
  rw [Nat.zero_add] at hbyte
  rw [hbyte]
  exact h.solid _ (List.getElem_mem hi)

/-- `parse_init` on a command of at least four bytes. -/
theorem parseInit_within (h : HoldsFrom cmd 0 str) (hlong : 4 ≤ str.length) (args : ℕ → ℕ) :
    (∀ fuel, ∀ a ∈ (parseInit cmd args fuel).accesses, Within cmd a) ↔
      5 ≤ str.length ∧ EndsWell (str.drop 5) ∧ blankRuns false (str.drop 5) ≤ 4 := by
  by_cases hfive : 5 ≤ str.length
  · have hclean : Clean cmd false 5 0 0 args ↔ scans false (str.drop 5) 0 :=
      clean_iff (h.drop hfive) fun i hi ↦ h.ne_zero (by omega)
    change Clean cmd false 5 0 0 args ↔ _
    rw [hclean, scans_iff, Nat.zero_add]
    simp [hfive, argSlots, Nat.lt_succ_iff]
  · refine iff_of_false (fun hwithin ↦ ?_) fun hcond ↦ hfive hcond.1
    have hstop := h.stop
    rw [show 0 + str.length = 4 by omega] at hstop
    have hread : ∀ p : Parsed, parseInit cmd args 1 = p → Access.readByte 5 ∈ p.accesses := by
      rintro _ rfl
      rw [parseInit, parseFrom]
      split_ifs <;> simp [Parsed.after]
    exact hwithin 1 (.readByte 5) (hread _ rfl) 4 (by decide) hstop

/-- What the loop of `parse_init` leaves in the words from `args` on, as a function of the bytes that are left. -/
def scanned : (skipping : Bool) → List UInt8 → (num value : ℕ) → (args : ℕ → ℕ) → ℕ → ℕ
  | false, [], num, value, args => Function.update args num value
  | true, [], _, _, args => args
  | false, c :: rest, num, value, args =>
    if isBlank c then scanned true rest (num + 1) 0 (Function.update args num value)
    else scanned false rest num (addDigit value c) args
  | true, c :: rest, num, value, args =>
    if isBlank c then scanned true rest num value args else scanned false rest num (addDigit value c) args

/-- The loop ends when it does not step over the NUL byte. -/
theorem parseFrom_ends (h : HoldsFrom cmd ctr rest) {fuel : ℕ} (hfuel : 2 * rest.length < fuel)
    (hwell : (skipping = true → rest ≠ []) ∧ EndsWell rest) :
    (parseFrom cmd fuel skipping ctr num value args).ended = true ∧
      (parseFrom cmd fuel skipping ctr num value args).args = scanned skipping rest num value args := by
  induction rest generalizing skipping ctr num value args fuel with
  | nil =>
    obtain ⟨fuel, rfl⟩ := Nat.exists_eq_succ_of_ne_zero (by omega : fuel ≠ 0)
    have hstop : cmd ctr = 0 := h.stop
    cases skipping with
    | false =>
      rw [parseFrom, if_pos hstop]
      exact ⟨rfl, rfl⟩
    | true => exact absurd rfl (hwell.1 rfl)
  | cons c rest ih =>
    rw [List.length_cons] at hfuel
    obtain ⟨fuel, rfl⟩ := Nat.exists_eq_add_of_le' (by omega : 2 ≤ fuel)
    have hbyte : cmd ctr = c := h.byte 0 (by simp)
    have hsolid : cmd ctr ≠ 0 := hbyte ▸ h.solid c List.mem_cons_self
    have hends : EndsWell rest := fun d hd ↦ hwell.2 d (by
      cases rest with
      | nil => cases hd
      | cons e rest => rwa [List.getLast?_cons_cons])
    have hmore : isBlank c = true → rest ≠ [] := by
      rintro hblank rfl
      have hlast := hwell.2 c rfl
      exact Bool.noConfusion (hblank.symm.trans hlast)
    cases hblank : isBlank c with
    | false =>
      have hnext : ∀ {value}, (parseFrom cmd (fuel + 1) false (ctr + 1) num value args).ended = true ∧
          (parseFrom cmd (fuel + 1) false (ctr + 1) num value args).args = scanned false rest num value args :=
            fun {value} ↦
        ih h.tail (by omega) ⟨fun hskip ↦ Bool.noConfusion hskip, hends⟩
      cases skipping with
      | false =>
        rw [parseFrom, if_neg hsolid, hbyte, hblank, scanned, hblank]
        exact hnext
      | true =>
        rw [parseFrom, hbyte, hblank, scanned, hblank]
        exact hnext
    | true =>
      have hnext : ∀ {fuel num value args}, 2 * rest.length < fuel →
          (parseFrom cmd fuel true (ctr + 1) num value args).ended = true ∧
            (parseFrom cmd fuel true (ctr + 1) num value args).args = scanned true rest num value args := fun hlt ↦
        ih h.tail hlt ⟨fun _ ↦ hmore hblank, hends⟩
      cases skipping with
      | false =>
        rw [parseFrom, if_neg hsolid, hbyte, hblank, if_pos rfl, scanned, hblank, if_pos rfl]
        change (parseFrom cmd (fuel + 1) true ctr (num + 1) 0 (Function.update args num value)).ended = true ∧
          (parseFrom cmd (fuel + 1) true ctr (num + 1) 0 (Function.update args num value)).args = _
        rw [parseFrom, hbyte, hblank]
        exact hnext (by omega)
      | true =>
        rw [parseFrom, hbyte, hblank, scanned, hblank, if_pos rfl]
        exact hnext (by omega)

theorem strcmpEq_iff (h : HoldsFrom cmd 0 str) {word : List UInt8} (hword : ∀ c ∈ word, c ≠ 0) :
    strcmpEq cmd word = true ↔ str = word := by
  have hcmd : ∀ i (hi : i < str.length), cmd i = str[i] := fun i hi ↦ by
    have hbyte := h.byte i hi
    rwa [Nat.zero_add] at hbyte
  have hstop : cmd str.length = 0 := by
    have hstop := h.stop
    rwa [Nat.zero_add] at hstop
  simp only [strcmpEq, Bool.and_eq_true, List.all_eq_true, List.mem_range, decide_eq_true_eq]
  constructor
  · rintro ⟨hsame, hend⟩
    have hle : str.length ≤ word.length := by
      by_contra hlt
      exact h.ne_zero (not_le.1 hlt) hend
    have hge : word.length ≤ str.length := by
      by_contra hlt
      have hbyte := hsame str.length (not_le.1 hlt)
      rw [hstop, List.getD_eq_getElem _ _ (not_le.1 hlt)] at hbyte
      exact hword _ (List.getElem_mem (not_le.1 hlt)) hbyte.symm
    refine List.ext_getElem (le_antisymm hle hge) fun i hi hi' ↦ ?_
    rw [← hcmd i hi, hsame i hi', List.getD_eq_getElem]
  · rintro rfl
    refine ⟨fun i hi ↦ ?_, hstop⟩
    rw [hcmd i hi, List.getD_eq_getElem]

/-- The buffer after the bytes of a line were stored from `ctr` on. -/
def stored (cmd : ℕ → UInt8) (ctr : ℕ) : List UInt8 → ℕ → UInt8
  | [] => cmd
  | c :: line => stored (Function.update cmd ctr c) (ctr + 1) line

theorem stored_apply (cmd : ℕ → UInt8) (ctr : ℕ) (line : List UInt8) (i : ℕ) :
    stored cmd ctr line i = if ctr ≤ i ∧ i < ctr + line.length then line.getD (i - ctr) 0 else cmd i := by
  induction line generalizing cmd ctr with
  | nil => exact (if_neg (by simp)).symm
  | cons c line ih =>
    rw [stored, ih, List.length_cons, Function.update_apply]
    by_cases hlow : i < ctr
    · rw [if_neg (by omega), if_neg (by omega), if_neg (by omega)]
    · by_cases heq : i = ctr
      · subst heq
        rw [if_neg (by omega), if_pos rfl, if_pos (by omega), Nat.sub_self, List.getD_cons_zero]
      · have hsub : i - ctr = i - (ctr + 1) + 1 := by omega
        rw [if_neg heq, hsub, List.getD_cons_succ]
        by_cases hin : ctr + 1 ≤ i ∧ i < ctr + 1 + line.length
        · rw [if_pos hin, if_pos (by omega)]
        · rw [if_neg hin, if_neg (by omega)]

/-- The buffer when `serial_read` has read a line. -/
def lineBuffer (cmd : ℕ → UInt8) (line : List UInt8) : ℕ → UInt8 :=
  Function.update (stored cmd 0 line) line.length 0

theorem lineBuffer_byte (cmd : ℕ → UInt8) (str : List UInt8) {i : ℕ} (hi : i < str.length) :
    lineBuffer cmd str i = str[i] := by
  rw [lineBuffer, Function.update_of_ne (by omega), stored_apply, if_pos (by omega), Nat.sub_zero,
    List.getD_eq_getElem _ _ hi]

theorem lineBuffer_stop (cmd : ℕ → UInt8) (line : List UInt8) : lineBuffer cmd line line.length = 0 :=
  Function.update_self _ _ _

/-- A line that is longer than its text has a NUL byte there. -/
theorem text_stop {str : List UInt8} (h : (text str).length < str.length) : str[(text str).length] = 0 := by
  induction str with
  | nil => exact (Nat.not_lt_zero _ h).elim
  | cons c str ih =>
    by_cases hc : c = 0
    · subst hc
      rfl
    · have htext : text (c :: str) = c :: text str := List.takeWhile_cons_of_pos (decide_eq_true hc)
      simp only [htext, List.length_cons, List.getElem_cons_succ] at h ⊢
      exact ih (Nat.lt_of_succ_lt_succ h)

/-- The buffer holds the line up to its first NUL byte. -/
theorem holds_lineBuffer (cmd : ℕ → UInt8) (line : List UInt8) : HoldsFrom (lineBuffer cmd line) 0 (text line) where
  byte i hi := by
    have htake : text line <+: line := List.takeWhile_prefix _
    have hlt : i < line.length := hi.trans_le htake.length_le
    rw [Nat.zero_add, lineBuffer_byte cmd line hlt]
    exact (htake.getElem hi).symm
  solid c hc := by
    have hne := List.mem_takeWhile_imp hc
    exact of_decide_eq_true hne
  stop := by
    have hlead : text line <+: line := List.takeWhile_prefix _
    rw [Nat.zero_add]
    rcases eq_or_lt_of_le hlead.length_le with heq | hlt
    · rw [heq]
      exact lineBuffer_stop cmd line
    · rw [lineBuffer_byte cmd line hlt]
      exact text_stop hlt

theorem launches_iff (cmd : ℕ → UInt8) (str : List UInt8) :
    launches (lineBuffer cmd str) = true ↔ str.take 4 = cText "init" := by
  have hword : cText "init" = [0x69, 0x6e, 0x69, 0x74] := rfl
  have hlaunch : launches (lineBuffer cmd str) = true ↔
      ∀ i < 4, lineBuffer cmd str i = (cText "init").getD i 0 := by
    simp only [launches, memcmpEq, List.all_eq_true, List.mem_range, decide_eq_true_eq]
    rfl
  rw [hlaunch]
  constructor
  · intro hsame
    have hlong : 4 ≤ str.length := by
      by_contra hshort
      have hbyte := hsame str.length (not_le.1 hshort)
      rw [lineBuffer_stop, hword] at hbyte
      have hlt := not_le.1 hshort
      generalize str.length = n at *
      interval_cases n <;> exact absurd hbyte (by decide)
    refine List.ext_getElem (by rw [List.length_take, hword]; simp [hlong]) fun i hi hi' ↦ ?_
    have hlt : i < 4 := hi'
    have hbyte := hsame i hlt
    rw [lineBuffer_byte cmd str (by omega), List.getD_eq_getElem _ _ hi'] at hbyte
    rw [List.getElem_take]
    exact hbyte
  · intro htake i hi
    have hlong : 4 ≤ str.length := by
      have hlength := congrArg List.length htake
      rw [List.length_take, hword] at hlength
      exact min_eq_left_iff.1 hlength
    rw [lineBuffer_byte cmd str (by omega), ← htake, List.getD_eq_getElem _ _ (by rw [List.length_take]; omega),
      List.getElem_take]

/-- A byte of the line goes into the buffer. -/
theorem consume_reading {c : UInt8} (hc : c ≠ 13) (hctr : ctr < commandSize) :
    consume c ⟨cmd, args, .reading ctr⟩ = ⟨Function.update cmd ctr c, args, .reading (ctr + 1)⟩ := by
  have hmod : (ctr + 1) % 2 ^ 32 = ctr + 1 := Nat.mod_eq_of_lt (by unfold commandSize at hctr; omega)
  simp only [consume, if_neg hc, hmod]

/-- Before the newline all bytes are dropped. -/
theorem consume_finishing {c : UInt8} (hc : c ≠ 10) : consume c ⟨cmd, args, .finishing⟩ = ⟨cmd, args, .finishing⟩ :=
  if_neg hc

/-- The bytes of a line up to the carriage return. -/
theorem along_unread {line : List UInt8} (unread : 13 ∉ line) (hctr : ctr ≤ commandSize) :
    Along consume Contained ⟨cmd, args, .reading ctr⟩ line ↔ ctr + line.length ≤ commandSize := by
  induction line generalizing cmd ctr with
  | nil => exact iff_of_true (.nil _) hctr
  | cons c line ih =>
    obtain ⟨hc, hunread⟩ := not_or.1 (List.mem_cons.not.1 unread)
    have hcontained : Contained ⟨cmd, args, .reading ctr⟩ c ↔ ctr < commandSize :=
      ⟨fun h ↦ h (.writeByte ctr) rfl, fun h a ha ↦ by obtain rfl := ha; exact h⟩
    rw [along_cons_iff, hcontained, List.length_cons]
    constructor
    · rintro ⟨hlt, hrest⟩
      rw [consume_reading (Ne.symm hc) hlt] at hrest
      have hle := (ih hunread hlt).1 hrest
      omega
    · intro hle
      have hlt : ctr < commandSize := by omega
      refine ⟨hlt, ?_⟩
      rw [consume_reading (Ne.symm hc) hlt]
      exact (ih hunread hlt).2 (by omega)

theorem run_unread {line : List UInt8} (unread : 13 ∉ line) (hle : ctr + line.length ≤ commandSize) :
    run consume ⟨cmd, args, .reading ctr⟩ line = ⟨stored cmd ctr line, args, .reading (ctr + line.length)⟩ := by
  induction line generalizing cmd ctr with
  | nil => rfl
  | cons c line ih =>
    obtain ⟨hc, hunread⟩ := not_or.1 (List.mem_cons.not.1 unread)
    rw [List.length_cons] at hle ⊢
    rw [run_cons, consume_reading (Ne.symm hc) (by omega), ih hunread (by omega), stored, Nat.add_right_comm,
      Nat.add_assoc]

/-- A line with its carriage return. -/
theorem along_line {line : List UInt8} (unread : 13 ∉ line) (later : List UInt8) :
    Along consume Contained ⟨cmd, args, .reading 0⟩ (line ++ 13 :: later) ↔
      line.length < commandSize ∧ Along consume Contained ⟨lineBuffer cmd line, args, .finishing⟩ later := by
  rw [along_append_iff, along_unread unread (Nat.zero_le _), Nat.zero_add]
  constructor
  · rintro ⟨hle, hlater⟩
    rw [run_unread unread (by omega), Nat.zero_add] at hlater
    obtain ⟨hhead, htail⟩ := along_cons_iff.1 hlater
    exact ⟨hhead (.writeByte line.length) rfl, htail⟩
  · rintro ⟨hlt, hlater⟩
    refine ⟨hlt.le, ?_⟩
    rw [run_unread unread (by omega), Nat.zero_add]
    refine .cons (fun a ha ↦ ?_) hlater
    obtain rfl := ha
    exact hlt

/-- Up to the newline nothing is touched. -/
theorem along_waits {tail : List UInt8} (waits : 10 ∉ tail) (later : List UInt8) :
    Along consume Contained ⟨cmd, args, .finishing⟩ (tail ++ later) ↔
      Along consume Contained ⟨cmd, args, .finishing⟩ later := by
  induction tail with
  | nil => rfl
  | cons c tail ih =>
    obtain ⟨hc, hwaits⟩ := not_or.1 (List.mem_cons.not.1 waits)
    rw [List.cons_append, along_cons_iff, consume_finishing (Ne.symm hc), ih hwaits]
    exact and_iff_right fun a ha ↦ absurd ha.1 (Ne.symm hc)

theorem quits_iff (cmd : ℕ → UInt8) (line : List UInt8) : quits (lineBuffer cmd line) = true ↔ Quits line := by
  have hsolid : ∀ word ∈ [cText "exit", cText "shutdown"], ∀ c ∈ word, c ≠ 0 := by decide +kernel
  rw [quits, Bool.or_eq_true, strcmpEq_iff (holds_lineBuffer cmd line) (hsolid _ (by simp)),
    strcmpEq_iff (holds_lineBuffer cmd line) (hsolid _ (by simp))]
  rfl

/-- The text of a line that starts with `init` does too. -/
theorem text_take {line : List UInt8} (hinit : line.take 4 = cText "init") : (text line).take 4 = cText "init" := by
  obtain ⟨rest, rfl⟩ : ∃ rest, line = cText "init" ++ rest := ⟨line.drop 4, by rw [← hinit, List.take_append_drop]⟩
  rfl

theorem not_quits_of_take {line : List UInt8} (hinit : line.take 4 = cText "init") : ¬Quits line := by
  rintro (hquits | hquits)
  all_goals
    have htake := text_take hinit
    rw [hquits] at htake
    exact absurd htake (by decide)

/-- The newline behind a line. -/
theorem contained_newline (cmd : ℕ → UInt8) (args : ℕ → ℕ) (line : List UInt8) :
    Contained ⟨lineBuffer cmd line, args, .finishing⟩ 10 ↔ CommandOk line := by
  have hheld := holds_lineBuffer cmd line
  constructor
  · intro hcontained hinit
    have htake := text_take hinit
    have hlong : 4 ≤ (text line).length := by
      have hlength := congrArg List.length htake
      rw [List.length_take] at hlength
      exact min_eq_left_iff.1 hlength
    have hquits : quits (lineBuffer cmd line) = false := by
      rw [← Bool.not_eq_true, quits_iff]
      exact not_quits_of_take hinit
    refine (parseInit_within hheld hlong args).1 fun fuel a ha ↦ hcontained a ⟨rfl, ?_, hquits, ?_, fuel, ha⟩
    · exact hheld.ne_zero (by omega)
    · exact (launches_iff cmd line).2 hinit
  · rintro hok a ⟨-, -, -, hlaunches, fuel, ha⟩
    have hcond := hok ((launches_iff cmd line).1 hlaunches)
    exact (parseInit_within hheld (by omega) args).2 hcond fuel a ha

theorem dispatch_quits (cmd : ℕ → UInt8) (args : ℕ → ℕ) {line : List UInt8} (hquits : Quits line) :
    dispatch ⟨lineBuffer cmd line, args, .finishing⟩ = ⟨lineBuffer cmd line, args, .rebooted⟩ := by
  have hne : lineBuffer cmd line 0 ≠ 0 := by
    refine (holds_lineBuffer cmd line).ne_zero ?_
    rcases hquits with hquits | hquits
    all_goals
      rw [hquits]
      decide
  rw [dispatch, if_neg hne, if_pos ((quits_iff cmd line).2 hquits)]

/-- A command that is in order brings the shell back to its prompt. -/
theorem dispatch_command (cmd : ℕ → UInt8) (args : ℕ → ℕ) {line : List UInt8} (hquits : ¬Quits line)
    (hshort : line.length < commandSize) (hok : CommandOk line) :
    ∃ args', dispatch ⟨lineBuffer cmd line, args, .finishing⟩ = ⟨lineBuffer cmd line, args', .reading 0⟩ := by
  by_cases hne : lineBuffer cmd line 0 = 0
  · exact ⟨args, by rw [dispatch, if_pos hne]⟩
  · have hrun : ¬quits (lineBuffer cmd line) = true := (quits_iff cmd line).not.2 hquits
    by_cases hlaunches : launches (lineBuffer cmd line) = true
    · obtain ⟨hlong, hwell, -⟩ := hok ((launches_iff cmd line).1 hlaunches)
      have hfuel : 2 * ((text line).drop 5).length < parseFuel := by
        have hlead := (List.takeWhile_prefix (l := line) (· ≠ 0)).length_le
        change (text line).length ≤ line.length at hlead
        rw [List.length_drop]
        unfold parseFuel
        unfold commandSize at hshort
        omega
      have hended : (parseInit (lineBuffer cmd line) args parseFuel).ended = true :=
        (parseFrom_ends ((holds_lineBuffer cmd line).drop hlong) hfuel ⟨fun hskip ↦ Bool.noConfusion hskip, hwell⟩).1
      refine ⟨(parseInit (lineBuffer cmd line) args parseFuel).args, ?_⟩
      rw [dispatch, if_neg hne, if_neg hrun, if_pos hlaunches]
      simp only [hended, if_true]
    · exact ⟨args, by rw [dispatch, if_neg hne, if_neg hrun, if_neg hlaunches]⟩

theorem along_rebooted (cmd : ℕ → UInt8) (args : ℕ → ℕ) (later : List UInt8) :
    Along consume Contained ⟨cmd, args, .rebooted⟩ later := by
  induction later with
  | nil => exact .nil _
  | cons c later ih => exact .cons (fun a ha ↦ ha.elim) ih

/-- What arrives behind a carriage return up to the newline, and from there on. -/
theorem along_newline (cmd : ℕ → UInt8) (args : ℕ → ℕ) (line : List UInt8) {tail : List UInt8} (waits : 10 ∉ tail)
    (rest : List UInt8) :
    Along consume Contained ⟨lineBuffer cmd line, args, .finishing⟩ (tail ++ 10 :: rest) ↔
      CommandOk line ∧ Along consume Contained (dispatch ⟨lineBuffer cmd line, args, .finishing⟩) rest := by
  rw [along_waits waits, along_cons_iff, contained_newline]
  rfl

/-- The shell stays within its buffer, its command and its arguments exactly on the streams that are in order. -/
theorem contained_iff (stream : List UInt8) (cmd : ℕ → UInt8) (args : ℕ → ℕ) :
    Along consume Contained ⟨cmd, args, .reading 0⟩ stream ↔ Orderly stream := by
  constructor
  · induction hlength : stream.length using Nat.strong_induction_on generalizing stream cmd args with
    | _ n ih =>
      intro hrun
      by_cases hreturn : 13 ∈ stream
      · obtain ⟨line, later, rfl, unread⟩ := List.eq_append_cons_of_mem hreturn
        obtain ⟨hshort, hlater⟩ := (along_line unread later).1 hrun
        by_cases hnewline : 10 ∈ later
        · obtain ⟨tail, rest, rfl, waits⟩ := List.eq_append_cons_of_mem hnewline
          obtain ⟨hok, hrest⟩ := (along_newline cmd args line waits rest).1 hlater
          by_cases hquits : Quits line
          · exact .quitting unread hshort waits hquits
          · obtain ⟨args', hdispatch⟩ := dispatch_command cmd args hquits hshort hok
            rw [hdispatch] at hrest
            refine .command unread hshort waits hok (ih rest.length ?_ rest _ args' rfl hrest)
            rw [← hlength]
            simp only [List.length_append, List.length_cons]
            omega
        · exact .finishing unread hshort hnewline
      · have hle := (along_unread hreturn (Nat.zero_le _)).1 hrun
        exact .unfinished hreturn (by omega)
  · intro horderly
    induction horderly generalizing cmd args with
    | unfinished unread short => exact (along_unread unread (Nat.zero_le _)).2 (by omega)
    | @finishing line tail unread short waits =>
      refine (along_line unread _).2 ⟨short, ?_⟩
      rw [← List.append_nil tail, along_waits waits]
      exact .nil _
    | @quitting line tail rest unread short waits hquits =>
      refine (along_line unread _).2 ⟨short, (along_newline cmd args line waits rest).2 ⟨fun hinit ↦ ?_, ?_⟩⟩
      · exact absurd hquits (not_quits_of_take hinit)
      · rw [dispatch_quits cmd args hquits]
        exact along_rebooted _ args rest
    | @command line tail rest unread short waits ok more ih =>
      refine (along_line unread _).2 ⟨short, (along_newline cmd args line waits rest).2 ⟨ok, ?_⟩⟩
      by_cases hquits : Quits line
      · rw [dispatch_quits cmd args hquits]
        exact along_rebooted _ args rest
      · obtain ⟨args', hdispatch⟩ := dispatch_command cmd args hquits short ok
        rw [hdispatch]
        exact ih _ args'

/-- The shell when `invoke_dsh` starts. -/
def started : Shell := ⟨fun _ ↦ 0, fun _ ↦ 0, .reading 0⟩

/-- A line of 1024 bytes, a bare `init` and one with six arguments overrun the chunk, the command and the slots. -/
theorem lines_overrun :
    ¬Along consume Contained started (List.replicate 1024 97 ++ [13]) ∧
      ¬Along consume Contained started (cText "init\r\n") ∧
      ¬Along consume Contained started (cText "init 1 2 3 4 5 6\r\n") := by
  have hbare : cText "init\r\n" = cText "init" ++ 13 :: ([] ++ [10]) := by decide
  have hsix : cText "init 1 2 3 4 5 6\r\n" = cText "init 1 2 3 4 5 6" ++ 13 :: ([] ++ [10]) := by decide
  refine ⟨fun h ↦ ?_, fun h ↦ ?_, fun h ↦ ?_⟩
  · have hshort := ((along_line (fun hmem ↦ absurd (List.eq_of_mem_replicate hmem) (by decide)) []).1 h).1
    rw [List.length_replicate] at hshort
    exact lt_irrefl 1024 hshort
  · rw [hbare] at h
    have hok := ((along_newline _ _ _ List.not_mem_nil []).1 ((along_line (by decide) _).1 h).2).1
    exact absurd (hok (by decide)).1 (by decide)
  · rw [hsix] at h
    have hok := ((along_newline _ _ _ List.not_mem_nil []).1 ((along_line (by decide) _).1 h).2).1
    exact absurd (hok (by decide)).2.2 (by decide)

end Shell

end GemOS
