import CryptoCollector.Foundations.Numerals
import Mathlib.Data.List.DropRight

/-!
# Poll intervals

A coin's poll interval is written as hours, minutes and seconds. The parser reads one
component after the other, in whatever order and as often as they come, and adds them up
without leaving 64 bits.
-/

namespace CryptoCollector.Api
open Foundations

/-- `char::is_whitespace`: Unicode's `White_Space`. -/
def isWhitespace (c : Char) : Bool :=
  (0x9 ≤ c.toNat ∧ c.toNat ≤ 0xD) ∨ (0x2000 ≤ c.toNat ∧ c.toNat ≤ 0x200A) ∨
    c.toNat ∈ [0x20, 0x85, 0xA0, 0x1680, 0x2028, 0x2029, 0x202F, 0x205F, 0x3000]

def trim (s : List Char) : List Char := (s.dropWhile isWhitespace).rdropWhile isWhitespace

/-- `u64::MAX`. -/
def u64Max : ℕ := 2 ^ 64 - 1

def saturatingAdd (a b : ℕ) : ℕ := min (a + b) u64Max

def saturatingMul (a b : ℕ) : ℕ := min (a * b) u64Max

/-- The text without a leading plus sign. -/
def dropPlus : List Char → List Char
  | [] => []
  | c :: rest => if c = '+' then rest else c :: rest

/-- `str::parse::<u64>`: digits, after an optional plus sign. -/
def parseU64 (s : List Char) : Option ℕ :=
  if dropPlus s ≠ [] ∧ (dropPlus s).all Char.isDigit ∧
      Nat.ofDigitChars 10 (dropPlus s) 0 ≤ u64Max then
    some (Nat.ofDigitChars 10 (dropPlus s) 0)
  else none

/-- The body of the loop of `parse_hms`: the seconds of the next component and what
remains after it. -/
def parseComponent (s : String) (remaining : List Char) : Except String (ℕ × List Char) :=
  match remaining.dropWhile Char.isDigit with
  | [] => .error ("expected time unit (h/m/s) after digits in '" ++ s ++ "'")
  | unitChar :: rest =>
    if remaining.takeWhile Char.isDigit = [] then
      .error ("expected digit at start of remaining '" ++ String.ofList remaining ++
        "' in '" ++ s ++ "'")
    else
      match parseU64 (remaining.takeWhile Char.isDigit) with
      | none => .error ("number overflow in '" ++ s ++ "'")
      | some n =>
        if unitChar = 'h' then .ok (saturatingMul n 3600, rest)
        else if unitChar = 'm' then .ok (saturatingMul n 60, rest)
        else if unitChar = 's' then .ok (n, rest)
        else
          .error ("unknown time unit '" ++ String.singleton unitChar ++ "' in '" ++ s ++
            "': use h, m, or s")

/-- A unit of the grammar. -/
inductive TimeUnit where
  | hours
  | minutes
  | seconds
  deriving DecidableEq, Repr

def TimeUnit.char : TimeUnit → Char
  | .hours => 'h'
  | .minutes => 'm'
  | .seconds => 's'

def TimeUnit.secs : TimeUnit → ℕ
  | .hours => 3600
  | .minutes => 60
  | .seconds => 1

/-- A number of 64 bits and its unit. -/
structure Component where
  number : Numeral
  unit : TimeUnit
  fits : number.value ≤ u64Max

namespace Component

def text (c : Component) : List Char := c.number.digits ++ [c.unit.char]

def secs (c : Component) : ℕ := c.number.value * c.unit.secs

end Component

def componentsText (cs : List Component) : List Char := cs.flatMap Component.text

def totalSecs (cs : List Component) : ℕ := (cs.map Component.secs).sum

@[simp] theorem componentsText_cons (c : Component) (cs : List Component) :
    componentsText (c :: cs) = c.number.digits ++ c.unit.char :: componentsText cs := by
  simp [componentsText, Component.text]

@[simp] theorem totalSecs_cons (c : Component) (cs : List Component) :
    totalSecs (c :: cs) = c.secs + totalSecs cs := by
  simp [totalSecs]

/-- `[Nh][Nm][Ns]`, not empty: at most one component of each unit, the units in that order. -/
def Grammar (text : List Char) (total : ℕ) : Prop :=
  ∃ cs, cs ≠ [] ∧ (cs.map Component.unit).Sublist [.hours, .minutes, .seconds] ∧
    text = componentsText cs ∧ total = totalSecs cs

section Reading

variable {s : String} {remaining rest : List Char} {secs : ℕ}

theorem TimeUnit.char_not_digit (u : TimeUnit) : u.char.isDigit = false := by
  cases u <;> decide

theorem TimeUnit.char_inj {u u' : TimeUnit} (h : u.char = u'.char) : u = u' := by
  cases u <;> cases u' <;> first | rfl | exact absurd h (by decide)

theorem dropPlus_digits (n : Numeral) : dropPlus n.digits = n.digits := by
  obtain ⟨c, rest, hdigits, hc⟩ := n.exists_cons
  have hplus : c ≠ '+' := by
    rintro rfl
    exact absurd hc (by decide)
  rw [hdigits, dropPlus, if_neg hplus]

theorem parseU64_digits (n : Numeral) :
    parseU64 n.digits = if n.value ≤ u64Max then some n.value else none := by
  have hall : n.digits.all Char.isDigit = true := List.all_eq_true.mpr n.all_digits
  simp only [parseU64, dropPlus_digits, hall, n.ne_nil, ne_eq, not_false_iff, true_and]
  rfl

theorem parseComponent_eq_ok_iff :
    parseComponent s remaining = .ok (secs, rest) ↔
      ∃ c : Component, remaining = c.number.digits ++ c.unit.char :: rest ∧
        secs = min c.secs u64Max := by
  constructor
  · intro h
    unfold parseComponent at h
    cases hafter : remaining.dropWhile Char.isDigit with
    | nil => simp [hafter] at h
    | cons unitChar after =>
      simp only [hafter] at h
      by_cases hrun : remaining.takeWhile Char.isDigit = []
      · rw [if_pos hrun] at h
        cases h
      · obtain ⟨n, hdigits, htext⟩ := Numeral.exists_of_dropWhile hrun hafter
        rw [if_neg hrun, ← hdigits, parseU64_digits] at h
        by_cases hfits : n.value ≤ u64Max
        · simp only [if_pos hfits] at h
          split_ifs at h with hhour hminute hsecond
          · subst hhour
            cases h
            exact ⟨⟨n, .hours, hfits⟩, htext, rfl⟩
          · subst hminute
            cases h
            exact ⟨⟨n, .minutes, hfits⟩, htext, rfl⟩
          · subst hsecond
            cases h
            refine ⟨⟨n, .seconds, hfits⟩, htext, ?_⟩
            simp [Component.secs, TimeUnit.secs, hfits]
        · simp only [if_neg hfits] at h
          cases h
  · rintro ⟨⟨n, u, hfits⟩, rfl, rfl⟩
    unfold parseComponent
    rw [Numeral.dropWhile_append n u.char_not_digit, Numeral.takeWhile_append n u.char_not_digit]
    simp only [n.ne_nil, if_false, parseU64_digits, if_pos hfits]
    cases u
    · rfl
    · rfl
    · simp [TimeUnit.char, Component.secs, TimeUnit.secs, hfits]

theorem length_lt_of_parseComponent {step : ℕ × List Char}
    (h : parseComponent s remaining = .ok step) : step.2.length < remaining.length := by
  obtain ⟨c, rfl, -⟩ := parseComponent_eq_ok_iff.mp h
  simp only [List.length_append, List.length_cons]
  omega

end Reading

/-- The loop of `parse_hms`, from what remains, the seconds so far and whether a component
was read. -/
def parseComponents (s : String) (remaining : List Char) (totalSecs : ℕ) (parsedAny : Bool) :
    Except String (ℕ × Bool) :=
  if remaining = [] then .ok (totalSecs, parsedAny)
  else
    match _h : parseComponent s remaining with
    | .error e => .error e
    | .ok step => parseComponents s step.2 (saturatingAdd totalSecs step.1) true
termination_by remaining.length
decreasing_by exact length_lt_of_parseComponent ‹_›

def parseHms (s : String) : Except String ℕ :=
  let trimmed := trim s.toList
  if trimmed = [] then .error "duration string is empty"
  else
    match parseComponents (String.ofList trimmed) trimmed 0 false with
    | .error e => .error e
    | .ok (totalSecs, parsedAny) =>
      if parsedAny then .ok totalSecs
      else .error ("no duration components found in '" ++ String.ofList trimmed ++ "'")

section Parsing

variable {s : String} {remaining : List Char} {cs cs' : List Component} {n : ℕ}

theorem componentsText_eq_nil_iff : componentsText cs = [] ↔ cs = [] := by
  cases cs with
  | nil => simp [componentsText]
  | cons c cs => simp

theorem componentsText_inj (h : componentsText cs = componentsText cs') : cs = cs' := by
  induction cs generalizing cs' with
  | nil => exact (componentsText_eq_nil_iff.mp h.symm).symm
  | cons c cs ih =>
    cases cs' with
    | nil => exact absurd (componentsText_eq_nil_iff.mp h) (List.cons_ne_nil c cs)
    | cons c' cs' =>
      rw [componentsText_cons, componentsText_cons] at h
      obtain ⟨hnumber, hchar, hrest⟩ :=
        Numeral.append_inj c.unit.char_not_digit c'.unit.char_not_digit h
      obtain ⟨number, unit, fits⟩ := c
      obtain ⟨number', unit', fits'⟩ := c'
      obtain rfl : number = number' := hnumber
      obtain rfl := TimeUnit.char_inj hchar
      rw [ih hrest]

theorem saturatingAdd_min (a b : ℕ) :
    saturatingAdd (min a u64Max) (min b u64Max) = min (a + b) u64Max := by
  unfold saturatingAdd
  omega

theorem ne_nil_of_parseComponent {step : ℕ × List Char}
    (h : parseComponent s remaining = .ok step) : remaining ≠ [] :=
  List.ne_nil_of_length_pos (Nat.zero_lt_of_lt (length_lt_of_parseComponent h))

theorem parseComponents_of_ok {step : ℕ × List Char} (h : parseComponent s remaining = .ok step)
    (total : ℕ) (parsedAny : Bool) :
    parseComponents s remaining total parsedAny =
      parseComponents s step.2 (saturatingAdd total step.1) true := by
  rw [parseComponents, if_neg (ne_nil_of_parseComponent h)]
  split
  · next hfailed =>
    rw [h] at hfailed
    cases hfailed
  · next step' hread =>
    obtain rfl := Except.ok.inj (h.symm.trans hread)
    rfl

theorem parseComponents_of_error {e : String} (hne : remaining ≠ [])
    (h : parseComponent s remaining = .error e) (total : ℕ) (parsedAny : Bool) :
    parseComponents s remaining total parsedAny = .error e := by
  rw [parseComponents, if_neg hne]
  split
  · next hfailed =>
    obtain rfl := Except.error.inj (hfailed.symm.trans h)
    rfl
  · next hread =>
    rw [h] at hread
    cases hread

/-- The loop reads a text of components to its end and adds up their seconds. -/
theorem parseComponents_text (s : String) (cs : List Component) (acc : ℕ) (parsedAny : Bool) :
    parseComponents s (componentsText cs) (min acc u64Max) parsedAny =
      .ok (min (acc + totalSecs cs) u64Max, parsedAny || !cs.isEmpty) := by
  induction cs generalizing acc parsedAny with
  | nil => simp [parseComponents, componentsText, totalSecs]
  | cons c cs ih =>
    have hstep : parseComponent s (componentsText (c :: cs)) =
        .ok (min c.secs u64Max, componentsText cs) :=
      parseComponent_eq_ok_iff.mpr ⟨c, componentsText_cons c cs, rfl⟩
    rw [parseComponents_of_ok hstep, saturatingAdd_min, ih, totalSecs_cons, Nat.add_assoc]
    simp

/-- What the loop accepts is a text of components. -/
theorem exists_components {total : ℕ} {parsedAny : Bool} {result : ℕ × Bool}
    (h : parseComponents s remaining total parsedAny = .ok result) :
    ∃ cs, remaining = componentsText cs := by
  induction remaining, total, parsedAny using parseComponents.induct s with
  | case1 total parsedAny => exact ⟨[], rfl⟩
  | case2 remaining total parsedAny hne e hread =>
    rw [parseComponents_of_error hne hread] at h
    cases h
  | case3 remaining total parsedAny hne step hread ih =>
    rw [parseComponents_of_ok hread] at h
    obtain ⟨cs, hrest⟩ := ih h
    obtain ⟨c, htext, -⟩ := parseComponent_eq_ok_iff.mp hread
    refine ⟨c :: cs, ?_⟩
    rw [htext, hrest, componentsText_cons]

/-- Whatever the order of the components, their seconds come back, up to `u64::MAX`. -/
theorem parseHms_eq_ok_iff : parseHms s = .ok n ↔
    ∃ cs, cs ≠ [] ∧ trim s.toList = componentsText cs ∧ n = min (totalSecs cs) u64Max := by
  have hread (cs : List Component) : parseComponents (String.ofList (componentsText cs))
      (componentsText cs) 0 false = .ok (min (totalSecs cs) u64Max, !cs.isEmpty) := by
    simpa using parseComponents_text (String.ofList (componentsText cs)) cs 0 false
  unfold parseHms
  constructor
  · intro h
    by_cases hempty : trim s.toList = []
    · simp only [if_pos hempty] at h
      cases h
    · simp only [if_neg hempty] at h
      cases hrun : parseComponents (String.ofList (trim s.toList)) (trim s.toList) 0 false with
      | error e =>
        rw [hrun] at h
        cases h
      | ok result =>
        obtain ⟨cs, htext⟩ := exists_components hrun
        have hne : cs ≠ [] := fun hnil => hempty (htext.trans (componentsText_eq_nil_iff.mpr hnil))
        rw [htext, hread] at h
        simp only [List.isEmpty_eq_false_iff.mpr hne, Bool.not_false, if_true] at h
        exact ⟨cs, hne, htext, (Except.ok.inj h).symm⟩
  · rintro ⟨cs, hne, htext, rfl⟩
    have hempty : componentsText cs ≠ [] := fun hnil => hne (componentsText_eq_nil_iff.mp hnil)
    simp only [htext, if_neg hempty, hread, List.isEmpty_eq_false_iff.mpr hne, Bool.not_false,
      if_true]

theorem parseHms_le (h : parseHms s = .ok n) : n ≤ u64Max := by
  obtain ⟨cs, -, -, rfl⟩ := parseHms_eq_ok_iff.mp h
  exact min_le_right _ _

/-- On `s` the parser keeps to the grammar: it accepts what the grammar does, with the
grammar's seconds. -/
def EnforcesGrammar (s : String) : Prop :=
  ∀ n, parseHms s = .ok n ↔ Grammar (trim s.toList) n

/-- The grammar is kept to except on components that are out of order or repeated, and on
those that come to more than 64 bits. -/
theorem enforcesGrammar_iff (s : String) : EnforcesGrammar s ↔
    ∀ cs, cs ≠ [] → trim s.toList = componentsText cs →
      (cs.map Component.unit).Sublist [.hours, .minutes, .seconds] ∧ totalSecs cs ≤ u64Max := by
  constructor
  · intro h cs hne htext
    have haccepted : parseHms s = .ok (min (totalSecs cs) u64Max) :=
      parseHms_eq_ok_iff.mpr ⟨cs, hne, htext, rfl⟩
    obtain ⟨cs', -, horder, htext', hsecs⟩ := (h _).mp haccepted
    obtain rfl := componentsText_inj (htext.symm.trans htext')
    exact ⟨horder, min_eq_left_iff.mp hsecs⟩
  · intro h n
    rw [parseHms_eq_ok_iff]
    constructor
    · rintro ⟨cs, hne, htext, rfl⟩
      obtain ⟨horder, hfits⟩ := h cs hne htext
      exact ⟨cs, hne, horder, htext, min_eq_left hfits⟩
    · rintro ⟨cs, hne, -, htext, rfl⟩
      obtain ⟨-, hfits⟩ := h cs hne htext
      exact ⟨cs, hne, htext, (min_eq_left hfits).symm⟩

/-- Five seconds, then one hour. -/
def secondsBeforeHours : List Component :=
  [⟨.ofNat 5, .seconds, by decide⟩, ⟨.ofNat 1, .hours, by decide⟩]

/-- `5s1h` is read as 3605 seconds, although the hours come last. -/
theorem parseHms_out_of_order :
    parseHms "5s1h" = .ok 3605 ∧ ¬EnforcesGrammar "5s1h" := by
  have htext : trim "5s1h".toList = componentsText secondsBeforeHours := by decide +kernel
  have hread : parseHms "5s1h" = .ok 3605 :=
    parseHms_eq_ok_iff.mpr ⟨secondsBeforeHours, List.cons_ne_nil _ _, htext, by decide +kernel⟩
  refine ⟨hread, ?_⟩
  intro h
  obtain ⟨cs, -, horder, htext', -⟩ := (h 3605).mp hread
  obtain rfl := componentsText_inj (htext.symm.trans htext')
  exact absurd horder (by decide)

end Parsing
end CryptoCollector.Api
