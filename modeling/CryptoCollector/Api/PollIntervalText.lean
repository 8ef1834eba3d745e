import CryptoCollector.Api.PollInterval
import CryptoCollector.Collectors.Backfill

/-!
# Poll intervals in the database

A poll interval is checked, written as a PostgreSQL interval and read back as that column's
text, which the coin endpoints show in hours, minutes and seconds and the collectors turn
into seconds. The column is a parameter.
-/

namespace CryptoCollector.Api
open Foundations

/-- `duration_to_string`, of a duration in seconds. -/
def durationToString (totalSecs : ℕ) : String :=
  if totalSecs = 0 then "0s"
  else
    (if totalSecs / 3600 > 0 then toString (totalSecs / 3600) ++ "h" else "") ++
    (if totalSecs % 3600 / 60 > 0 then toString (totalSecs % 3600 / 60) ++ "m" else "") ++
    (if totalSecs % 60 > 0 then toString (totalSecs % 60) ++ "s" else "")

def durationToPgInterval (totalSecs : ℕ) : String := toString totalSecs ++ " seconds"

/-- `normalize_pg_interval`. The sum wraps, as in a release build. -/
def normalizePgInterval (pgText : String) : Option String :=
  let s := trim pgText.toList
  match s.splitOn ':' with
  | [hours, minutes, seconds] => do
    let h ← parseU64 (hours.dropWhile fun c => c = '-')
    let m ← parseU64 minutes
    let sec ← parseU64 (seconds.takeWhile fun c => c ≠ '.')
    if h = 0 ∧ m = 0 ∧ sec = 0 then some "0s"
    else some (durationToString ((h * 3600 + m * 60 + sec) % 2 ^ 64))
  | _ => (parseU64 s).map durationToString

/-- `parse_hms(s).ok().map(|v| v as i64)`. -/
def hmsAsI64 (s : String) : Option ℤ := (parseHms s).toOption.map fun v : ℕ => (v : ℤ).bmod (2 ^ 64)

def pgIntervalToSecs (s : String) : Option ℤ :=
  match normalizePgInterval s with
  | some normalized => hmsAsI64 normalized
  | none => hmsAsI64 s

/-- `effective_candle_interval_secs`, of the column's text. -/
def effectiveCandleIntervalSecs (livePollInterval : Option String) (globalSecs : ℤ) : ℤ :=
  Collectors.effectiveCandleIntervalSecs (livePollInterval.bind pgIntervalToSecs) globalSecs

/-- `live_poll_interval` of `CoinDto::from`. -/
def shownPollInterval (livePollInterval : Option String) : Option String :=
  livePollInterval.bind normalizePgInterval

structure UnprocessableEntity where
  message : String
  deriving DecidableEq, Repr

def parseLivePollDuration (s : String) (minSecs maxSecs globalTickSecs : ℕ) :
    Except UnprocessableEntity ℕ :=
  match parseHms s with
  | .error e => .error ⟨"invalid live_poll_interval: " ++ e⟩
  | .ok totalSecs =>
    let effectiveFloor := max minSecs globalTickSecs
    if totalSecs < effectiveFloor then
      .error ⟨"live_poll_interval " ++ s ++ " (" ++ toString totalSecs ++
        "s) is below the effective floor of " ++ toString effectiveFloor ++ "s (max of min=" ++
        toString minSecs ++ "s, global_tick=" ++ toString globalTickSecs ++ "s) (REQ-API-114)"⟩
    else if totalSecs > maxSecs then
      .error ⟨"live_poll_interval " ++ s ++ " (" ++ toString totalSecs ++ "s) exceeds max of " ++
        toString maxSecs ++ "s (REQ-API-114)"⟩
    else .ok totalSecs

theorem parseLivePollDuration_eq_ok_iff {s : String} {minSecs maxSecs globalTickSecs d : ℕ} :
    parseLivePollDuration s minSecs maxSecs globalTickSecs = .ok d ↔
      parseHms s = .ok d ∧ max minSecs globalTickSecs ≤ d ∧ d ≤ maxSecs := by
  unfold parseLivePollDuration
  cases parseHms s with
  | error e => simp
  | ok totalSecs =>
    dsimp only
    split_ifs with hfloor hmax
    · simp only [Except.ok.injEq, false_iff]
      omega
    · simp only [Except.ok.injEq, false_iff]
      omega
    · simp only [Except.ok.injEq]
      omega

section Trimming

variable {s : List Char} {c : Char}

theorem isWhitespace_of_isDigit (h : c.isDigit = true) : isWhitespace c = false := by
  simp only [Char.isDigit, Bool.and_eq_true, decide_eq_true_eq, ge_iff_le,
    UInt32.le_iff_toNat_le] at h
  obtain ⟨hlow, hhigh⟩ := h
  have hlow' : 48 ≤ c.toNat := hlow
  have hhigh' : c.toNat ≤ 57 := hhigh
  simp only [isWhitespace, List.mem_cons, List.not_mem_nil, or_false, decide_eq_false_iff_not]
  omega

theorem trim_eq_self (h : ∀ c ∈ s, isWhitespace c = false) : trim s = s := by
  have hleft : s.dropWhile isWhitespace = s := by
    cases s with
    | nil => rfl
    | cons c rest => rw [List.dropWhile_cons_of_neg (by simp [h c List.mem_cons_self])]
  rw [trim, hleft, List.rdropWhile_eq_self_iff]
  intro hne
  rw [h _ (List.getLast_mem hne)]
  exact Bool.false_ne_true

end Trimming

section Components

variable {cs : List Component} {d : ℕ}

theorem mem_componentsText {c : Char} (h : c ∈ componentsText cs) :
    c.isDigit = true ∨ ∃ u : TimeUnit, c = u.char := by
  obtain ⟨component, -, hc⟩ := List.mem_flatMap.mp h
  rcases List.mem_append.mp hc with hdigit | hunit
  · exact Or.inl (component.number.all_digits c hdigit)
  · exact Or.inr ⟨component.unit, List.mem_singleton.mp hunit⟩

theorem trim_componentsText : trim (componentsText cs) = componentsText cs := by
  apply trim_eq_self
  intro c hc
  rcases mem_componentsText hc with hdigit | ⟨u, rfl⟩
  · exact isWhitespace_of_isDigit hdigit
  · cases u <;> decide

/-- The component of `n`, left out at zero. -/
def componentOf (n : ℕ) (unit : TimeUnit) (h : n ≤ u64Max) : List Component :=
  if n > 0 then [⟨.ofNat n, unit, by rwa [Numeral.value_ofNat]⟩] else []

theorem componentsText_componentOf (n : ℕ) (unit : TimeUnit) (h : n ≤ u64Max) :
    componentsText (componentOf n unit h) =
      (if n > 0 then toString n ++ String.singleton unit.char else "").toList := by
  unfold componentOf
  split_ifs
  · simp [componentsText, Component.text, Numeral.ofNat]
  · rfl

theorem totalSecs_componentOf (n : ℕ) (unit : TimeUnit) (h : n ≤ u64Max) :
    totalSecs (componentOf n unit h) = n * unit.secs := by
  unfold componentOf
  split_ifs with hn
  · simp [totalSecs, Component.secs]
  · simp [totalSecs, Nat.eq_zero_of_not_pos hn]

theorem componentsText_append (cs cs' : List Component) :
    componentsText (cs ++ cs') = componentsText cs ++ componentsText cs' := List.flatMap_append

theorem totalSecs_append (cs cs' : List Component) :
    totalSecs (cs ++ cs') = totalSecs cs + totalSecs cs' := by
  simp [totalSecs]

theorem exists_components_of_duration (hd : d ≤ u64Max) : ∃ cs, cs ≠ [] ∧
    (durationToString d).toList = componentsText cs ∧ totalSecs cs = d := by
  unfold durationToString
  by_cases hzero : d = 0
  · subst hzero
    exact ⟨[⟨.ofNat 0, .seconds, by decide⟩], List.cons_ne_nil _ _, by decide +kernel,
      by decide +kernel⟩
  · have hhours : d / 3600 ≤ u64Max := (Nat.div_le_self d 3600).trans hd
    have hminutes : d % 3600 / 60 ≤ u64Max :=
      (Nat.div_le_self _ 60).trans ((Nat.mod_le d 3600).trans hd)
    have hseconds : d % 60 ≤ u64Max := (Nat.mod_le d 60).trans hd
    have htotal : totalSecs (componentOf (d / 3600) .hours hhours ++
        componentOf (d % 3600 / 60) .minutes hminutes ++
        componentOf (d % 60) .seconds hseconds) = d := by
      simp only [totalSecs_append, totalSecs_componentOf, TimeUnit.secs]
      omega
    refine ⟨_, ?_, ?_, htotal⟩
    · intro hnil
      rw [hnil] at htotal
      exact hzero htotal.symm
    · rw [if_neg hzero]
      simp only [componentsText_append, componentsText_componentOf, String.toList_append]
      rfl

/-- What is printed is read as it was. -/
theorem parseHms_durationToString (hd : d ≤ u64Max) :
    parseHms (durationToString d) = .ok d := by
  obtain ⟨cs, hne, htext, htotal⟩ := exists_components_of_duration hd
  refine parseHms_eq_ok_iff.mpr ⟨cs, hne, ?_, ?_⟩
  · rw [htext, trim_componentsText]
  · rw [htotal, min_eq_left hd]

theorem normalizePgInterval_durationToString (hd : d ≤ u64Max) :
    normalizePgInterval (durationToString d) = none := by
  obtain ⟨cs, hne, htext, -⟩ := exists_components_of_duration hd
  have hcolon : ':' ∉ componentsText cs := by
    intro hmem
    rcases mem_componentsText hmem with hdigit | ⟨u, hu⟩
    · exact absurd hdigit (by decide)
    · cases u <;> exact absurd hu (by decide)
  have hnumber : parseU64 (componentsText cs) = none := by
    obtain ⟨c, rest, rfl⟩ := List.exists_cons_of_ne_nil hne
    obtain ⟨first, digits, hdigits, hfirst⟩ := c.number.exists_cons
    have hplus : dropPlus (componentsText (c :: rest)) = componentsText (c :: rest) := by
      rw [componentsText_cons, hdigits, List.cons_append, dropPlus, if_neg]
      rintro rfl
      exact absurd hfirst (by decide)
    have hunit : c.unit.char ∈ componentsText (c :: rest) := by simp
    rw [parseU64, hplus, if_neg]
    rintro ⟨-, hall, -⟩
    have hdigit := List.all_eq_true.mp hall _ hunit
    rw [c.unit.char_not_digit] at hdigit
    cases hdigit
  unfold normalizePgInterval
  rw [htext, trim_componentsText]
  simp only [List.splitOn_eq_singleton hcolon, hnumber, Option.map_none]

end Components

/-- Two digits at least. -/
def twoDigits (n : ℕ) : Numeral := if n < 10 then (Numeral.ofNat n).zeroPadded else .ofNat n

/-- `H:MM:SS`, the hours of two digits at least and without days. -/
def pgHms (totalSecs : ℕ) : List Char :=
  (twoDigits (totalSecs / 3600)).digits ++
    ':' :: ((twoDigits (totalSecs % 3600 / 60)).digits ++
      ':' :: (twoDigits (totalSecs % 60)).digits)

section Column

/-- What the interval column reads back for a literal written to it; `none` where PostgreSQL
refuses the literal. -/
abbrev IntervalColumn := String → Option String

/-- The default interval style. -/
def IntervalColumn.RendersSeconds (reread : IntervalColumn) : Prop :=
  ∀ d text, reread (durationToPgInterval d) = some text → text = String.ofList (pgHms d)

/-- An interval is 64 bits of microseconds. -/
def IntervalColumn.InRange (reread : IntervalColumn) : Prop :=
  ∀ d text, reread (durationToPgInterval d) = some text → d * 1000000 < 2 ^ 63

variable {n d : ℕ} {c : Char}

@[simp] theorem value_twoDigits (n : ℕ) : (twoDigits n).value = n := by
  unfold twoDigits
  split_ifs <;> simp

theorem parseU64_twoDigits (h : n ≤ u64Max) : parseU64 (twoDigits n).digits = some n := by
  rw [parseU64_digits, value_twoDigits, if_pos h]

theorem not_mem_digits (n : Numeral) (h : c.isDigit = false) : c ∉ n.digits := by
  intro hmem
  rw [n.all_digits c hmem] at h
  cases h

theorem trim_pgHms (d : ℕ) : trim (pgHms d) = pgHms d := by
  have hpart (n : ℕ) (c : Char) (hc : c ∈ (twoDigits n).digits) : isWhitespace c = false :=
    isWhitespace_of_isDigit ((twoDigits n).all_digits c hc)
  apply trim_eq_self
  intro c hc
  simp only [pgHms, List.mem_append, List.mem_cons] at hc
  rcases hc with hc | rfl | hc | rfl | hc
  · exact hpart _ c hc
  · decide
  · exact hpart _ c hc
  · decide
  · exact hpart _ c hc

theorem splitOn_pgHms (d : ℕ) : (pgHms d).splitOn ':' =
    [(twoDigits (d / 3600)).digits, (twoDigits (d % 3600 / 60)).digits,
      (twoDigits (d % 60)).digits] := by
  rw [pgHms, List.splitOn_append_cons_self_of_not_mem (not_mem_digits _ (by decide)),
    List.splitOn_append_cons_self_of_not_mem (not_mem_digits _ (by decide)),
    List.splitOn_eq_singleton (not_mem_digits _ (by decide))]

/-- The column's text of `d` seconds is shown as `d` seconds, however many hours it has. -/
theorem normalizePgInterval_pgHms (hd : d ≤ u64Max) :
    normalizePgInterval (String.ofList (pgHms d)) = some (durationToString d) := by
  have hhours : (twoDigits (d / 3600)).digits.dropWhile (fun c => c = '-') =
      (twoDigits (d / 3600)).digits := by
    obtain ⟨first, digits, hdigits, hfirst⟩ := (twoDigits (d / 3600)).exists_cons
    have hminus : first ≠ '-' := by
      rintro rfl
      exact absurd hfirst (by decide)
    rw [hdigits, List.dropWhile_cons_of_neg (by simpa using hminus)]
  have hseconds : (twoDigits (d % 60)).digits.takeWhile (fun c => c ≠ '.') =
      (twoDigits (d % 60)).digits := by
    rw [List.takeWhile_eq_self_iff]
    intro c hc
    have hpoint : c ≠ '.' := by
      rintro rfl
      exact not_mem_digits _ (by decide) hc
    simpa using hpoint
  have hread (n : ℕ) (hn : n ≤ d) : parseU64 (twoDigits n).digits = some n :=
    parseU64_twoDigits (hn.trans hd)
  have hsum : d / 3600 * 3600 + d % 3600 / 60 * 60 + d % 60 = d := by omega
  have hwrap : d % 2 ^ 64 = d := Nat.mod_eq_of_lt (by rw [u64Max] at hd; omega)
  unfold normalizePgInterval
  simp only [String.toList_ofList, trim_pgHms, splitOn_pgHms, hhours, hseconds,
    hread (d / 3600) (Nat.div_le_self d 3600),
    hread (d % 3600 / 60) ((Nat.div_le_self _ 60).trans (Nat.mod_le d 3600)),
    hread (d % 60) (Nat.mod_le d 60), Option.bind_eq_bind, Option.bind_some, hsum, hwrap]
  split_ifs with hzero
  · have hd0 : d = 0 := by omega
    rw [hd0]
    rfl
  · rfl

theorem hmsAsI64_durationToString (hd : d < 2 ^ 63) :
    hmsAsI64 (durationToString d) = some (d : ℤ) := by
  have hmax : d ≤ u64Max := by
    rw [u64Max]
    omega
  have hkept : (d : ℤ).bmod (2 ^ 64) = d := by
    apply Int.bmod_eq_of_le <;> omega
  rw [hmsAsI64, parseHms_durationToString hmax]
  simp only [Except.toOption, Option.map_some, hkept]

/-- The API's intervals come back from the database as the same number of seconds: for the
collectors, in the effective interval, and in the interval the coin endpoints show. A printed
duration is read as it was. -/
theorem poll_interval_round_trip {reread : IntervalColumn} (hstyle : reread.RendersSeconds)
    (hrange : reread.InRange) :
    (∀ d ≤ u64Max, parseHms (durationToString d) = .ok d) ∧
    ∀ s minSecs maxSecs globalTickSecs d text,
      parseLivePollDuration s minSecs maxSecs globalTickSecs = .ok d → 1 ≤ d →
      reread (durationToPgInterval d) = some text →
        pgIntervalToSecs text = some (d : ℤ) ∧
        (∀ globalSecs, effectiveCandleIntervalSecs (some text) globalSecs = d) ∧
        ∃ shown, shownPollInterval (some text) = some shown ∧ parseHms shown = .ok d ∧
          pgIntervalToSecs shown = some (d : ℤ) := by
  refine ⟨fun d hd => parseHms_durationToString hd, ?_⟩
  intro s minSecs maxSecs globalTickSecs d text haccepted hpos hstored
  have hmax : d ≤ u64Max := parseHms_le (parseLivePollDuration_eq_ok_iff.mp haccepted).1
  have hfits : d < 2 ^ 63 := by
    have hmicros := hrange d text hstored
    omega
  have hnormal : normalizePgInterval text = some (durationToString d) := by
    rw [hstyle d text hstored, normalizePgInterval_pgHms hmax]
  have hsecs : pgIntervalToSecs text = some (d : ℤ) := by
    rw [pgIntervalToSecs, hnormal]
    exact hmsAsI64_durationToString hfits
  refine ⟨hsecs, ?_, durationToString d, ?_, parseHms_durationToString hmax, ?_⟩
  · intro globalSecs
    rw [effectiveCandleIntervalSecs, Option.bind_some, hsecs]
    exact if_pos (by omega)
  · exact hnormal
  · rw [pgIntervalToSecs, normalizePgInterval_durationToString hmax]
    exact hmsAsI64_durationToString hfits

/-- The column on whole seconds. -/
def secondsColumn : IntervalColumn := fun literal =>
  match parseU64 (literal.toList.takeWhile Char.isDigit) with
  | none => none
  | some d =>
    if literal.toList.dropWhile Char.isDigit = " seconds".toList ∧ d * 1000000 < 2 ^ 63 then
      some (String.ofList (pgHms d))
    else none

theorem secondsColumn_durationToPgInterval (d : ℕ) :
    secondsColumn (durationToPgInterval d) =
      if d * 1000000 < 2 ^ 63 then some (String.ofList (pgHms d)) else none := by
  have htext : (durationToPgInterval d).toList =
      (Numeral.ofNat d).digits ++ ' ' :: "seconds".toList := by
    simp [durationToPgInterval, Numeral.ofNat]
  unfold secondsColumn
  rw [htext, Numeral.takeWhile_append _ (by decide), Numeral.dropWhile_append _ (by decide),
    parseU64_digits, Numeral.value_ofNat]
  by_cases hmicros : d * 1000000 < 2 ^ 63
  · have hmax : d ≤ u64Max := by
      rw [u64Max]
      omega
    simp only [if_pos hmax, hmicros, and_true, if_true]
    rfl
  · rw [if_neg hmicros]
    by_cases hmax : d ≤ u64Max
    · simp only [if_pos hmax, hmicros, and_false, if_false]
    · simp only [if_neg hmax]

theorem secondsColumn_rendersSeconds : secondsColumn.RendersSeconds := by
  intro d text h
  rw [secondsColumn_durationToPgInterval] at h
  split_ifs at h
  exact (Option.some.inj h).symm

theorem secondsColumn_inRange : secondsColumn.InRange := by
  intro d text h
  rw [secondsColumn_durationToPgInterval] at h
  split_ifs at h with hmicros
  exact hmicros

/-- A hundred hours, which have three digits in the column. -/
theorem hundredHours_round_trip :
    secondsColumn (durationToPgInterval 360000) = some "100:00:00" ∧
    pgIntervalToSecs "100:00:00" = some 360000 ∧
    (∀ globalSecs, effectiveCandleIntervalSecs (some "100:00:00") globalSecs = 360000) ∧
    ∃ shown, shownPollInterval (some "100:00:00") = some shown ∧ parseHms shown = .ok 360000 ∧
      pgIntervalToSecs shown = some 360000 := by
  have hstored : secondsColumn (durationToPgInterval 360000) = some "100:00:00" := by
    rw [secondsColumn_durationToPgInterval]
    decide +kernel
  have hread : parseHms "100h" = .ok 360000 :=
    parseHms_durationToString (d := 360000) (by decide)
  have haccepted : parseLivePollDuration "100h" 5 360000 60 = .ok 360000 :=
    parseLivePollDuration_eq_ok_iff.mpr ⟨hread, by decide, by decide⟩
  exact ⟨hstored, (poll_interval_round_trip secondsColumn_rendersSeconds
    secondsColumn_inRange).2 _ _ _ _ _ _ haccepted (by decide) hstored⟩

end Column
end CryptoCollector.Api
