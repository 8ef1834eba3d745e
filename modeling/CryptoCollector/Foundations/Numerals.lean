import Mathlib.Data.List.TakeWhile
import Mathlib.Tactic

/-!
# Decimal numerals in a text

A numeral is a non-empty run of decimal digits. Where a character that is no digit follows,
the run ends there, so a text splits into a numeral and what follows in one way.
-/

namespace CryptoCollector.Foundations

/-- A non-empty run of decimal digits. -/
structure Numeral where
  digits : List Char
  ne_nil : digits ≠ []
  all_digits : ∀ c ∈ digits, c.isDigit = true

namespace Numeral

def value (n : Numeral) : ℕ := Nat.ofDigitChars 10 n.digits 0

/-- The numeral of a number, without leading zeros. -/
def ofNat (n : ℕ) : Numeral where
  digits := Nat.toDigits 10 n
  ne_nil := Nat.toDigits_ne_nil
  all_digits := fun _ hc => Nat.isDigit_of_mem_toDigits (by decide) (by decide) hc

/-- The numeral after a zero. -/
def zeroPadded (n : Numeral) : Numeral where
  digits := '0' :: n.digits
  ne_nil := List.cons_ne_nil _ _
  all_digits := by
    intro c hc
    rcases List.mem_cons.mp hc with rfl | hc
    · decide
    · exact n.all_digits c hc

@[simp] theorem value_ofNat (n : ℕ) : (ofNat n).value = n := Nat.ofDigitChars_ten_toDigits

@[simp] theorem value_zeroPadded (n : Numeral) : n.zeroPadded.value = n.value := by
  simp [value, zeroPadded, Nat.ofDigitChars_cons]

theorem digits_inj {n n' : Numeral} (h : n.digits = n'.digits) : n = n' := by
  cases n
  cases n'
  cases h
  rfl

theorem exists_cons (n : Numeral) : ∃ c rest, n.digits = c :: rest ∧ c.isDigit = true := by
  obtain ⟨c, rest, hdigits⟩ := List.exists_cons_of_ne_nil n.ne_nil
  exact ⟨c, rest, hdigits, n.all_digits c (hdigits ▸ List.mem_cons_self)⟩

section Splitting

variable {n n' : Numeral} {stop stop' : Char} {rest rest' : List Char}

theorem takeWhile_append (n : Numeral) (hstop : stop.isDigit = false) (rest : List Char) :
    (n.digits ++ stop :: rest).takeWhile Char.isDigit = n.digits := by
  rw [List.takeWhile_append_of_pos n.all_digits, List.takeWhile_cons_of_neg (by simp [hstop]),
    List.append_nil]

theorem dropWhile_append (n : Numeral) (hstop : stop.isDigit = false) (rest : List Char) :
    (n.digits ++ stop :: rest).dropWhile Char.isDigit = stop :: rest := by
  rw [List.dropWhile_append_of_pos n.all_digits, List.dropWhile_cons_of_neg (by simp [hstop])]

/-- A text splits into a numeral and what follows in one way. -/
theorem append_inj (hstop : stop.isDigit = false) (hstop' : stop'.isDigit = false)
    (h : n.digits ++ stop :: rest = n'.digits ++ stop' :: rest') :
    n = n' ∧ stop = stop' ∧ rest = rest' := by
  have hdigits := congrArg (List.takeWhile Char.isDigit) h
  have hafter := congrArg (List.dropWhile Char.isDigit) h
  rw [takeWhile_append n hstop, takeWhile_append n' hstop'] at hdigits
  rw [dropWhile_append n hstop, dropWhile_append n' hstop', List.cons.injEq] at hafter
  exact ⟨digits_inj hdigits, hafter⟩

theorem exists_of_dropWhile {text : List Char} (hrun : text.takeWhile Char.isDigit ≠ [])
    (hafter : text.dropWhile Char.isDigit = stop :: rest) :
    ∃ n : Numeral, n.digits = text.takeWhile Char.isDigit ∧ text = n.digits ++ stop :: rest := by
  refine ⟨⟨text.takeWhile Char.isDigit, hrun, ?_⟩, rfl, ?_⟩
  · intro c hc
    exact List.mem_takeWhile_imp hc
  · rw [← hafter, List.takeWhile_append_dropWhile]

end Splitting
end Numeral
end CryptoCollector.Foundations
