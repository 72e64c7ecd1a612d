import Mathlib.Algebra.Order.Ring.Rat
import Mathlib.Tactic.FieldSimp
import Mathlib.Tactic.Ring
import OS2023.Lib.Printf

/-!
# Decimal fractions

The value of a text with a decimal point, as a rational number. A minus sign in front is
for the whole of it, so that an integer and a fraction that are printed one after the
other are read back as their sum only if the integer is not negative.
-/

namespace OS2023.Lib

/-- `strtod` on text without an exponent, with the exact value. -/
def strtod (s : List Char) : ℚ :=
  let (negative, body) := takeSign ['+', '-'] (skipSpaces s)
  let whole := body.takeWhile Char.isDigit
  let fraction :=
    match body.dropWhile Char.isDigit with
    | '.' :: t => t.takeWhile Char.isDigit
    | _ => []
  let value : ℚ := (Nat.ofDigitChars 10 (whole ++ fraction) 0 : ℕ) / 10 ^ fraction.length
  if negative then -value else value

theorem ofDigitChars_append_zero (ds ds' : List Char) :
    Nat.ofDigitChars 10 (ds ++ ds') 0 =
      Nat.ofDigitChars 10 ds 0 * 10 ^ ds'.length + Nat.ofDigitChars 10 ds' 0 := by
  rw [Nat.ofDigitChars_append, Nat.ofDigitChars_eq_ofDigitChars_zero, Nat.mul_comm]

/-- **A decimal fraction is read back**, its sign for the whole of it. -/
theorem strtod_fraction (negative : Bool) {ds ds' : List Char} (hne : ds ≠ [])
    (hds : ∀ c ∈ ds, c.isDigit = true) (hds' : ∀ c ∈ ds', c.isDigit = true) :
    strtod (signText negative ++ (ds ++ '.' :: ds')) =
      (if negative then -1 else 1) *
        (Nat.ofDigitChars 10 ds 0 + Nat.ofDigitChars 10 ds' 0 / 10 ^ ds'.length) := by
  have hpoint : NoDigitHead ('.' :: ds') := by
    rintro c ⟨rfl⟩
    decide
  obtain ⟨htake, hdrop⟩ := takeWhile_digits hds hpoint
  have hfraction : ds'.takeWhile Char.isDigit = ds' := List.takeWhile_eq_self_iff.mpr hds'
  have hsign : takeSign ['+', '-'] (skipSpaces (signText negative ++ (ds ++ '.' :: ds'))) =
      (negative, ds ++ '.' :: ds') := by
    cases negative with
    | true => rfl
    | false =>
        obtain ⟨d, ds, rfl⟩ := List.exists_cons_of_ne_nil hne
        have hd : d.isDigit = true := hds d List.mem_cons_self
        have hnot : d ∉ ['+', '-'] := by
          intro hmem
          rcases List.mem_pair.mp hmem with rfl | rfl
          · exact absurd hd (by decide)
          · exact absurd hd (by decide)
        show takeSign ['+', '-'] (skipSpaces (d :: (ds ++ '.' :: ds'))) = _
        rw [skipSpaces_cons (isSpaceChar_of_isDigit hd), takeSign, if_neg hnot]
        rfl
  simp only [strtod, hsign, htake, hdrop, hfraction, ofDigitChars_append_zero]
  have hvalue : ((Nat.ofDigitChars 10 ds 0 * 10 ^ ds'.length + Nat.ofDigitChars 10 ds' 0 : ℕ) : ℚ) /
      10 ^ ds'.length = Nat.ofDigitChars 10 ds 0 + Nat.ofDigitChars 10 ds' 0 / 10 ^ ds'.length := by
    push_cast
    field_simp
  rw [hvalue]
  cases negative with
  | true => simp
  | false => simp

end OS2023.Lib
