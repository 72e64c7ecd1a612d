import OS2023.Calc.Grammar

/-!
# When the answers of the arithmetic calls are exact

`sscanf` keeps 64 bits of an operand and the calls keep 64 bits of the result,
and nothing in the program looks at the size of a number. Both reductions are
modulo `2 ^ 64`, so an operand that does not fit does no harm by itself: the
answer is the exact result exactly when the result fits a `long`.
-/

namespace OS2023.Calc

open OS2023.Lib

/-! ## Numbers of 64 bits -/

def FitsLong (v : Int) : Prop :=
  -2 ^ 63 ≤ v ∧ v < 2 ^ 63

instance (v : Int) : Decidable (FitsLong v) :=
  inferInstanceAs (Decidable (_ ∧ _))

theorem wrap64_eq_self_iff (v : Int) : wrap64 v = v ↔ FitsLong v := by
  unfold wrap64 FitsLong
  omega

theorem wrap64_sub (a b : Int) : wrap64 (wrap64 a - wrap64 b) = wrap64 (a - b) := by
  unfold wrap64
  omega

theorem wrap64_add (a b : Int) : wrap64 (wrap64 a + wrap64 b) = wrap64 (a + b) := by
  unfold wrap64
  omega

/-! ## Lines -/

/-- `ds` is the number `a` written in decimal, with leading zeros or without. -/
def Decimal (ds : List Char) (a : ℕ) : Prop :=
  Digits ds ∧ Nat.ofDigitChars 10 ds 0 = a

theorem decimal_toDigits (a : ℕ) : Decimal (Nat.toDigits 10 a) a :=
  ⟨⟨Nat.toDigits_ne_nil, fun _ hc => isDigit_of_mem_toDigits hc⟩,
    Nat.ofDigitChars_ten_toDigits⟩

/-- The line `a op b`. -/
def expression (ds₁ : List Char) (op : Char) (ds₂ : List Char) : List Char :=
  ds₁ ++ (' ' :: op :: ' ' :: ds₂)

/-- The operation opposite to the sign. -/
def opposite (op : Char) (a b : ℕ) : Int :=
  if op = '+' then (a : Int) - b else (a : Int) + b

variable {ds₁ ds₂ : List Char} {a b : ℕ} {op : Char}

theorem sscanf_expression (ha : Decimal ds₁ a) (hb : Decimal ds₂ b) (hop : op = '+' ∨ op = '-') :
    sscanf (expression ds₁ op ds₂) = some (wrap64 a, op, wrap64 b) := by
  obtain ⟨hd₁, rfl⟩ := ha
  obtain ⟨hd₂, rfl⟩ := hb
  have h₁ := @scanInt_digits ['-'] [] ds₁ (' ' :: op :: ' ' :: ds₂) (by simp) (by simp)
    hd₁.1 hd₁.2 (by simp [NoDigitHead])
  have h₂ := @scanInt_digits ['-'] [' '] ds₂ [] (by simp) (by simp [isSpaceChar]) hd₂.1 hd₂.2
    (by simp [NoDigitHead])
  rw [List.nil_append] at h₁
  rw [List.append_nil] at h₂
  have hskip : skipSpaces (' ' :: op :: ' ' :: ds₂) = op :: ' ' :: ds₂ :=
    (@skipSpaces_append [' '] (by simp [isSpaceChar]) _).trans (skipSpaces_cons (isSpaceChar_sign hop) _)
  simp only [sscanf, expression, h₁, hskip, scanInt_skipSpaces]
  rw [show ' ' :: ds₂ = [' '] ++ ds₂ from rfl, h₂]

/-- The characters of the line. -/
theorem mem_expression {c : Char} (hd₁ : Digits ds₁) (hd₂ : Digits ds₂)
    (hc : c ∈ expression ds₁ op ds₂) : c.isDigit = true ∨ c = ' ' ∨ c = op := by
  simp only [expression, List.mem_append, List.mem_cons] at hc
  rcases hc with hc | hc | hc | hc | hc
  · exact Or.inl (hd₁.2 c hc)
  · exact Or.inr (Or.inl hc)
  · exact Or.inr (Or.inr hc)
  · exact Or.inr (Or.inl hc)
  · exact Or.inl (hd₂.2 c hc)

theorem not_mem_expression {c : Char} (hd₁ : Digits ds₁) (hd₂ : Digits ds₂)
    (hdigit : c.isDigit = false) (hspace : c ≠ ' ') (hne : c ≠ op) :
    c ∉ expression ds₁ op ds₂ := by
  intro hc
  rcases mem_expression hd₁ hd₂ hc with h | h | h
  · rw [h] at hdigit
    exact absurd hdigit (by decide)
  · exact hspace h
  · exact hne h

theorem op_mem_expression : op ∈ expression ds₁ op ds₂ := by
  simp [expression]

theorem isChar_expression (hd₁ : Digits ds₁) (hd₂ : Digits ds₂) (hop : op = '+' ∨ op = '-') :
    isChar (expression ds₁ op ds₂) = false := by
  rw [isChar, List.any_eq_false]
  intro c hc
  rcases mem_expression hd₁ hd₂ hc with hd | rfl | rfl
  · simp [hd]
  · decide
  · rcases hop with rfl | rfl <;> decide

theorem arithmeticCall_expression (ha : Decimal ds₁ a) (hb : Decimal ds₂ b)
    (hop : op = '+' ∨ op = '-') (compute : Int → Int → Int) :
    arithmeticCall op compute (expression ds₁ op ds₂) =
      some (showLong (wrap64 (compute (wrap64 a) (wrap64 b)))) := by
  rw [arithmeticCall, if_neg (List.ne_nil_of_mem op_mem_expression),
    sscanf_expression ha hb hop]
  exact if_pos rfl

/-- **What is answered**: the result of the opposite operation, kept to 64 bits. -/
theorem respond_expression (ha : Decimal ds₁ a) (hb : Decimal ds₂ b)
    (hop : op = '+' ∨ op = '-') : respond (expression ds₁ op ds₂) =
      some (.output (showLong (wrap64 (opposite op a b)))) := by
  have hne : expression ds₁ op ds₂ ≠ [] := List.ne_nil_of_mem op_mem_expression
  have hchar := isChar_expression ha.1 hb.1 hop
  rw [respond, if_neg hne, hchar]
  rcases hop with rfl | rfl
  · rw [if_pos op_mem_expression, opposite, if_pos rfl, ← wrap64_sub]
    simp only [Bool.not_false, if_true, sysPlusRevert,
      arithmeticCall_expression ha hb (Or.inl rfl), answerOf]
  · rw [if_neg (not_mem_expression ha.1 hb.1 (by decide) (by decide) (by decide)),
      if_pos op_mem_expression, opposite, if_neg (show '-' ≠ '+' by decide),
      ← wrap64_add]
    simp only [Bool.not_false, if_true, sysMinusRevert,
      arithmeticCall_expression ha hb (Or.inr rfl), answerOf]

/-! ## Exact answers -/

/-- The exact result in decimal, or a rejection. -/
def ExactOrRejected (op : Char) (a b : ℕ) (answer : Option Answer) : Prop :=
  answer = some (.output (toString (opposite op a b)).toList) ∨ answer = some .wrongInput

/-- **The answer is exact exactly when the result fits a `long`**, whatever the
size of the operands. -/
theorem exactOrRejected_iff (ha : Decimal ds₁ a) (hb : Decimal ds₂ b)
    (hop : op = '+' ∨ op = '-') (hlen : (expression ds₁ op ds₂).length ≤ 98)
    {tail : List Char} (htail : tail = [] ∨ ∃ rest, tail = '\n' :: rest) :
    ExactOrRejected op a b (calculator (expression ds₁ op ds₂ ++ tail)).head? ↔
      FitsLong (opposite op a b) := by
  have hnot : ∀ c, c.isDigit = false → c ≠ ' ' → c ≠ '+' → c ≠ '-' →
      c ∉ expression ds₁ op ds₂ := by
    intro c hdigit hspace hplus hminus
    refine not_mem_expression ha.1 hb.1 hdigit hspace ?_
    rcases hop with rfl | rfl
    · exact hplus
    · exact hminus
  have hnewline := hnot '\n' (by decide) (by decide) (by decide) (by decide)
  have hnul := hnot '\x00' (by decide) (by decide) (by decide) (by decide)
  rw [calculator_head hlen hnewline htail, visible_of_not_mem hnul,
    respond_expression ha hb hop, ExactOrRejected, ← wrap64_eq_self_iff]
  constructor
  · rintro (h | h)
    · exact toString_injective (Answer.output.inj (Option.some.inj h))
    · exact absurd (Option.some.inj h) (by simp)
  · intro h
    rw [h]
    exact Or.inl rfl

/-- Two operands that do not fit, and whose difference does. -/
theorem exactOrRejected_iff_difference : ExactOrRejected '+' (2 ^ 63) (2 ^ 63 + 5)
    (calculator (expression (Nat.toDigits 10 (2 ^ 63)) '+' (Nat.toDigits 10 (2 ^ 63 + 5)) ++
      ['\n'])).head? :=
  (exactOrRejected_iff (decimal_toDigits _) (decimal_toDigits _) (Or.inl rfl) (by decide)
    (Or.inr ⟨[], rfl⟩)).mpr (by decide)

/-- The sum of `9223372036854775807` and `1` comes out negative. -/
theorem not_exactOrRejected_sum : ¬ExactOrRejected '-' (2 ^ 63 - 1) 1
    (calculator ("9223372036854775807 - 1".toList ++ ['\n'])).head? := by
  have hanswer : (calculator ("9223372036854775807 - 1".toList ++ ['\n'])).head? =
      some (.output "-9223372036854775808".toList) := by
    decide +kernel
  rw [hanswer]
  unfold ExactOrRejected
  decide

end OS2023.Calc
