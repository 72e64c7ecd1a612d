import OS2023.Calc.Calculator

/-!
# What the calculator accepts

The README asks for a natural number, or two natural numbers around a sign, and
for "Wrong Input" on everything else. The program accepts more: an operand may
carry a minus sign of its own, anything may follow the second operand, and a
NUL hides the rest of the line. `Reading` is the form of the lines that the
conversions of the kernel read through; the lines answered against the README
are exactly those whose reading has such slack.
-/

namespace OS2023.Calc

open OS2023.Lib

variable {line e : List Char}

/-! ## Forms of lines -/

def Spaces (l : List Char) : Prop :=
  ∀ c ∈ l, c = ' '

/-- A natural number. -/
def Digits (l : List Char) : Prop :=
  l ≠ [] ∧ ∀ c ∈ l, c.isDigit = true

instance (l : List Char) : Decidable (Spaces l) :=
  inferInstanceAs (Decidable (∀ c ∈ l, c = ' '))

instance (l : List Char) : Decidable (Digits l) :=
  inferInstanceAs (Decidable (l ≠ [] ∧ ∀ c ∈ l, c.isDigit = true))

/-- The line as an operand, a sign, an operand and a rest. -/
structure Reading (line : List Char) where
  sp₁ : List Char
  minus₁ : Bool
  ds₁ : List Char
  sp₂ : List Char
  op : Char
  sp₃ : List Char
  minus₂ : Bool
  ds₂ : List Char
  rest : List Char
  text : line = sp₁ ++ (signText minus₁ ++ (ds₁ ++ (sp₂ ++ op ::
    (sp₃ ++ (signText minus₂ ++ (ds₂ ++ rest))))))
  spaces₁ : Spaces sp₁
  digits₁ : Digits ds₁
  spaces₂ : Spaces sp₂
  sign : op = '+' ∨ op = '-'
  spaces₃ : Spaces sp₃
  digits₂ : Digits ds₂
  maximal : NoDigitHead rest

/-- Nothing beyond what the README describes. -/
structure Reading.Exact (r : Reading line) : Prop where
  natural₁ : r.minus₁ = false
  natural₂ : r.minus₂ = false
  blank : Spaces r.rest

/-- Digits, one sign, digits, with only spaces around and between. -/
def IsExpression (line : List Char) : Prop :=
  ∃ r : Reading line, r.Exact

/-- The sign by which the program picks the system call. -/
def signOf (e : List Char) : Char :=
  if '+' ∈ e then '+' else '-'

/-! ## Conversions and readings -/

theorem Spaces.isSpaceChar {sp : List Char} (h : Spaces sp) :
    ∀ c ∈ sp, Lib.isSpaceChar c = true := by
  intro c hc
  rw [h c hc]
  decide

/-- The number that an operand stands for. -/
def operand (minus : Bool) (ds : List Char) : Int :=
  if minus then -(Nat.ofDigitChars 10 ds 0) else Nat.ofDigitChars 10 ds 0

theorem scanInt_operand {sp ds s : List Char} (minus : Bool) (hsp : Spaces sp)
    (hds : Digits ds) (hs : NoDigitHead s) :
    scanInt ['-'] (sp ++ (signText minus ++ (ds ++ s))) = .value (operand minus ds) s := by
  cases minus with
  | true => exact scanInt_negative (by simp) hsp.isSpaceChar hds.1 hds.2 hs
  | false => exact scanInt_digits (by simp) hsp.isSpaceChar hds.1 hds.2 hs

theorem noDigitHead_sign {sp s : List Char} {op : Char} (hsp : Spaces sp)
    (hop : op = '+' ∨ op = '-') : NoDigitHead (sp ++ op :: s) := by
  intro c hc
  cases sp with
  | nil =>
      obtain rfl : op = c := Option.some.inj hc
      rcases hop with rfl | rfl <;> decide
  | cons d sp =>
      obtain rfl : d = c := Option.some.inj hc
      rw [hsp d List.mem_cons_self]
      decide

theorem isSpaceChar_sign {op : Char} (hop : op = '+' ∨ op = '-') :
    isSpaceChar op = false := by
  rcases hop with rfl | rfl <;> decide

/-- A line with a reading is converted: its operands, and its sign as the operation. -/
theorem Reading.sscanf_eq (r : Reading line) : Calc.sscanf line =
    some (wrap64 (operand r.minus₁ r.ds₁), r.op, wrap64 (operand r.minus₂ r.ds₂)) := by
  have h₁ := scanInt_operand r.minus₁ r.spaces₁ r.digits₁
    (noDigitHead_sign (s := r.sp₃ ++ (signText r.minus₂ ++ (r.ds₂ ++ r.rest))) r.spaces₂ r.sign)
  have h₂ := scanInt_operand r.minus₂ r.spaces₃ r.digits₂ r.maximal
  rw [← r.text] at h₁
  simp only [Calc.sscanf, h₁, skipSpaces_append r.spaces₂.isSpaceChar,
    skipSpaces_cons (isSpaceChar_sign r.sign), scanInt_skipSpaces, h₂]

/-- A line over the program's alphabet has only blanks for white space. -/
theorem spaces_of_isChar (he : isChar e = false) {sp : List Char} (hsub : ∀ c ∈ sp, c ∈ e)
    (hsp : ∀ c ∈ sp, isSpaceChar c = true) : Spaces sp := by
  intro c hc
  have hall := List.any_eq_false.mp he c (hsub c hc)
  have hnot : c.isDigit = false := by
    by_contra hd
    rw [Bool.not_eq_false] at hd
    have hspace := isSpaceChar_of_isDigit hd
    rw [hsp c hc] at hspace
    exact absurd hspace (by decide)
  simp only [hnot, Bool.not_false, Bool.true_and, Bool.not_eq_true, Bool.not_eq_false',
    Bool.or_eq_true, beq_iff_eq] at hall
  have hspace := hsp c hc
  rcases hall with (rfl | rfl) | rfl
  · rfl
  · exact absurd hspace (by decide)
  · exact absurd hspace (by decide)

/-- A line that is converted with a sign for its operation has a reading. -/
theorem exists_reading (he : isChar e = false) {number₁ number₂ : Int} {op : Char}
    (h : sscanf e = some (number₁, op, number₂)) (hop : op = '+' ∨ op = '-') :
    ∃ r : Reading e, r.op = op := by
  unfold sscanf at h
  cases h₁ : scanInt ['-'] e with
  | eof => simp [h₁] at h
  | mismatch s => simp [h₁] at h
  | value v₁ s₁ =>
      simp only [h₁] at h
      obtain ⟨sp₁, minus₁, ds₁, htext₁, hsp₁, hne₁, hds₁, -⟩ := scanInt_inv h₁
      obtain ⟨sp₂, hsplit₂, hsp₂⟩ := exists_skipped s₁
      cases hskip : skipSpaces s₁ with
      | nil => simp [hskip] at h
      | cons c s₂ =>
          rw [hskip] at h hsplit₂
          simp only [scanInt_skipSpaces] at h
          cases h₂ : scanInt ['-'] s₂ with
          | eof => simp [h₂] at h
          | mismatch s => simp [h₂] at h
          | value v₂ rest =>
              simp only [h₂, Option.some.injEq, Prod.mk.injEq] at h
              obtain ⟨-, rfl, -⟩ := h
              obtain ⟨sp₃, minus₂, ds₂, htext₃, hsp₃, hne₂, hds₂, hmax⟩ := scanInt_inv h₂
              have htext : e = sp₁ ++ (signText minus₁ ++ (ds₁ ++ (sp₂ ++ c ::
                  (sp₃ ++ (signText minus₂ ++ (ds₂ ++ rest)))))) := by
                rw [← htext₃, ← hsplit₂]
                exact htext₁
              have hsub : ∀ x, x ∈ sp₁ ∨ x ∈ sp₂ ∨ x ∈ sp₃ → x ∈ e := by
                intro x hx
                rw [htext]
                simp only [List.mem_append, List.mem_cons]
                rcases hx with hx | hx | hx <;> simp [hx]
              refine ⟨⟨sp₁, minus₁, ds₁, sp₂, c, sp₃, minus₂, ds₂, rest, htext, ?_,
                ⟨hne₁, hds₁⟩, ?_, hop, ?_, ⟨hne₂, hds₂⟩, hmax⟩, rfl⟩
              · exact spaces_of_isChar he (fun x hx => hsub x (Or.inl hx)) hsp₁
              · exact spaces_of_isChar he (fun x hx => hsub x (Or.inr (Or.inl hx))) hsp₂
              · exact spaces_of_isChar he (fun x hx => hsub x (Or.inr (Or.inr hx))) hsp₃

/-! ## A line has one reading -/

theorem operand_unique {sp sp' ds ds' s s' : List Char} {minus minus' : Bool}
    (hsp : Spaces sp) (hsp' : Spaces sp') (hds : Digits ds) (hds' : Digits ds')
    (hs : NoDigitHead s) (hs' : NoDigitHead s')
    (h : sp ++ (signText minus ++ (ds ++ s)) = sp' ++ (signText minus' ++ (ds' ++ s'))) :
    minus = minus' ∧ s = s' := by
  have hhead : ∀ {minus : Bool} {ds s : List Char}, Digits ds →
      ∀ c ∈ (signText minus ++ (ds ++ s)).head?, (c == ' ') = false := by
    intro minus ds s hds c hc
    cases minus with
    | true =>
        obtain rfl : '-' = c := Option.some.inj hc
        decide
    | false =>
        obtain ⟨d, ds, rfl⟩ := List.exists_cons_of_ne_nil hds.1
        obtain rfl : d = c := Option.some.inj hc
        have hd := hds.2 d List.mem_cons_self
        rw [beq_eq_false_iff_ne]
        rintro rfl
        exact absurd hd (by decide)
  obtain ⟨-, hrest⟩ := split_unique (p := fun c => c == ' ')
    (fun c hc => beq_iff_eq.mpr (hsp c hc)) (fun c hc => beq_iff_eq.mpr (hsp' c hc))
    (hhead hds) (hhead hds') h
  have hdigit : ∀ {ds s s' : List Char}, Digits ds → ds ++ s ≠ '-' :: s' := by
    intro ds s s' hds heq
    obtain ⟨d, ds, rfl⟩ := List.exists_cons_of_ne_nil hds.1
    have hd := hds.2 d List.mem_cons_self
    rw [(List.cons.inj heq).1] at hd
    exact absurd hd (by decide)
  cases minus with
  | true =>
      cases minus' with
      | true =>
          exact ⟨rfl, (split_unique hds.2 hds'.2 hs hs' (List.cons.inj hrest).2).2⟩
      | false =>
          have heq : ds' ++ s' = '-' :: (ds ++ s) := hrest.symm
          exact absurd heq (hdigit hds')
  | false =>
      cases minus' with
      | true =>
          have heq : ds ++ s = '-' :: (ds' ++ s') := hrest
          exact absurd heq (hdigit hds)
      | false => exact ⟨rfl, (split_unique hds.2 hds'.2 hs hs' hrest).2⟩

/-- **A line has one reading**, as far as signs and rest go. -/
theorem Reading.unique (r r' : Reading line) :
    r.minus₁ = r'.minus₁ ∧ r.minus₂ = r'.minus₂ ∧ r.rest = r'.rest := by
  have htext := r.text.symm.trans r'.text
  obtain ⟨hminus₁, hmid⟩ := operand_unique r.spaces₁ r'.spaces₁ r.digits₁ r'.digits₁
    (noDigitHead_sign r.spaces₂ r.sign) (noDigitHead_sign r'.spaces₂ r'.sign) htext
  have hop : ∀ (r : Reading line) (s : List Char), ∀ c ∈ (r.op :: s).head?,
      (c == ' ') = false := by
    intro r s c hc
    obtain rfl : r.op = c := Option.some.inj hc
    rcases r.sign with h | h <;> rw [h] <;> decide
  obtain ⟨-, hmid⟩ := split_unique (p := fun c => c == ' ')
    (fun c hc => beq_iff_eq.mpr (r.spaces₂ c hc))
    (fun c hc => beq_iff_eq.mpr (r'.spaces₂ c hc)) (hop r _) (hop r' _) hmid
  obtain ⟨hminus₂, hrest⟩ := operand_unique r.spaces₃ r'.spaces₃ r.digits₂ r'.digits₂
    r.maximal r'.maximal (List.cons.inj hmid).2
  exact ⟨hminus₁, hminus₂, hrest⟩

theorem Reading.Exact.of_unique {r r' : Reading line} (h : r.Exact) : r'.Exact := by
  obtain ⟨h₁, h₂, h₃⟩ := r.unique r'
  exact ⟨h₁ ▸ h.natural₁, h₂ ▸ h.natural₂, h₃ ▸ h.blank⟩

theorem Reading.op_mem (r : Reading line) : r.op ∈ line := by
  have hmem : r.op ∈ r.sp₁ ++ (signText r.minus₁ ++ (r.ds₁ ++ (r.sp₂ ++ r.op ::
      (r.sp₃ ++ (signText r.minus₂ ++ (r.ds₂ ++ r.rest)))))) := by
    simp
  rw [← r.text] at hmem
  exact hmem

/-! ## Answers -/

/-- What the two arithmetic calls read through. -/
def Accepted (e : List Char) : Prop :=
  isChar e = false ∧ ∃ r : Reading e, r.op = signOf e

theorem Digits.not_mem {c : Char} (h : Digits e) (hc : c.isDigit = false) : c ∉ e := by
  intro hmem
  rw [h.2 c hmem] at hc
  exact absurd hc (by decide)

theorem respond_digits (h : Digits e) : respond e = some (.output e.reverse) := by
  have hchar : isChar e = false := by
    rw [isChar, List.any_eq_false]
    intro c hc
    simp [h.2 c hc]
  have hspace : isSpace e = false := by
    rw [isSpace, List.any_eq_false]
    intro c hc
    rw [beq_iff_eq]
    rintro rfl
    exact h.not_mem (by decide) hc
  rw [respond, if_neg h.1, if_neg (h.not_mem (by decide)), if_neg (h.not_mem (by decide)),
    hchar, hspace]
  simp [sysStringRevert, h.1, answerOf]

theorem Reading.arithmeticCall (r : Reading line) (compute : Int → Int → Int) :
    Calc.arithmeticCall r.op compute line = some (showLong (wrap64
      (compute (wrap64 (operand r.minus₁ r.ds₁)) (wrap64 (operand r.minus₂ r.ds₂))))) := by
  rw [Calc.arithmeticCall, if_neg (List.ne_nil_of_mem r.op_mem), r.sscanf_eq]
  exact if_pos rfl

/-- One arithmetic call answers exactly the lines that read with its sign. -/
theorem arithmeticCall_iff (he : isChar e = false) {sign : Char}
    (hsign : sign = '+' ∨ sign = '-') (compute : Int → Int → Int) :
    (∃ text, arithmeticCall sign compute e = some text) ↔
      ∃ r : Reading e, r.op = sign := by
  constructor
  · rintro ⟨text, h⟩
    unfold arithmeticCall at h
    split at h
    · exact absurd h (by simp)
    · split at h
      · rename_i hscan
        split at h
        · rename_i hop
          subst hop
          exact exists_reading he hscan hsign
        · exact absurd h (by simp)
      · exact absurd h (by simp)
  · rintro ⟨r, rfl⟩
    exact ⟨_, r.arithmeticCall compute⟩

theorem answerOf_output {result : Option (List Char)} :
    (∃ text, some (answerOf result) = some (.output text)) ↔ ∃ text, result = some text := by
  cases result with
  | none => simp [answerOf]
  | some text => simp [answerOf]

/-- **What is answered with an output**: a number, or an accepted line. -/
theorem respond_output_iff :
    (∃ text, respond e = some (.output text)) ↔ Digits e ∨ Accepted e := by
  by_cases hdigits : Digits e
  · exact iff_of_true ⟨_, respond_digits hdigits⟩ (Or.inl hdigits)
  rw [or_iff_right hdigits]
  unfold respond Accepted signOf
  by_cases hnil : e = []
  · subst hnil
    refine iff_of_false (by simp) ?_
    rintro ⟨-, r, -⟩
    exact absurd r.op_mem List.not_mem_nil
  rw [if_neg hnil]
  by_cases hplus : '+' ∈ e
  · rw [if_pos hplus, if_pos hplus, answerOf_output]
    cases hchar : isChar e with
    | true => simp
    | false =>
        rw [← arithmeticCall_iff hchar (Or.inl rfl) fun a b => a - b]
        simp [sysPlusRevert]
  rw [if_neg hplus, if_neg hplus]
  by_cases hminus : '-' ∈ e
  · rw [if_pos hminus, answerOf_output]
    cases hchar : isChar e with
    | true => simp
    | false =>
        rw [← arithmeticCall_iff hchar (Or.inr rfl) fun a b => a + b]
        simp [sysMinusRevert]
  · rw [if_neg hminus, answerOf_output]
    -- without a sign only a number could be answered
    refine iff_of_false ?_ ?_
    · rintro ⟨text, h⟩
      apply hdigits
      refine ⟨hnil, fun c hc => ?_⟩
      have hclean : isChar e = false ∧ isSpace e = false := by
        cases hchar : isChar e <;> cases hspace : isSpace e <;> simp_all
      have hc₁ := List.any_eq_false.mp hclean.1 c hc
      have hc₂ := List.any_eq_false.mp hclean.2 c hc
      by_contra hd
      rw [Bool.not_eq_true] at hd
      simp only [hd, Bool.not_false, Bool.true_and, Bool.not_eq_true, Bool.not_eq_false',
        Bool.or_eq_true, beq_iff_eq] at hc₁
      rcases hc₁ with (rfl | rfl) | rfl
      · exact hc₂ (by decide)
      · exact hplus hc
      · exact hminus hc
    · rintro ⟨-, r, hop⟩
      exact hminus (hop ▸ r.op_mem)

theorem respond_eq_none : respond e = none ↔ e = [] := by
  unfold respond
  constructor
  · intro h
    by_contra hne
    rw [if_neg hne] at h
    split at h
    · exact absurd h (by simp)
    · split at h <;> exact absurd h (by simp)
  · intro h
    rw [if_pos h]

theorem respond_wrongInput_iff :
    respond e = some .wrongInput ↔ e ≠ [] ∧ ¬(Digits e ∨ Accepted e) := by
  rw [← respond_output_iff, ne_eq, ← respond_eq_none]
  cases respond e with
  | none => simp
  | some answer =>
      cases answer with
      | output text => simp
      | wrongInput => simp

/-! ## Lines of the README -/

theorem Reading.Exact.mem {r : Reading line} (h : r.Exact) {c : Char} (hc : c ∈ line) :
    c.isDigit = true ∨ c = ' ' ∨ c = r.op := by
  rw [r.text, h.natural₁, h.natural₂] at hc
  simp only [signText, Bool.false_eq_true, if_false, List.nil_append, List.mem_append,
    List.mem_cons] at hc
  rcases hc with hc | hc | hc | hc | hc | hc | hc
  · exact Or.inr (Or.inl (r.spaces₁ c hc))
  · exact Or.inl (r.digits₁.2 c hc)
  · exact Or.inr (Or.inl (r.spaces₂ c hc))
  · exact Or.inr (Or.inr hc)
  · exact Or.inr (Or.inl (r.spaces₃ c hc))
  · exact Or.inl (r.digits₂.2 c hc)
  · exact Or.inr (Or.inl (h.blank c hc))

/-- Expressions are accepted. -/
theorem IsExpression.accepted (h : IsExpression line) : Accepted line := by
  obtain ⟨r, hr⟩ := h
  refine ⟨?_, r, ?_⟩
  · rw [isChar, List.any_eq_false]
    intro c hc
    rcases hr.mem hc with hd | rfl | rfl
    · simp [hd]
    · decide
    · rcases r.sign with h | h <;> rw [h] <;> decide
  · unfold signOf
    split
    · rename_i hplus
      rcases hr.mem hplus with hd | hsp | hop
      · exact absurd hd (by decide)
      · exact absurd hsp (by decide)
      · exact hop.symm
    · rename_i hplus
      exact r.sign.resolve_left fun hop => hplus (hop ▸ r.op_mem)

theorem Accepted.not_digits (h : Accepted line) : ¬Digits line := by
  obtain ⟨-, r, -⟩ := h
  intro hd
  have hop := hd.2 r.op r.op_mem
  rcases r.sign with heq | heq <;> rw [heq] at hop <;> exact absurd hop (by decide)

/-- A NUL is in no line of the README. -/
theorem not_number_or_expression (h : '\x00' ∈ line) : ¬(Digits line ∨ IsExpression line) := by
  rintro (hd | ⟨r, hr⟩)
  · exact hd.not_mem (by decide) h
  · rcases hr.mem h with hd | hsp | hop
    · exact absurd hd (by decide)
    · exact absurd hsp (by decide)
    · rcases r.sign with heq | heq <;> rw [heq] at hop <;> exact absurd hop (by decide)

/-! ## One line of the loop -/

theorem takeLine_line {tail : List Char} (htail : tail = [] ∨ ∃ rest, tail = '\n' :: rest) :
    ∀ (room : ℕ) (line : List Char), line.length < room → '\n' ∉ line →
      ∃ newline rest, takeLine room (line ++ tail) = (line ++ newline, rest) ∧
        (newline = [] ∨ newline = ['\n']) := by
  intro room
  induction room with
  | zero => exact fun line hlen => absurd hlen (Nat.not_lt_zero _)
  | succ room ih =>
    intro line hlen hline
    cases line with
    | nil =>
      rcases htail with rfl | ⟨rest, rfl⟩
      · exact ⟨[], [], rfl, Or.inl rfl⟩
      · exact ⟨['\n'], rest, rfl, Or.inr rfl⟩
    | cons c line =>
      have hc : c ≠ '\n' := fun h => hline (h ▸ List.mem_cons_self)
      obtain ⟨newline, rest, htake, hnewline⟩ := ih line (Nat.lt_of_succ_lt_succ hlen)
        fun h => hline (List.mem_cons_of_mem _ h)
      refine ⟨newline, rest, ?_, hnewline⟩
      rw [List.cons_append, takeLine, if_neg hc, htake]
      rfl

/-- The part of a line in front of its first NUL. -/
def visible (line : List Char) : List Char :=
  line.takeWhile fun c => c != '\x00'

theorem visible_of_not_mem (h : '\x00' ∉ line) : visible line = line := by
  rw [visible, List.takeWhile_eq_self_iff]
  intro c hc
  rw [bne_iff_ne]
  rintro rfl
  exact h hc

theorem chomp_line {newline : List Char} (hline : '\n' ∉ line)
    (hnewline : newline = [] ∨ newline = ['\n']) :
    chomp (line ++ newline) = visible line := by
  induction line with
  | nil => rcases hnewline with rfl | rfl <;> rfl
  | cons c line ih =>
      have hc : c ≠ '\n' := fun h => hline (h ▸ List.mem_cons_self)
      have hrest := ih fun h => hline (List.mem_cons_of_mem _ h)
      unfold chomp visible at hrest ⊢
      rw [List.cons_append, List.takeWhile_cons, List.takeWhile_cons, hrest]
      simp [hc]

/-- The loop answers a line by its visible part. -/
theorem calculator_head (hlen : line.length ≤ 98) (hline : '\n' ∉ line) {tail : List Char}
    (htail : tail = [] ∨ ∃ rest, tail = '\n' :: rest) :
    (calculator (line ++ tail)).head? = respond (visible line) := by
  obtain ⟨newline, rest, htake, hnewline⟩ :=
    takeLine_line htail 99 line (Nat.lt_succ_of_le hlen) hline
  unfold calculator
  rw [mainLoop, fgets]
  by_cases hnil : line ++ tail = []
  · rw [if_pos hnil, (List.append_eq_nil_iff.mp hnil).1]
    rfl
  · rw [if_neg hnil, htake]
    simp only [chomp_line hline hnewline]
    cases respond (visible line) <;> rfl

/-! ## The grammar -/

/-- The answer to a line is the one the README asks for. -/
structure AnswersGrammar (line : List Char) (answer : Option Answer) : Prop where
  output_iff : (∃ text, answer = some (.output text)) ↔ Digits line ∨ IsExpression line
  reversed : Digits line → answer = some (.output line.reverse)
  rejected : line ≠ [] → ¬(Digits line ∨ IsExpression line) → answer = some .wrongInput

/-- Lines that are answered against the README. A line with a NUL is judged by
the part in front of it, and ends the loop when there is none. Another line
goes wrong when it reads through although an operand carries a minus sign of
its own or something other than spaces follows the second operand. -/
def Misread (line : List Char) : Prop :=
  if '\x00' ∈ line then
    visible line = [] ∨ Digits (visible line) ∨ Accepted (visible line)
  else
    isChar line = false ∧ ∃ r : Reading line, r.op = signOf line ∧
      (r.minus₁ = true ∨ r.minus₂ = true ∨ ¬Spaces r.rest)

theorem Reading.not_exact_iff (r : Reading line) :
    ¬r.Exact ↔ r.minus₁ = true ∨ r.minus₂ = true ∨ ¬Spaces r.rest := by
  constructor
  · intro h
    by_contra hnot
    rw [not_or, not_or, Bool.not_eq_true, Bool.not_eq_true, not_not] at hnot
    exact h ⟨hnot.1, hnot.2.1, hnot.2.2⟩
  · rintro (h | h | h) hexact
    · rw [hexact.natural₁] at h
      exact absurd h (by decide)
    · rw [hexact.natural₂] at h
      exact absurd h (by decide)
    · exact h hexact.blank

/-- Without a NUL, a line is misread when it is accepted but no expression. -/
theorem misread_iff (h : '\x00' ∉ line) :
    Misread line ↔ Accepted line ∧ ¬IsExpression line := by
  rw [Misread, if_neg h]
  constructor
  · rintro ⟨hchar, r, hop, hslack⟩
    refine ⟨⟨hchar, r, hop⟩, ?_⟩
    rintro ⟨r', hr'⟩
    exact r.not_exact_iff.mpr hslack hr'.of_unique
  · rintro ⟨⟨hchar, r, hop⟩, hnot⟩
    exact ⟨hchar, r, hop, r.not_exact_iff.mp fun hr => hnot ⟨r, hr⟩⟩

theorem answersGrammar_respond : AnswersGrammar line (respond (visible line)) ↔
    ¬Misread line := by
  by_cases hnul : '\x00' ∈ line
  · have hout := not_number_or_expression hnul
    have hne : line ≠ [] := List.ne_nil_of_mem hnul
    rw [Misread, if_pos hnul]
    constructor
    · intro h
      have hwrong := respond_wrongInput_iff.mp (h.rejected hne hout)
      rintro (hnil | hacc)
      · exact hwrong.1 hnil
      · exact hwrong.2 hacc
    · intro h
      rw [not_or] at h
      have hwrong := respond_wrongInput_iff.mpr h
      refine ⟨iff_of_false ?_ hout, fun hd => absurd (Or.inl hd) hout, fun _ _ => hwrong⟩
      rw [hwrong]
      simp
  · rw [misread_iff hnul, visible_of_not_mem hnul]
    constructor
    · rintro h ⟨hacc, hnot⟩
      rcases h.output_iff.mp (respond_output_iff.mpr (Or.inr hacc)) with hd | hexpr
      · exact hacc.not_digits hd
      · exact hnot hexpr
    · intro h
      have hgrammar : Digits line ∨ Accepted line ↔ Digits line ∨ IsExpression line := by
        refine or_congr_right ⟨fun hacc => ?_, fun hexpr => hexpr.accepted⟩
        by_contra hnot
        exact h ⟨hacc, hnot⟩
      refine ⟨respond_output_iff.trans hgrammar, respond_digits, fun hne hout => ?_⟩
      rw [respond_wrongInput_iff, hgrammar]
      exact ⟨hne, hout⟩

/-- **The calculator accepts its grammar exactly on the lines that it does not
misread.** -/
theorem calculator_grammar_iff (hlen : line.length ≤ 98) (hline : '\n' ∉ line)
    {tail : List Char} (htail : tail = [] ∨ ∃ rest, tail = '\n' :: rest) :
    AnswersGrammar line (calculator (line ++ tail)).head? ↔ ¬Misread line := by
  rw [calculator_head hlen hline htail]
  exact answersGrammar_respond

/-- The line `12 - 5`. -/
theorem calculator_grammar_iff_difference :
    AnswersGrammar "12 - 5".toList (calculator ("12 - 5".toList ++ ['\n'])).head? := by
  refine (calculator_grammar_iff (by decide) (by decide) (Or.inr ⟨[], rfl⟩)).mpr ?_
  rw [misread_iff (by decide)]
  rintro ⟨-, hnot⟩
  refine hnot ⟨⟨[], false, ['1', '2'], [' '], '-', [' '], false, ['5'], [], by simp [signText],
    by simp [Spaces], by simp [Digits], by simp [Spaces], Or.inr rfl, by simp [Spaces],
    by simp [Digits], by simp [NoDigitHead]⟩, rfl, rfl, by simp [Spaces]⟩

/-- The line `1+2+3` gets an output, although it is no expression. -/
theorem not_answersGrammar_chain :
    ¬AnswersGrammar "1+2+3".toList (calculator ("1+2+3".toList ++ ['\n'])).head? := by
  rw [calculator_head (by decide) (by decide) (Or.inr ⟨[], rfl⟩), answersGrammar_respond,
    not_not, Misread, if_neg (by decide)]
  exact ⟨by decide, ⟨[], false, ['1'], [], '+', [], false, ['2'], ['+', '3'],
    by simp [signText], by simp [Spaces], by simp [Digits], by simp [Spaces], Or.inl rfl,
    by simp [Spaces], by simp [Digits], by simp [NoDigitHead]⟩,
    by simp [signOf], Or.inr (Or.inr (by simp [Spaces]))⟩

end OS2023.Calc
