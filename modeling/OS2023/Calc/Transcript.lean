import OS2023.Calc.Arithmetic
import OS2023.Calc.Framing

/-!
# What the calculator prints

The whole program as a relation between the text that is typed and the answers:
`Pieces` cuts the text where `fgets` does, `Means` says what the answer to a piece is,
and the pieces are answered in order until one is empty. Nothing is asked of the text.
-/

namespace OS2023.Calc

open OS2023.Lib

variable {line rest stdin : List Char} {ps : List (List Char)} {answer : Answer}

/-! ## The answer to a line -/

/-- The operation opposite to the sign. -/
def Reading.result (r : Reading line) : Int :=
  if r.op = '+' then operand r.minus₁ r.ds₁ - operand r.minus₂ r.ds₂
  else operand r.minus₁ r.ds₁ + operand r.minus₂ r.ds₂

/-- **The meaning of a line**: a number is reversed, a line that reads as two numbers and
a sign is computed, and any other line is wrong. -/
inductive Means (line : List Char) : Answer → Prop where
  | reversed (h : Digits line) : Means line (.output line.reverse)
  | computed (r : Reading line) (h : isChar line = false) (hop : r.op = signOf line) :
      Means line (.output (showLong (wrap64 r.result)))
  | rejected (hne : line ≠ []) (h : ¬(Digits line ∨ Accepted line)) : Means line .wrongInput

theorem respond_reading (r : Reading line) (h : isChar line = false)
    (hop : r.op = signOf line) :
    respond line = some (.output (showLong (wrap64 r.result))) := by
  rw [respond, if_neg (List.ne_nil_of_mem r.op_mem), h]
  by_cases hplus : '+' ∈ line
  · have hsign : r.op = '+' := hop.trans (if_pos hplus)
    have hcall := r.arithmeticCall fun a b => a - b
    rw [hsign, wrap64_sub] at hcall
    rw [if_pos hplus, Reading.result, if_pos hsign, sysPlusRevert]
    simp only [Bool.not_false, if_true, hcall, answerOf]
  · have hsign : r.op = '-' := hop.trans (if_neg hplus)
    have hminus : '-' ∈ line := hsign ▸ r.op_mem
    have hcall := r.arithmeticCall fun a b => a + b
    rw [hsign, wrap64_add] at hcall
    have hresult : r.result = operand r.minus₁ r.ds₁ + operand r.minus₂ r.ds₂ := by
      rw [Reading.result, if_neg]
      rw [hsign]
      decide
    rw [if_neg hplus, if_pos hminus, sysMinusRevert, hresult]
    simp only [Bool.not_false, if_true, hcall, answerOf]

/-- **The body of the loop gives a line its meaning.** -/
theorem means_iff : Means line answer ↔ respond line = some answer := by
  constructor
  · intro hmeans
    cases hmeans with
    | reversed h => exact respond_digits h
    | computed r h hop => exact respond_reading r h hop
    | rejected hne h => exact respond_wrongInput_iff.mpr ⟨hne, h⟩
  · intro hrespond
    cases answer with
    | wrongInput =>
        obtain ⟨hne, h⟩ := respond_wrongInput_iff.mp hrespond
        exact .rejected hne h
    | output text =>
        rcases respond_output_iff.mp ⟨text, hrespond⟩ with hdigits | ⟨hchar, r, hop⟩
        · rw [respond_digits hdigits] at hrespond
          obtain rfl := Answer.output.inj (Option.some.inj hrespond)
          exact .reversed hdigits
        · rw [respond_reading r hchar hop] at hrespond
          obtain rfl := Answer.output.inj (Option.some.inj hrespond)
          exact .computed r hchar hop

/-! ## Where the text is cut -/

/-- The text as pieces of at most 98 characters that end with a newline, pieces of 99 that
are cut, and a last piece without a newline. -/
inductive Pieces : List Char → List (List Char) → Prop where
  | nil : Pieces [] []
  | line {line rest : List Char} {ps : List (List Char)} (hlen : line.length ≤ 98)
      (hline : '\n' ∉ line) (h : Pieces rest ps) : Pieces (line ++ '\n' :: rest) (line :: ps)
  | cut {line rest : List Char} {ps : List (List Char)} (hlen : line.length = 99)
      (hline : '\n' ∉ line) (h : Pieces rest ps) : Pieces (line ++ rest) (line :: ps)
  | last {line : List Char} (hne : line ≠ []) (hlen : line.length ≤ 98) (hline : '\n' ∉ line) :
      Pieces line [line]

theorem takeLine_of_end {room : ℕ} (hlen : line.length ≤ room) (hline : '\n' ∉ line) :
    takeLine room line = (line, []) := by
  induction line generalizing room with
  | nil =>
      cases room with
      | zero => rfl
      | succ room => rfl
  | cons c line ih =>
      cases room with
      | zero => exact absurd hlen (Nat.not_succ_le_zero _)
      | succ room =>
          have hc : c ≠ '\n' := fun h => hline (h ▸ List.mem_cons_self)
          rw [takeLine, if_neg hc, ih (Nat.le_of_succ_le_succ hlen)
            fun h => hline (List.mem_cons_of_mem _ h)]

/-- What `fgets` reads of a text is its first piece, with the newline if it has one. -/
theorem Pieces.fgets {p : List Char} (h : Pieces stdin (p :: ps)) :
    ∃ newline rest, Calc.fgets stdin = some (p ++ newline, rest) ∧ '\n' ∉ p ∧
      (newline = [] ∨ newline = ['\n']) ∧ rest.length < stdin.length ∧ Pieces rest ps := by
  cases h with
  | line hlen hline h =>
      refine ⟨['\n'], _, fgets_of_lt (Nat.lt_succ_of_le hlen) hline, hline, .inr rfl, ?_, h⟩
      rw [List.length_append, List.length_cons]
      omega
  | @cut _ rest _ hlen hline h =>
      have hne : p ++ rest ≠ [] := by
        intro hnil
        rw [(List.append_eq_nil_iff.mp hnil).1] at hlen
        cases hlen
      refine ⟨[], rest, ?_, hline, .inl rfl, ?_, h⟩
      · rw [Calc.fgets, if_neg hne, takeLine_of_le hlen.ge hline, List.append_nil,
          List.take_of_length_le hlen.le, List.drop_of_length_le hlen.le, List.nil_append]
      · rw [List.length_append]
        omega
  | last hne hlen hline =>
      refine ⟨[], [], ?_, hline, .inl rfl, List.length_pos_of_ne_nil hne, .nil⟩
      rw [Calc.fgets, if_neg hne, takeLine_of_end (Nat.le_succ_of_le hlen) hline,
        List.append_nil]

/-- A text is cut in one way only. -/
theorem Pieces.unique {qs : List (List Char)} (hp : Pieces stdin ps) (hq : Pieces stdin qs) :
    qs = ps := by
  induction ps generalizing stdin qs with
  | nil =>
      cases hp
      cases qs with
      | nil => rfl
      | cons q qs =>
          obtain ⟨_, _, hread, -⟩ := hq.fgets
          cases hread
  | cons p ps ih =>
      obtain ⟨newline, rest, hread, hline, hnewline, -, hrest⟩ := hp.fgets
      cases qs with
      | nil =>
          cases hq
          cases hread
      | cons q qs =>
          obtain ⟨newline', rest', hread', hline', hnewline', -, hrest'⟩ := hq.fgets
          obtain ⟨hinput, rfl⟩ := Prod.mk.inj (Option.some.inj (hread.symm.trans hread'))
          have htake : ∀ {p newline : List Char}, '\n' ∉ p → newline = [] ∨ newline = ['\n'] →
              (p ++ newline).takeWhile (fun c => c != '\n') = p := by
            intro p newline hp hnewline
            rw [List.takeWhile_append_of_pos]
            · rcases hnewline with rfl | rfl
              · exact List.append_nil p
              · exact List.append_nil p
            · intro c hc
              rw [bne_iff_ne]
              rintro rfl
              exact hp hc
          have hhead : q = p := by
            rw [← htake hline hnewline, hinput, htake hline' hnewline']
          rw [hhead, ih hrest hrest']

/-- Every text is cut somehow. -/
theorem exists_pieces (stdin : List Char) : ∃ ps, Pieces stdin ps := by
  -- on the length of the text
  induction hn : stdin.length using Nat.strongRecOn generalizing stdin with
  | _ n ih =>
      subst hn
      obtain ⟨line, tail, rfl, hline, htail⟩ : ∃ line tail, stdin = line ++ tail ∧
          '\n' ∉ line ∧ (tail = [] ∨ ∃ rest, tail = '\n' :: rest) := by
        refine ⟨stdin.takeWhile (fun c => c != '\n'), stdin.dropWhile (fun c => c != '\n'),
          (List.takeWhile_append_dropWhile).symm, stop_not_mem_takeWhile '\n' stdin, ?_⟩
        cases hdrop : stdin.dropWhile (fun c => c != '\n') with
        | nil => exact .inl rfl
        | cons c rest =>
            have hc := List.head_dropWhile_not (fun c => c != '\n') (l := stdin) (by simp [hdrop])
            simp only [hdrop, List.head_cons, bne_eq_false_iff_eq] at hc
            exact .inr ⟨rest, by rw [hc]⟩
      rcases Nat.lt_or_ge line.length 99 with hlt | hge
      · rcases htail with rfl | ⟨rest, rfl⟩
        · rw [List.append_nil]
          by_cases hne : line = []
          · exact ⟨[], hne ▸ .nil⟩
          · exact ⟨[line], .last hne (Nat.le_of_lt_succ hlt) hline⟩
        · obtain ⟨ps, hps⟩ := ih rest.length (by simp; omega) rest rfl
          exact ⟨line :: ps, .line (Nat.le_of_lt_succ hlt) hline hps⟩
      · obtain ⟨ps, hps⟩ := ih (line.drop 99 ++ tail).length (by simp; omega) _ rfl
        have hcut : Pieces (line.take 99 ++ (line.drop 99 ++ tail)) (line.take 99 :: ps) :=
          .cut (List.length_take_of_le hge) (fun hmem => hline (List.mem_of_mem_take hmem)) hps
        rw [← List.append_assoc, List.take_append_drop] at hcut
        exact ⟨_, hcut⟩

/-! ## The transcript -/

/-- The strings that are answered: those in front of the first empty one. A NUL hides the
rest of its piece. -/
def answered (ps : List (List Char)) : List (List Char) :=
  (ps.map visible).takeWhile fun input => input ≠ []

theorem mainLoop_pieces (h : Pieces stdin ps) (fuel : ℕ) (hfuel : stdin.length < fuel) :
    List.Forall₂ Means (answered ps) (mainLoop fuel stdin) := by
  induction ps generalizing stdin fuel with
  | nil =>
      cases h
      cases fuel with
      | zero => exact .nil
      | succ fuel => exact .nil
  | cons p ps ih =>
      obtain ⟨newline, rest, hread, hline, hnewline, hlen, hrest⟩ := h.fgets
      cases fuel with
      | zero => exact absurd hfuel (Nat.not_lt_zero _)
      | succ fuel =>
          have hloop := ih hrest fuel (Nat.lt_of_lt_of_le hlen (Nat.le_of_lt_succ hfuel))
          rw [mainLoop, hread]
          simp only [chomp_line hline hnewline]
          by_cases hnil : visible p = []
          · rw [respond_eq_none.mpr hnil, answered, List.map_cons,
              List.takeWhile_cons_of_neg (by simp [hnil])]
            exact .nil
          · obtain ⟨answer, hanswer⟩ := Option.ne_none_iff_exists'.mp
              fun hnone => hnil (respond_eq_none.mp hnone)
            rw [hanswer, answered, List.map_cons, List.takeWhile_cons_of_pos (by simp [hnil])]
            exact .cons (means_iff.mpr hanswer) hloop

/-- **The program**: for every text there is one way to cut it, and the answers are the
meanings of its pieces, in order, up to the first empty one. -/
theorem calculator_exact (stdin : List Char) : ∃ ps, (∀ qs, Pieces stdin qs ↔ qs = ps) ∧
    ∀ answers, calculator stdin = answers ↔ List.Forall₂ Means (answered ps) answers := by
  obtain ⟨ps, hps⟩ := exists_pieces stdin
  have hmeans := mainLoop_pieces hps _ (Nat.lt_succ_self _)
  refine ⟨ps, fun qs => ⟨hps.unique, fun h => h ▸ hps⟩, fun answers => ⟨?_, fun h => ?_⟩⟩
  · rintro rfl
    exact hmeans
  · have hunique : Relator.RightUnique Means := by
      intro line a b ha hb
      rw [means_iff] at ha hb
      exact Option.some.inj (ha.symm.trans hb)
    exact List.right_unique_forall₂' hunique hmeans h

/-- A number, an expression with a sign of its own, and a word. -/
example : calculator "120\n7 - -2\nab\n".toList =
    [.output "021".toList, .output "5".toList, .wrongInput] := by
  decide +kernel

end OS2023.Calc
