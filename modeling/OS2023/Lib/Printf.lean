import OS2023.Lib.Scan
import Mathlib.Algebra.Ring.Int.Defs
import Mathlib.Algebra.Ring.Nat
import Mathlib.Tactic.NormNum

/-!
# Formatted output

Field widths of the `printf` family. A text that is longer than its field is
written in full, so that a table keeps its columns only as long as every entry
fits. Rows of fixed width are found by their position, `window`.
-/

namespace OS2023.Lib

/-! ## Fields -/

/-- `%-*s`: on the left of its field. -/
def padRight (width : ℕ) (t : List Char) : List Char :=
  t ++ List.replicate (width - t.length) ' '

/-- `%*s`: on the right of its field. -/
def padLeft (width : ℕ) (t : List Char) : List Char :=
  List.replicate (width - t.length) ' ' ++ t

/-- `%0*u`: digits with zeros in front. -/
def padZeros (width n : ℕ) : List Char :=
  List.replicate (width - (Nat.toDigits 10 n).length) '0' ++ Nat.toDigits 10 n

/-- `%0*d`: the sign counts. -/
def padInt (width : ℕ) (v : Int) : List Char :=
  if v < 0 then '-' :: padZeros (width - 1) v.natAbs else padZeros width v.natAbs

variable {width : ℕ} {t : List Char}

theorem length_padRight (h : t.length ≤ width) : (padRight width t).length = width := by
  rw [padRight, List.length_append, List.length_replicate]
  omega

theorem length_padZeros {n : ℕ} (hwidth : 0 < width) (hn : n < 10 ^ width) :
    (padZeros width n).length = width := by
  have hle : (Nat.toDigits 10 n).length ≤ width :=
    (Nat.length_toDigits_le_iff (by decide) hwidth).mpr hn
  rw [padZeros, List.length_append, List.length_replicate]
  omega

/-- How many characters an integer takes. -/
theorem length_toString_le {v : Int} {k : ℕ} (hk : 0 < k) (hlo : -10 ^ k < v)
    (hhi : v < 10 ^ k) : (toString v).toList.length ≤ k + 1 := by
  have hdigits : (Nat.toDigits 10 v.natAbs).length ≤ k := by
    rw [Nat.length_toDigits_le_iff (by decide) hk]
    have hcast : ((10 ^ k : ℕ) : Int) = 10 ^ k := by push_cast; rfl
    omega
  rw [toList_toString, List.length_append, signText]
  split
  · rw [List.length_singleton]
    omega
  · rw [List.length_nil]
    omega

/-- A natural number takes no sign. -/
theorem length_toString_natCast_le {n k : ℕ} (hk : 0 < k) (hhi : n < 10 ^ k) :
    (toString (n : Int)).toList.length ≤ k := by
  rw [toList_toString, decide_eq_false (Int.not_lt.mpr (Int.natCast_nonneg n)),
    Int.natAbs_natCast]
  exact (Nat.length_toDigits_le_iff (by decide) hk).mpr hhi

/-- **A number is read back from its field.** -/
theorem scanInt_padRight {signs : List Char} (hsigns : ∀ c ∈ signs, c.isDigit = false)
    (hminus : '-' ∈ signs) (width : ℕ) (v : Int) :
    ∃ rest, scanInt signs (padRight width (toString v).toList) = .value v rest := by
  refine ⟨List.replicate (width - (toString v).toList.length) ' ', ?_⟩
  refine @scanInt_toString signs [] _ hsigns hminus (by simp) ?_ v
  intro c hc
  rw [List.mem_of_mem_head? hc |> List.eq_of_mem_replicate]
  rfl

/-- Leading zeros do not count. -/
theorem ofDigitChars_padZeros (width n : ℕ) : Nat.ofDigitChars 10 (padZeros width n) 0 = n := by
  have hzeros : ∀ k, Nat.ofDigitChars 10 (List.replicate k '0') 0 = 0 := by
    intro k
    induction k with
    | zero => rfl
    | succ k ih =>
        rw [List.replicate_succ, Nat.ofDigitChars_cons]
        exact ih
  rw [padZeros, Nat.ofDigitChars_append, hzeros, Nat.ofDigitChars_ten_toDigits]

theorem isDigit_of_mem_padZeros {n : ℕ} {c : Char} (hc : c ∈ padZeros width n) :
    c.isDigit = true := by
  rcases List.mem_append.mp hc with hc | hc
  · rw [List.eq_of_mem_replicate hc]
    rfl
  · exact isDigit_of_mem_toDigits hc

/-- **A number with leading zeros is read back.** -/
theorem scanInt_padZeros {signs s : List Char} (hsigns : ∀ c ∈ signs, c.isDigit = false)
    (hs : NoDigitHead s) (width n : ℕ) :
    scanInt signs (padZeros width n ++ s) = .value n s := by
  have hne : padZeros width n ≠ [] := fun h =>
    Nat.toDigits_ne_nil (List.append_eq_nil_iff.mp h).2
  have hscan := @scanInt_digits signs [] _ s hsigns (by simp) hne
    (fun c hc => isDigit_of_mem_padZeros hc) hs
  rw [ofDigitChars_padZeros] at hscan
  exact hscan

theorem scanInt_padInt {signs s : List Char} (hsigns : ∀ c ∈ signs, c.isDigit = false)
    (hminus : '-' ∈ signs) (hs : NoDigitHead s) (width : ℕ) (v : Int) :
    scanInt signs (padInt width v ++ s) = .value v s := by
  unfold padInt
  split
  · rename_i hneg
    have hne : padZeros (width - 1) v.natAbs ≠ [] := fun h =>
      Nat.toDigits_ne_nil (List.append_eq_nil_iff.mp h).2
    have hscan := @scanInt_negative signs [] _ s hminus (by simp) hne
      (fun c hc => isDigit_of_mem_padZeros hc) hs
    rw [ofDigitChars_padZeros] at hscan
    refine hscan.trans ?_
    congr 1
    omega
  · rename_i hpos
    rw [scanInt_padZeros hsigns hs]
    congr 1
    omega

/-- A text on the right of its field stands behind spaces. -/
theorem skipSpaces_padLeft {c : Char} (hc : isSpaceChar c = false) (width : ℕ)
    (t s : List Char) : skipSpaces (padLeft width (c :: t) ++ s) = c :: t ++ s := by
  rw [padLeft, List.append_assoc, skipSpaces_append]
  · exact skipSpaces_cons hc _
  · intro x hx
    rw [List.eq_of_mem_replicate hx]
    rfl

/-! ## Tables -/

/-- The `n` characters from place `start` on. -/
def window (start n : ℕ) (s : List Char) : List Char :=
  (s.drop start).take n

theorem window_append {pre t : List Char} {start n : ℕ} (hstart : pre.length = start)
    (hn : t.length = n) (post : List Char) : window start n (pre ++ (t ++ post)) = t := by
  subst hstart hn
  rw [window, List.drop_left, List.take_left]

variable {α : Type*} {write : α → List Char} {rows : List α}

theorem length_table (hwidth : ∀ row ∈ rows, (write row).length = width) :
    (rows.flatMap write).length = width * rows.length := by
  induction rows with
  | nil => rfl
  | cons row rows ih =>
      rw [List.flatMap_cons, List.length_append, hwidth row List.mem_cons_self,
        ih fun r hr => hwidth r (List.mem_cons_of_mem _ hr), List.length_cons, Nat.mul_succ,
        Nat.add_comm]

/-- **Rows of one width are found by their position.** -/
theorem window_table (hwidth : ∀ row ∈ rows, (write row).length = width)
    (post : List Char) {i : ℕ} (hi : i < rows.length) :
    window (width * i) width (rows.flatMap write ++ post) = write rows[i] := by
  have hsplit : rows = rows.take i ++ rows[i] :: rows.drop (i + 1) := by
    rw [List.getElem_cons_drop, List.take_append_drop]
  have htext : rows.flatMap write ++ post = (rows.take i).flatMap write ++
      (write rows[i] ++ ((rows.drop (i + 1)).flatMap write ++ post)) := by
    conv_lhs => rw [hsplit]
    simp only [List.flatMap_append, List.flatMap_cons, List.append_assoc]
  rw [htext]
  refine window_append ?_ (hwidth _ (List.getElem_mem hi)) _
  rw [length_table fun row hrow => hwidth row (List.mem_of_mem_take hrow), List.length_take,
    min_eq_left hi.le]

end OS2023.Lib
