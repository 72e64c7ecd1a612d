import OS2023.Lib.Printf
import OS2023.Paging.Program

/-!
# The output file

`main` of `4/as4.c` writes one line for each reference in columns of ten
characters, under a line of titles, and a closing line with the total. A number
of more than ten characters would break the columns; none that a run prints has
more. So the file is an array of lines of 61 characters, and what a run has
computed is read back from the text.
-/

namespace OS2023.Paging

open OS2023.Lib

variable {F P N : ℕ}

/-! ## Text -/

/-- `fprintf(outputFile, "%-10d", v)`. -/
def columnText (v : Int) : List Char :=
  padRight 10 (toString v).toList

def titleText : List Char :=
  padRight 10 "No.".toList ++ padRight 10 "V.A.".toList ++ padRight 10 "Page No.".toList ++
    padRight 10 "Frame No.".toList ++ padRight 10 "P.A.".toList ++ "Page Fault\n".toList

def rowText (row : Row) : List Char :=
  columnText row.no ++ columnText row.virtualAddress ++ columnText row.pageNum ++
    columnText row.frameNum ++ columnText row.physicalAddress ++
    padRight 10 [row.pageFaultChar] ++ ['\n']

def totalLabel : List Char :=
  "Total Number of Page Faults: ".toList

/-- The closing line, when the loop has come to index 4999. -/
def totalText : Option ℕ → List Char
  | none => []
  | some total => totalLabel ++ (toString (total : Int)).toList ++ ['\n']

/-- The text of the output file. -/
def outputText (m : MainState F P N) : List Char :=
  titleText ++ (m.rows.flatMap rowText ++ totalText m.total)

/-! ## Reading back -/

/-- The number at place `start`. -/
def numberAt (start : ℕ) (text : List Char) : Option Int :=
  match scanInt ['+', '-'] (text.drop start) with
  | .value v _ => some v
  | _ => none

/-- The number in column `j` of a line. -/
def columnAt (j : ℕ) (text : List Char) : Option Int :=
  numberAt 0 (window (10 * j) 10 text)

def parseRow (text : List Char) : Option Row := do
  let no ← columnAt 0 text
  let virtualAddress ← columnAt 1 text
  let pageNum ← columnAt 2 text
  let frameNum ← columnAt 3 text
  let physicalAddress ← columnAt 4 text
  let pageFaultChar ← text[50]?
  some ⟨no.toNat, virtualAddress, pageNum, frameNum, physicalAddress, pageFaultChar⟩

/-- The line of reference `i`, by its position in the file. -/
def readRow (i : ℕ) (text : List Char) : Option Row :=
  parseRow (window (61 * (i + 1)) 61 text)

/-- The number in the closing line, behind the lines of `n` references. -/
def readTotal (n : ℕ) (text : List Char) : Option Int :=
  numberAt (61 * (n + 1) + totalLabel.length) text

/-- Every number of the row fits its column. -/
structure Row.Fits (row : Row) : Prop where
  no : row.no < 10 ^ 10
  fields : ∀ v ∈ [row.virtualAddress, row.pageNum, row.frameNum, row.physicalAddress],
    -10 ^ 9 < v ∧ v < 10 ^ 9

theorem length_columnText {v : Int} (hlo : -10 ^ 9 < v) (hhi : v < 10 ^ 9) :
    (columnText v).length = 10 :=
  length_padRight (length_toString_le (by decide) hlo hhi)

theorem Row.Fits.columns {row : Row} (h : row.Fits) :
    (columnText row.no).length = 10 ∧ (columnText row.virtualAddress).length = 10 ∧
      (columnText row.pageNum).length = 10 ∧ (columnText row.frameNum).length = 10 ∧
      (columnText row.physicalAddress).length = 10 := by
  have hfield : ∀ v ∈ [row.virtualAddress, row.pageNum, row.frameNum, row.physicalAddress],
      (columnText v).length = 10 := fun v hv =>
    length_columnText (h.fields v hv).1 (h.fields v hv).2
  exact ⟨length_padRight (length_toString_natCast_le (by decide) h.no), hfield _ (by simp),
    hfield _ (by simp), hfield _ (by simp), hfield _ (by simp)⟩

theorem length_rowText {row : Row} (h : row.Fits) : (rowText row).length = 61 := by
  obtain ⟨h₀, h₁, h₂, h₃, h₄⟩ := h.columns
  have hchar : (padRight 10 [row.pageFaultChar]).length = 10 := length_padRight (by simp)
  simp only [rowText, List.length_append, h₀, h₁, h₂, h₃, h₄, hchar, List.length_singleton]

/-- A column is read back from where it stands. -/
theorem columnAt_append {pre post : List Char} {j : ℕ} {v : Int} (hpre : pre.length = 10 * j)
    (hv : (columnText v).length = 10) :
    columnAt j (pre ++ (columnText v ++ post)) = some v := by
  obtain ⟨rest, hscan⟩ := @scanInt_padRight ['+', '-'] (by simp) (by decide) 10 v
  rw [columnAt, window_append hpre hv, numberAt, List.drop_zero, columnText, hscan]

/-- **A line is read back.** -/
theorem parseRow_rowText {row : Row} (h : row.Fits) : parseRow (rowText row) = some row := by
  obtain ⟨h₀, h₁, h₂, h₃, h₄⟩ := h.columns
  have hno : columnAt 0 (rowText row) = some (row.no : Int) := by
    simp only [rowText, List.append_assoc]
    exact @columnAt_append [] _ 0 _ rfl h₀
  have haddress : columnAt 1 (rowText row) = some row.virtualAddress := by
    simp only [rowText, List.append_assoc]
    exact columnAt_append h₀ h₁
  have hpage : columnAt 2 (rowText row) = some row.pageNum := by
    rw [rowText, List.append_assoc, List.append_assoc, List.append_assoc, List.append_assoc]
    exact columnAt_append (by rw [List.length_append, h₀, h₁]) h₂
  have hframe : columnAt 3 (rowText row) = some row.frameNum := by
    rw [rowText, List.append_assoc, List.append_assoc, List.append_assoc]
    exact columnAt_append (by simp only [List.length_append, h₀, h₁, h₂]) h₃
  have hphysical : columnAt 4 (rowText row) = some row.physicalAddress := by
    rw [rowText, List.append_assoc, List.append_assoc]
    exact columnAt_append (by simp only [List.length_append, h₀, h₁, h₂, h₃]) h₄
  have hchar : (rowText row)[50]? = some row.pageFaultChar := by
    have hpre : (columnText row.no ++ columnText row.virtualAddress ++ columnText row.pageNum ++
        columnText row.frameNum ++ columnText row.physicalAddress).length = 50 := by
      simp only [List.length_append, h₀, h₁, h₂, h₃, h₄]
    rw [rowText, List.append_assoc, List.getElem?_append_right hpre.le, hpre]
    rfl
  unfold parseRow
  rw [hno, haddress, hpage, hframe, hphysical, hchar]
  rfl

variable {m : MainState F P N}

/-- **The file is read back by position.** -/
theorem readRow_outputText (h : ∀ row ∈ m.rows, row.Fits) {i : ℕ} (hi : i < m.rows.length) :
    readRow i (outputText m) = some m.rows[i] := by
  have htitle : titleText.length = 61 := by decide
  have hwindow : window (61 * (i + 1)) 61 (outputText m) =
      window (61 * i) 61 (m.rows.flatMap rowText ++ totalText m.total) := by
    unfold window outputText
    rw [List.drop_append, List.drop_of_length_le (by omega), htitle, List.nil_append,
      show 61 * (i + 1) - 61 = 61 * i by omega]
  rw [readRow, hwindow, window_table (fun row hrow => length_rowText (h row hrow)) _ hi,
    parseRow_rowText (h _ (List.getElem_mem hi))]

theorem length_outputText (h : ∀ row ∈ m.rows, row.Fits) :
    (outputText m).length = 61 * (m.rows.length + 1) + (totalText m.total).length := by
  have htitle : titleText.length = 61 := by decide
  rw [outputText, List.length_append, List.length_append, htitle,
    length_table fun row hrow => length_rowText (h row hrow)]
  omega

theorem readTotal_outputText (h : ∀ row ∈ m.rows, row.Fits) {total : ℕ}
    (htotal : m.total = some total) :
    readTotal m.rows.length (outputText m) = some (total : Int) := by
  have htext : outputText m = (titleText ++ m.rows.flatMap rowText ++ totalLabel) ++
      ((toString (total : Int)).toList ++ ['\n']) := by
    rw [outputText, htotal, totalText]
    simp only [List.append_assoc]
  have hlen : (titleText ++ m.rows.flatMap rowText ++ totalLabel).length =
      61 * (m.rows.length + 1) + totalLabel.length := by
    have htitle : titleText.length = 61 := by decide
    rw [List.length_append, List.length_append, htitle,
      length_table fun row hrow => length_rowText (h row hrow)]
    omega
  have hscan := @scanInt_toString ['+', '-'] [] ['\n'] (by simp) (by decide) (by simp)
    (by simp [NoDigitHead]) (total : Int)
  rw [List.nil_append] at hscan
  rw [readTotal, numberAt, htext, ← hlen, List.drop_left, hscan]

end OS2023.Paging
