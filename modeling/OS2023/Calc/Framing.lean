import OS2023.Calc.Grammar
import Mathlib.Data.List.Forall2

/-!
# How the input is cut into lines

`fgets` has room for 99 characters. A longer line is cut there, and the rest of
it, be it only the newline, is what the next turn of the loop takes for a line.
`session` follows the loop and keeps the strings that it answers and the way it
ends; `Framed` says that these are the lines of the input and its end.
-/

namespace OS2023.Calc

open OS2023.Lib

/-! ## Sessions -/

/-- How the loop ends: `fgets` returns `NULL`, or the line is empty. -/
inductive Stop where
  | endOfInput
  | emptyLine (unread : List Char)
deriving DecidableEq

/-- The input from the end on. -/
def Stop.text : Stop → List Char
  | .endOfInput => []
  | .emptyLine unread => '\n' :: unread

/-- `mainLoop`, with the strings that are answered in place of the answers. -/
def session : ℕ → List Char → List (List Char) × Option Stop
  | 0, _ => ([], none)
  | fuel + 1, stdin =>
      match fgets stdin with
      | none => ([], some .endOfInput)
      | some (input, rest) =>
        if chomp input = [] then ([], some (.emptyLine rest))
        else
          let (inputs, stop) := session fuel rest
          (chomp input :: inputs, stop)

/-- The loop gives one answer to every string of the session. -/
theorem mainLoop_session (fuel : ℕ) (stdin : List Char) :
    List.Forall₂ (fun input answer => respond input = some answer) (session fuel stdin).1
      (mainLoop fuel stdin) := by
  induction fuel generalizing stdin with
  | zero => exact List.Forall₂.nil
  | succ fuel ih =>
      unfold session mainLoop
      cases fgets stdin with
      | none => exact List.Forall₂.nil
      | some r =>
          obtain ⟨input, rest⟩ := r
          dsimp only
          by_cases hnil : chomp input = []
          · rw [if_pos hnil, respond_eq_none.mpr hnil]
            exact List.Forall₂.nil
          · rw [if_neg hnil]
            cases hanswer : respond (chomp input) with
            | none => exact absurd (respond_eq_none.mp hanswer) hnil
            | some answer => exact List.Forall₂.cons hanswer (ih rest)

/-! ## One turn -/

theorem takeLine_of_lt {room : ℕ} {line rest : List Char} (hlen : line.length < room)
    (hline : '\n' ∉ line) :
    takeLine room (line ++ '\n' :: rest) = (line ++ ['\n'], rest) := by
  induction line generalizing room with
  | nil =>
      obtain ⟨room, rfl⟩ := Nat.exists_eq_succ_of_ne_zero (Nat.ne_of_gt hlen)
      rfl
  | cons c line ih =>
      obtain ⟨room, rfl⟩ := Nat.exists_eq_succ_of_ne_zero (Nat.ne_of_gt (Nat.zero_lt_of_lt hlen))
      have hc : c ≠ '\n' := fun h => hline (h ▸ List.mem_cons_self)
      rw [List.cons_append, takeLine, if_neg hc, ih (Nat.lt_of_succ_lt_succ hlen)
        fun h => hline (List.mem_cons_of_mem _ h)]
      rfl

theorem takeLine_of_le {room : ℕ} {line rest : List Char} (hlen : room ≤ line.length)
    (hline : '\n' ∉ line) :
    takeLine room (line ++ rest) = (line.take room, line.drop room ++ rest) := by
  induction room generalizing line with
  | zero => rfl
  | succ room ih =>
      cases line with
      | nil => exact absurd hlen (Nat.not_succ_le_zero room)
      | cons c line =>
          have hc : c ≠ '\n' := fun h => hline (h ▸ List.mem_cons_self)
          rw [List.cons_append, takeLine, if_neg hc, ih (Nat.le_of_succ_le_succ hlen)
            fun h => hline (List.mem_cons_of_mem _ h)]
          rfl

/-- A line that fits is read with its newline. -/
theorem fgets_of_lt {line rest : List Char} (hlen : line.length < 99) (hline : '\n' ∉ line) :
    fgets (line ++ '\n' :: rest) = some (line ++ ['\n'], rest) := by
  rw [fgets, if_neg (by simp), takeLine_of_lt hlen hline]

/-- A longer one is cut. -/
theorem fgets_of_le {line rest : List Char} (hlen : 99 ≤ line.length) (hline : '\n' ∉ line) :
    fgets (line ++ '\n' :: rest) = some (line.take 99, line.drop 99 ++ '\n' :: rest) := by
  rw [fgets, if_neg (by simp), takeLine_of_le hlen hline]

theorem session_of_lt {line rest : List Char} (fuel : ℕ) (hlen : line.length < 99)
    (hline : '\n' ∉ line) (hne : visible line ≠ []) : session (fuel + 1) (line ++ '\n' :: rest) =
      (visible line :: (session fuel rest).1, (session fuel rest).2) := by
  rw [session, fgets_of_lt hlen hline]
  simp only [chomp_line hline (Or.inr rfl), if_neg hne]

/-! ## Lines and sessions -/

/-- The input that consists of `lines` and ends with `stop`. -/
def inputText (lines : List (List Char)) (stop : Stop) : List Char :=
  lines.flatMap (fun line => line ++ ['\n']) ++ stop.text

theorem inputText_cons (line : List Char) (lines : List (List Char)) (stop : Stop) :
    inputText (line :: lines) stop = line ++ '\n' :: inputText lines stop := by
  simp [inputText]

/-- What a line is: not empty, and without a newline inside. -/
def IsLine (line : List Char) : Prop :=
  line ≠ [] ∧ '\n' ∉ line

/-- A line that the buffer takes and a C string can hold. -/
def Fits (line : List Char) : Prop :=
  line.length ≤ 98 ∧ '\x00' ∉ line

/-- An empty line or the end of the input ends the session. -/
theorem session_stop (fuel : ℕ) (stop : Stop) :
    session (fuel + 1) stop.text = ([], some stop) := by
  cases stop with
  | endOfInput => rfl
  | emptyLine unread => rfl

theorem session_of_fits {lines : List (List Char)} (stop : Stop)
    (hlines : ∀ line ∈ lines, IsLine line) (hfits : ∀ line ∈ lines, Fits line) (fuel : ℕ)
    (hfuel : lines.length < fuel) :
    session fuel (inputText lines stop) = (lines, some stop) := by
  induction lines generalizing fuel with
  | nil =>
      obtain ⟨fuel, rfl⟩ := Nat.exists_eq_succ_of_ne_zero (Nat.ne_of_gt hfuel)
      exact session_stop fuel stop
  | cons line lines ih =>
      obtain ⟨fuel, rfl⟩ :=
        Nat.exists_eq_succ_of_ne_zero (Nat.ne_of_gt (Nat.zero_lt_of_lt hfuel))
      obtain ⟨hne, hline⟩ := hlines line List.mem_cons_self
      obtain ⟨hlen, hnul⟩ := hfits line List.mem_cons_self
      have hvisible := visible_of_not_mem hnul
      have hrest := ih (fun l hl => hlines l (List.mem_cons_of_mem _ hl))
        (fun l hl => hfits l (List.mem_cons_of_mem _ hl)) fuel (Nat.lt_of_succ_lt_succ hfuel)
      rw [inputText_cons, session_of_lt fuel (Nat.lt_succ_of_le hlen) hline (by rwa [hvisible]),
        hvisible, hrest]

theorem not_mem_of_visible {line : List Char} (h : visible line = line) : '\x00' ∉ line := by
  intro hmem
  have := List.takeWhile_eq_self_iff.mp h _ hmem
  exact absurd this (by decide)

theorem length_chomp_le (input : List Char) : (chomp input).length ≤ input.length :=
  (List.takeWhile_sublist _).length_le

/-- A cut line is lost: its first 99 characters are not the line, or else its
newline ends the session. -/
theorem session_of_le {line : List Char} {lines : List (List Char)} {stop : Stop} {fuel : ℕ}
    (hlen : 99 ≤ line.length) (hline : '\n' ∉ line) :
    session fuel (line ++ '\n' :: inputText lines stop) ≠ (line :: lines, some stop) := by
  intro h
  cases fuel with
  | zero => exact absurd (congrArg Prod.fst h) (by simp [session])
  | succ fuel =>
      rw [session, fgets_of_le hlen hline] at h
      dsimp only at h
      split at h
      · exact absurd (congrArg Prod.fst h) (by simp)
      · simp only [Prod.mk.injEq, List.cons.injEq] at h
        obtain ⟨⟨hfirst, hrest⟩, hstop⟩ := h
        -- the line is its own first 99 characters, so only its newline is left
        have hle := (length_chomp_le _).trans (List.length_take_le 99 line)
        rw [hfirst] at hle
        rw [List.drop_of_length_le hle, List.nil_append] at hrest hstop
        cases fuel with
        | zero => exact absurd hstop (by simp [session])
        | succ fuel =>
            have hempty := session_stop fuel (.emptyLine (inputText lines stop))
            rw [Stop.text] at hempty
            rw [hempty] at hrest hstop
            dsimp only at hrest
            subst hrest
            have htext := congrArg (fun o => (o.map Stop.text).map List.length) hstop
            simp [Stop.text, inputText] at htext

theorem fits_of_session {lines : List (List Char)} {stop : Stop}
    (hlines : ∀ line ∈ lines, IsLine line) {fuel : ℕ}
    (h : session fuel (inputText lines stop) = (lines, some stop)) :
    ∀ line ∈ lines, Fits line := by
  induction lines generalizing fuel with
  | nil => exact fun line hmem => absurd hmem List.not_mem_nil
  | cons line lines ih =>
      obtain ⟨-, hline⟩ := hlines line List.mem_cons_self
      rw [inputText_cons] at h
      rcases Nat.lt_or_ge line.length 99 with hlt | hge
      · cases fuel with
        | zero => exact absurd (congrArg Prod.fst h) (by simp [session])
        | succ fuel =>
            by_cases hnil : visible line = []
            · rw [session, fgets_of_lt hlt hline] at h
              simp only [chomp_line hline (Or.inr rfl), if_pos hnil] at h
              exact absurd (congrArg Prod.fst h) (by simp)
            · rw [session_of_lt fuel hlt hline hnil] at h
              simp only [Prod.mk.injEq, List.cons.injEq] at h
              obtain ⟨⟨hvisible, hrest⟩, hstop⟩ := h
              have hfits := ih (fun l hl => hlines l (List.mem_cons_of_mem _ hl))
                (Prod.ext hrest hstop)
              intro l hl
              rcases List.mem_cons.mp hl with rfl | hl
              · exact ⟨Nat.le_of_lt_succ hlt, not_mem_of_visible hvisible⟩
              · exact hfits l hl
      · exact absurd h (session_of_le hge hline)

/-! ## Framed input -/

/-- One answer to each line, computed from the whole line, and a stop only at the
end. -/
structure Framed (lines : List (List Char)) (stop : Stop) : Prop where
  answers : List.Forall₂ (fun line answer => respond line = some answer) lines
    (calculator (inputText lines stop))
  inputs : session ((inputText lines stop).length + 1) (inputText lines stop) =
    (lines, some stop)

theorem length_le_inputText {lines : List (List Char)} (stop : Stop) :
    lines.length ≤ (inputText lines stop).length := by
  induction lines with
  | nil => exact Nat.zero_le _
  | cons line lines ih =>
      rw [inputText_cons, List.length_append, List.length_cons, List.length_cons]
      omega

/-- **The input is framed exactly when every line fits**: at most 98 characters,
none of them a NUL. -/
theorem framed_iff {lines : List (List Char)} (hlines : ∀ line ∈ lines, IsLine line)
    (stop : Stop) : Framed lines stop ↔ ∀ line ∈ lines, Fits line := by
  constructor
  · intro h
    exact fits_of_session hlines h.inputs
  · intro hfits
    have hinputs := session_of_fits stop hlines hfits _
      (Nat.lt_succ_of_le (length_le_inputText stop))
    refine ⟨?_, hinputs⟩
    have hanswers := mainLoop_session ((inputText lines stop).length + 1)
      (inputText lines stop)
    rw [hinputs] at hanswers
    exact hanswers

/-- A number, an expression and a word, then an empty line. -/
theorem framed_iff_three :
    Framed ["12".toList, "3 + 4".toList, "abc".toList] (.emptyLine "5\n".toList) := by
  refine (framed_iff ?_ _).mpr ?_
  · unfold IsLine
    decide
  · unfold Fits
    decide

/-- The newline of a line of 99 digits ends the session, and the next line gets no
answer. -/
theorem not_framed_digits :
    ¬Framed [List.replicate 99 '1', "12".toList] .endOfInput := by
  intro h
  have hlen := h.answers.length_eq
  exact absurd hlen (by decide +kernel)

end OS2023.Calc
