import OS2023.Lib.Scan
import Mathlib.Algebra.Ring.Int.Defs
import Mathlib.Algebra.Ring.Nat

/-!
# Formats

A format of the `scanf` family as a list of directives, and its execution on a
list of characters. The result is the number the function returns together with
the values it has assigned, in the order of its arguments. An integer that does
not fit its argument is undefined behaviour, the result is then `none`.
-/

namespace OS2023.Lib

inductive Directive where
  /-- White space: matches any run of it, the empty one too. -/
  | spaces
  | literal (c : Char)
  /-- `%d` or `%ld`, with the bits of the argument's type, or `%*d`. -/
  | int (bits : Option ℕ)
  /-- `%*c`. -/
  | skipChar
  /-- `%[^c]`. -/
  | textUntil (stop : Char)
deriving DecidableEq

inductive Value where
  | int (v : Int)
  | text (t : List Char)
deriving DecidableEq

/-- What one directive does. -/
inductive Outcome where
  /-- An input failure: no character was left. -/
  | eof
  | mismatch
  | undefined
  | matched (v : Option Value) (rest : List Char)
deriving DecidableEq

/-- A two's complement type of `bits` bits holds `v`. -/
def FitsSigned (bits : ℕ) (v : Int) : Prop :=
  -2 ^ (bits - 1) ≤ v ∧ v < 2 ^ (bits - 1)

instance (bits : ℕ) (v : Int) : Decidable (FitsSigned bits v) :=
  inferInstanceAs (Decidable (_ ∧ _))

def Directive.execute : Directive → List Char → Outcome
  | .spaces, s => .matched none (skipSpaces s)
  | .literal _, [] => .eof
  | .literal c, x :: s => if x = c then .matched none s else .mismatch
  | .int bits, s =>
      match scanInt ['+', '-'] s with
      | .eof => .eof
      | .mismatch _ => .mismatch
      | .value v rest =>
          match bits with
          | none => .matched none rest
          | some bits =>
              if FitsSigned bits v then .matched (some (.int v)) rest else .undefined
  | .skipChar, [] => .eof
  | .skipChar, _ :: s => .matched none s
  | .textUntil _, [] => .eof
  | .textUntil stop, c :: s =>
      if c = stop then .mismatch
      else .matched (some (.text ((c :: s).takeWhile fun x => x != stop)))
        ((c :: s).dropWhile fun x => x != stop)

/-- Whether the directive is a conversion, suppressed ones included. -/
def Directive.converts : Directive → Bool
  | .spaces => false
  | .literal _ => false
  | .int _ => true
  | .skipChar => true
  | .textUntil _ => true

/-- `started` tells whether a conversion has been completed: the end of the input
is reported as `EOF` only before that. -/
def scanFormat (started : Bool) (values : List Value) :
    List Directive → List Char → Option (Int × List Value)
  | [], _ => some (values.length, values)
  | d :: ds, s =>
      match d.execute s with
      | .eof => some (if started then values.length else -1, values)
      | .mismatch => some (values.length, values)
      | .undefined => none
      | .matched v rest => scanFormat (started || d.converts) (values ++ v.toList) ds rest

def fscanf (format : List Directive) (s : List Char) : Option (Int × List Value) :=
  scanFormat false [] format s

/-! ## Reading -/

/-- The directives match one after the other, assign `vs` and leave `rest`. -/
inductive Reads : List Directive → List Char → List Value → List Char → Prop where
  | nil (s : List Char) : Reads [] s [] s
  | cons {d : Directive} {ds : List Directive} {s s' rest : List Char} {v : Option Value}
      {vs : List Value} (h : d.execute s = .matched v s') (t : Reads ds s' vs rest) :
      Reads (d :: ds) s (v.toList ++ vs) rest

variable {d : Directive} {ds ds' : List Directive} {s s' rest : List Char}
  {vs vs' values : List Value} {started : Bool}

theorem Reads.append (h : Reads ds s vs s') (h' : Reads ds' s' vs' rest) :
    Reads (ds ++ ds') s (vs ++ vs') rest := by
  induction h with
  | nil => exact h'
  | cons hd _ ih =>
      rw [List.cons_append, List.append_assoc]
      exact Reads.cons hd (ih h')

/-- A format goes on behind the part that has matched. -/
theorem Reads.scanFormat_append (h : Reads ds s vs s') (ds' : List Directive)
    (started : Bool) (values : List Value) :
    ∃ started', scanFormat started values (ds ++ ds') s =
      scanFormat started' (values ++ vs) ds' s' := by
  induction h generalizing started values with
  | nil => exact ⟨started, by rw [List.append_nil, List.nil_append]⟩
  | @cons d _ _ _ _ v _ hd _ ih =>
      obtain ⟨started', heq⟩ := ih (started || d.converts) (values ++ v.toList)
      refine ⟨started', ?_⟩
      rw [List.cons_append, scanFormat, hd, ← List.append_assoc]
      exact heq

/-- A format that matches to its end assigns everything. -/
theorem Reads.fscanf (h : Reads ds s vs rest) :
    fscanf ds s = some ((vs.length : Int), vs) := by
  obtain ⟨started', heq⟩ := h.scanFormat_append [] false []
  rw [List.append_nil] at heq
  exact heq

/-- What has been assigned stays assigned. -/
theorem prefix_of_scanFormat {count : Int}
    (h : scanFormat started values ds s = some (count, vs)) : values <+: vs := by
  induction ds generalizing started values s with
  | nil =>
      obtain ⟨-, rfl⟩ := Prod.mk.inj (Option.some.inj h)
      exact List.prefix_rfl
  | cons d ds ih =>
      rw [scanFormat] at h
      split at h
      · obtain ⟨-, rfl⟩ := Prod.mk.inj (Option.some.inj h)
        exact List.prefix_rfl
      · obtain ⟨-, rfl⟩ := Prod.mk.inj (Option.some.inj h)
        exact List.prefix_rfl
      · exact absurd h (by simp)
      · exact (List.prefix_append _ _).trans (ih h)

/-! ## One directive -/

/-- White space in the format and in the input. -/
theorem reads_spaces {c : Char} (hc : isSpaceChar c = false) (s : List Char) :
    Reads [.spaces] (' ' :: c :: s) [] (c :: s) := by
  have hskip : skipSpaces (' ' :: c :: s) = c :: s := by
    rw [show ' ' :: c :: s = [' '] ++ c :: s from rfl,
      skipSpaces_append (by simp [isSpaceChar]), skipSpaces_cons hc]
  refine Reads.cons (v := none) ?_ (Reads.nil _)
  rw [Directive.execute, hskip]

theorem reads_literal (c : Char) (s : List Char) : Reads [.literal c] (c :: s) [] s :=
  Reads.cons (v := none) (if_pos rfl) (Reads.nil s)

theorem reads_skipChar (c : Char) (s : List Char) : Reads [.skipChar] (c :: s) [] s :=
  Reads.cons (v := none) rfl (Reads.nil s)

/-- `%[^c]` reads a text up to the first `c`. -/
theorem reads_textUntil {stop : Char} {t : List Char} (hne : t ≠ []) (ht : stop ∉ t)
    (s : List Char) : Reads [.textUntil stop] (t ++ stop :: s) [.text t] (stop :: s) := by
  have hall : ∀ x ∈ t, (x != stop) = true := by
    intro x hx
    rw [bne_iff_ne]
    rintro rfl
    exact ht hx
  have htake : (t ++ stop :: s).takeWhile (fun x => x != stop) = t := by
    rw [List.takeWhile_append_of_pos hall]
    simp
  have hdrop : (t ++ stop :: s).dropWhile (fun x => x != stop) = stop :: s := by
    rw [List.dropWhile_append_of_pos hall]
    simp
  cases t with
  | nil => exact absurd rfl hne
  | cons c t =>
      have hc : c ≠ stop := bne_iff_ne.mp (hall c List.mem_cons_self)
      rw [List.cons_append] at htake hdrop ⊢
      refine Reads.cons (v := some (.text (c :: t))) ?_ (Reads.nil _)
      rw [Directive.execute, if_neg hc, htake, hdrop]

theorem scanInt_signed {sp : List Char} (hsp : ∀ c ∈ sp, isSpaceChar c = true)
    (hs : NoDigitHead s) (v : Int) :
    scanInt ['+', '-'] (sp ++ ((toString v).toList ++ s)) = .value v s :=
  scanInt_toString (by simp) (by decide) hsp hs v

/-- A written integer that fits is assigned. White space may stand in front. -/
theorem reads_int {bits : ℕ} (sp : List Char) {v : Int} (hv : FitsSigned bits v)
    (hsp : ∀ c ∈ sp, isSpaceChar c = true) (hs : NoDigitHead s) :
    Reads [.int (some bits)] (sp ++ ((toString v).toList ++ s)) [.int v] s := by
  refine Reads.cons (v := some (.int v)) ?_ (Reads.nil _)
  rw [Directive.execute, scanInt_signed hsp hs]
  exact if_pos hv

/-- One that does not fit makes the whole call undefined. -/
theorem execute_int_of_not_fits {bits : ℕ} (sp : List Char) {v : Int}
    (hv : ¬FitsSigned bits v) (hsp : ∀ c ∈ sp, isSpaceChar c = true) (hs : NoDigitHead s) :
    Directive.execute (.int (some bits)) (sp ++ ((toString v).toList ++ s)) =
      .undefined := by
  rw [Directive.execute, scanInt_signed hsp hs]
  exact if_neg hv

/-- A suppressed conversion reads any integer. -/
theorem reads_skipInt {sp : List Char} (hsp : ∀ c ∈ sp, isSpaceChar c = true)
    (hs : NoDigitHead s) (v : Int) :
    Reads [.int none] (sp ++ ((toString v).toList ++ s)) [] s := by
  refine Reads.cons (v := none) ?_ (Reads.nil _)
  rw [Directive.execute, scanInt_signed hsp hs]

/-- White space in front of an integer conversion changes nothing. -/
theorem execute_int_skipSpaces (bits : Option ℕ) (s : List Char) :
    Directive.execute (.int bits) (skipSpaces s) = Directive.execute (.int bits) s := by
  rw [Directive.execute, scanInt_skipSpaces, Directive.execute]

theorem Reads.spaces_int {bits : Option ℕ} (h : Reads [.int bits] s vs rest) :
    Reads [.spaces, .int bits] s vs rest := by
  cases h with
  | cons hd ht =>
      rw [← execute_int_skipSpaces] at hd
      exact Reads.cons (v := none) rfl (Reads.cons hd ht)

end OS2023.Lib
