import Mathlib.Data.List.TakeWhile
import Mathlib.Data.Int.Notation

/-!
# Formatted input

The conversions of the `scanf` family on a list of characters. An integer
conversion skips white space, takes an optional sign from `signs` (user-space C
allows `+` and `-`, the kernel only `-`) and then the longest run of decimal
digits. Where no character is left it reports the end of the input; where no
digit follows it fails and leaves the input at the offending character.

`Integers` says what a file holds in the eyes of a loop that converts until the
input ends.
-/

namespace OS2023.Lib

/-- `isspace` in the C locale. -/
def isSpaceChar (c : Char) : Bool :=
  c == ' ' || c == '\t' || c == '\n' || c == '\x0b' || c == '\x0c' || c == '\r'

def skipSpaces (s : List Char) : List Char :=
  s.dropWhile isSpaceChar

inductive Conversion where
  | eof
  | mismatch (rest : List Char)
  | value (v : Int) (rest : List Char)
deriving DecidableEq

/-- Whether a minus sign stands in front, and what follows the sign. -/
def takeSign (signs : List Char) : List Char → Bool × List Char
  | [] => (false, [])
  | c :: s => if c ∈ signs then (c == '-', s) else (false, c :: s)

def scanInt (signs s : List Char) : Conversion :=
  match skipSpaces s with
  | [] => .eof
  | c :: t =>
    let (negative, body) := takeSign signs (c :: t)
    match body.takeWhile Char.isDigit with
    | [] => .mismatch body
    | d :: ds =>
      let n : Int := Nat.ofDigitChars 10 (d :: ds) 0
      .value (if negative then -n else n) (body.dropWhile Char.isDigit)

/-! ## Splitting the input -/

theorem skipSpaces_append {sp : List Char} (hsp : ∀ c ∈ sp, isSpaceChar c = true)
    (s : List Char) : skipSpaces (sp ++ s) = skipSpaces s :=
  List.dropWhile_append_of_pos hsp

theorem skipSpaces_cons {c : Char} (hc : isSpaceChar c = false) (s : List Char) :
    skipSpaces (c :: s) = c :: s := by
  rw [skipSpaces, List.dropWhile_cons_of_neg (by simp [hc])]

/-- What stands before a stop is cut at the first one. -/
theorem exists_append_stop (stop : Char) (t s : List Char) :
    ∃ r, t ++ stop :: s = t.takeWhile (fun c => c != stop) ++ stop :: r := by
  induction t with
  | nil => exact ⟨s, rfl⟩
  | cons c t ih =>
      by_cases hc : c = stop
      · exact ⟨t ++ stop :: s, by rw [hc, List.takeWhile_cons_of_neg (by simp)]; rfl⟩
      · obtain ⟨r, hr⟩ := ih
        have htake : (c :: t).takeWhile (fun c => c != stop) =
            c :: t.takeWhile fun c => c != stop :=
          List.takeWhile_cons_of_pos (bne_iff_ne.mpr hc)
        exact ⟨r, by rw [htake, List.cons_append, List.cons_append, hr]⟩

theorem stop_not_mem_takeWhile (stop : Char) (t : List Char) :
    stop ∉ t.takeWhile fun c => c != stop := by
  intro hmem
  have hne := List.mem_takeWhile_imp hmem
  exact bne_iff_ne.mp hne rfl

/-- Nothing that could prolong a run of digits. -/
def NoDigitHead (s : List Char) : Prop :=
  ∀ c ∈ s.head?, c.isDigit = false

theorem takeWhile_digits {ds s : List Char} (hds : ∀ c ∈ ds, c.isDigit = true)
    (hs : NoDigitHead s) :
    (ds ++ s).takeWhile Char.isDigit = ds ∧ (ds ++ s).dropWhile Char.isDigit = s := by
  rw [List.takeWhile_append_of_pos hds, List.dropWhile_append_of_pos hds]
  cases s with
  | nil => simp
  | cons c s =>
      have hc : c.isDigit = false := hs c rfl
      simp [hc]

theorem isSpaceChar_of_isDigit {c : Char} (hc : c.isDigit = true) :
    isSpaceChar c = false := by
  by_contra hsp
  rw [Bool.not_eq_false] at hsp
  simp only [isSpaceChar, Bool.or_eq_true, beq_iff_eq] at hsp
  rcases hsp with ((((rfl | rfl) | rfl) | rfl) | rfl) | rfl <;> exact absurd hc (by decide)

/-- A run of digits is converted to its value. -/
theorem scanInt_digits {signs sp ds s : List Char} (hsigns : ∀ c ∈ signs, c.isDigit = false)
    (hsp : ∀ c ∈ sp, isSpaceChar c = true) (hne : ds ≠ [])
    (hds : ∀ c ∈ ds, c.isDigit = true) (hs : NoDigitHead s) :
    scanInt signs (sp ++ (ds ++ s)) = .value (Nat.ofDigitChars 10 ds 0) s := by
  obtain ⟨htake, hdrop⟩ := takeWhile_digits hds hs
  cases ds with
  | nil => exact absurd rfl hne
  | cons d ds =>
      have hd : d.isDigit = true := hds d List.mem_cons_self
      have hskip : skipSpaces (sp ++ (d :: ds ++ s)) = d :: (ds ++ s) := by
        rw [skipSpaces_append hsp, List.cons_append,
          skipSpaces_cons (isSpaceChar_of_isDigit hd)]
      have hsign : takeSign signs (d :: (ds ++ s)) = (false, d :: ds ++ s) := by
        rw [takeSign, if_neg fun hmem => by simp [hsigns d hmem] at hd]
        rfl
      simp only [scanInt, hskip, hsign, htake, hdrop, Bool.false_eq_true, if_false]

/-- The text of a sign. -/
def signText (negative : Bool) : List Char :=
  if negative then ['-'] else []

/-- A minus sign in front of the digits negates the value. -/
theorem scanInt_negative {signs sp ds s : List Char} (hminus : '-' ∈ signs)
    (hsp : ∀ c ∈ sp, isSpaceChar c = true) (hne : ds ≠ [])
    (hds : ∀ c ∈ ds, c.isDigit = true) (hs : NoDigitHead s) :
    scanInt signs (sp ++ '-' :: (ds ++ s)) = .value (-(Nat.ofDigitChars 10 ds 0)) s := by
  obtain ⟨htake, hdrop⟩ := takeWhile_digits hds hs
  have hskip : skipSpaces (sp ++ '-' :: (ds ++ s)) = '-' :: (ds ++ s) := by
    rw [skipSpaces_append hsp, skipSpaces_cons (by decide)]
  have hsign : takeSign signs ('-' :: (ds ++ s)) = (true, ds ++ s) := by
    rw [takeSign, if_pos hminus]
    rfl
  cases ds with
  | nil => exact absurd rfl hne
  | cons d ds => simp only [scanInt, hskip, hsign, htake, hdrop, if_true]

/-! ## What a successful conversion has read -/

theorem exists_skipped (s : List Char) :
    ∃ sp, s = sp ++ skipSpaces s ∧ ∀ c ∈ sp, isSpaceChar c = true :=
  ⟨s.takeWhile isSpaceChar, List.takeWhile_append_dropWhile.symm,
    fun _ hc => List.mem_takeWhile_imp hc⟩

theorem skipSpaces_idem (s : List Char) : skipSpaces (skipSpaces s) = skipSpaces s := by
  obtain ⟨sp, hsplit, hsp⟩ := exists_skipped s
  have hidem := skipSpaces_append hsp (skipSpaces s)
  rw [← hsplit] at hidem
  exact hidem.symm

theorem scanInt_skipSpaces (signs s : List Char) :
    scanInt signs (skipSpaces s) = scanInt signs s := by
  rw [scanInt, scanInt, skipSpaces_idem]

theorem noDigitHead_dropWhile (s : List Char) : NoDigitHead (s.dropWhile Char.isDigit) := by
  intro c hc
  have := List.head?_dropWhile_not Char.isDigit s
  rw [Option.mem_def.mp hc] at this
  simpa using this

theorem takeSign_suffix (signs s : List Char) : (takeSign signs s).2 <:+ s := by
  cases s with
  | nil => exact List.suffix_rfl
  | cons c s =>
      rw [takeSign]
      split
      · exact List.suffix_cons c s
      · exact List.suffix_rfl

/-- What a conversion leaves is an end of the input, and a shorter one when it
succeeds. -/
theorem scanInt_leaves {signs s rest : List Char} :
    (scanInt signs s = .mismatch rest → rest <:+ s) ∧
      ∀ v, scanInt signs s = .value v rest → rest.length < s.length := by
  have hskip : skipSpaces s <:+ s := List.dropWhile_suffix _
  unfold scanInt
  cases hs : skipSpaces s with
  | nil => simp
  | cons c t =>
      obtain ⟨negative, body, hsign⟩ : ∃ negative body,
          takeSign signs (c :: t) = (negative, body) := ⟨_, _, rfl⟩
      have hbody := (takeSign_suffix signs (c :: t)).trans (hs ▸ hskip)
      rw [hsign] at hbody
      simp only [hsign]
      cases htake : body.takeWhile Char.isDigit with
      | nil =>
          refine ⟨fun h => ?_, fun v h => by simp at h⟩
          rw [← Conversion.mismatch.inj h]
          exact hbody
      | cons d ds =>
          refine ⟨fun h => by simp at h, fun v h => ?_⟩
          rw [← (Conversion.value.inj h).2]
          -- the digits taken are gone
          have hsplit := congrArg List.length
            (List.takeWhile_append_dropWhile (p := Char.isDigit) (l := body))
          rw [List.length_append, htake, List.length_cons] at hsplit
          have hle : body.length ≤ s.length := hbody.length_le
          omega

/-- Inversion, for the kernel's signs: spaces, a sign or none, digits. -/
theorem scanInt_inv {s rest : List Char} {v : Int} (h : scanInt ['-'] s = .value v rest) :
    ∃ (sp : List Char) (negative : Bool) (ds : List Char),
      s = sp ++ (signText negative ++ (ds ++ rest)) ∧
      (∀ c ∈ sp, isSpaceChar c = true) ∧ ds ≠ [] ∧ (∀ c ∈ ds, c.isDigit = true) ∧
      NoDigitHead rest := by
  obtain ⟨sp, hsplit, hsp⟩ := exists_skipped s
  unfold scanInt at h
  cases hskip : skipSpaces s with
  | nil =>
      rw [hskip] at h
      exact absurd h (by simp)
  | cons c t =>
      obtain ⟨negative, body, hsign, hbody⟩ : ∃ negative body,
          takeSign ['-'] (c :: t) = (negative, body) ∧ c :: t = signText negative ++ body := by
        by_cases hc : c = '-'
        · subst hc
          exact ⟨true, t, rfl, rfl⟩
        · refine ⟨false, c :: t, ?_, rfl⟩
          rw [takeSign, if_neg (by simpa using hc)]
      rw [hskip] at h hsplit
      simp only [hsign] at h
      cases htake : body.takeWhile Char.isDigit with
      | nil =>
          rw [htake] at h
          exact absurd h (by simp)
      | cons d ds =>
          rw [htake] at h
          simp only [Conversion.value.injEq] at h
          obtain ⟨-, rfl⟩ := h
          refine ⟨sp, negative, d :: ds, ?_, hsp, by simp, fun x hx => ?_,
            noDigitHead_dropWhile body⟩
          · rw [← htake, List.takeWhile_append_dropWhile, ← hbody]
            exact hsplit
          · rw [← htake] at hx
            exact List.mem_takeWhile_imp hx

/-- A list splits in one way into a run of `p` and a rest that does not go on
with `p`. -/
theorem split_unique {α : Type*} {p : α → Bool} {a a' x x' : List α}
    (ha : ∀ c ∈ a, p c = true) (ha' : ∀ c ∈ a', p c = true)
    (hx : ∀ c ∈ x.head?, p c = false) (hx' : ∀ c ∈ x'.head?, p c = false)
    (h : a ++ x = a' ++ x') : a = a' ∧ x = x' := by
  have htake : ∀ {a x : List α}, (∀ c ∈ a, p c = true) → (∀ c ∈ x.head?, p c = false) →
      (a ++ x).takeWhile p = a := by
    intro a x ha hx
    rw [List.takeWhile_append_of_pos ha]
    cases x with
    | nil => simp
    | cons c x => simp [hx c rfl]
  have heq : a = a' := by
    rw [← htake ha hx, h, htake ha' hx']
  subst heq
  exact ⟨rfl, List.append_cancel_left h⟩

/-! ## Conversions that give no value -/

/-- Behind white space the input ends, or goes on with neither a digit nor a sign. -/
def NoNumber (signs s : List Char) : Prop :=
  ∀ c ∈ (skipSpaces s).head?, c.isDigit = false ∧ c ∉ signs

/-- Behind white space stands a sign that no digit follows. -/
def LoneSign (signs s rest : List Char) : Prop :=
  ∃ c ∈ signs, skipSpaces s = c :: rest ∧ NoDigitHead rest

theorem takeWhile_of_noDigitHead {s : List Char} (hs : NoDigitHead s) :
    s.takeWhile Char.isDigit = [] := by
  cases s with
  | nil => rfl
  | cons c s =>
      have hc : c.isDigit = false := hs c rfl
      rw [List.takeWhile_cons_of_neg (by simp [hc])]

/-- Only the white space is taken, so that the next conversion fails the same way. -/
theorem scanInt_of_noNumber {signs s : List Char} (hs : NoNumber signs s) :
    scanInt signs s = .eof ∧ skipSpaces s = [] ∨ scanInt signs s = .mismatch (skipSpaces s) := by
  unfold scanInt
  cases hskip : skipSpaces s with
  | nil => exact .inl ⟨rfl, rfl⟩
  | cons c t =>
      obtain ⟨hdigit, hsign⟩ := hs c (by rw [hskip]; rfl)
      have htake : (c :: t).takeWhile Char.isDigit = [] :=
        List.takeWhile_cons_of_neg (by simp [hdigit])
      right
      simp only [takeSign, if_neg hsign, htake]

theorem NoNumber.skipSpaces {signs s : List Char} (hs : NoNumber signs s) :
    NoNumber signs (skipSpaces s) := by
  rw [NoNumber, skipSpaces_idem]
  exact hs

/-- The sign is lost. -/
theorem scanInt_of_loneSign {signs s rest : List Char} (hs : LoneSign signs s rest) :
    scanInt signs s = .mismatch rest := by
  obtain ⟨c, hc, hskip, hrest⟩ := hs
  simp only [scanInt, hskip, takeSign, if_pos hc, takeWhile_of_noDigitHead hrest]

theorem LoneSign.length_lt {signs s rest : List Char} (hs : LoneSign signs s rest) :
    rest.length < s.length := by
  obtain ⟨c, -, hskip, -⟩ := hs
  have hsuffix : skipSpaces s <:+ s := List.dropWhile_suffix _
  have hle := hsuffix.length_le
  rw [hskip, List.length_cons] at hle
  exact hle

/-- **What a conversion finds**: no number, a sign alone, or a value. -/
theorem scanInt_cases (signs s : List Char) :
    NoNumber signs s ∨ (∃ rest, LoneSign signs s rest) ∨
      ∃ v rest, scanInt signs s = .value v rest := by
  cases hskip : skipSpaces s with
  | nil =>
      left
      intro c hc
      rw [hskip] at hc
      cases hc
  | cons c t =>
      obtain ⟨negative, body, hsign⟩ : ∃ negative body,
          takeSign signs (c :: t) = (negative, body) := ⟨_, _, rfl⟩
      cases htake : body.takeWhile Char.isDigit with
      | cons d ds =>
          right; right
          simp only [scanInt, hskip, hsign, htake]
          exact ⟨_, _, rfl⟩
      | nil =>
          have hbody : NoDigitHead body := by
            have hdrop := noDigitHead_dropWhile body
            have hsplit := List.takeWhile_append_dropWhile (p := Char.isDigit) (l := body)
            rw [htake, List.nil_append] at hsplit
            rwa [hsplit] at hdrop
          by_cases hc : c ∈ signs
          · right; left
            rw [takeSign, if_pos hc] at hsign
            obtain ⟨-, rfl⟩ := Prod.mk.inj hsign
            exact ⟨t, c, hc, hskip, hbody⟩
          · left
            rw [takeSign, if_neg hc] at hsign
            obtain ⟨-, rfl⟩ := Prod.mk.inj hsign
            intro d hd
            rw [hskip] at hd
            obtain rfl : c = d := Option.some.inj hd
            exact ⟨hbody c rfl, hc⟩

/-! ## Integers written in decimal -/

theorem isDigit_of_mem_toDigits {n : ℕ} {c : Char} (hc : c ∈ Nat.toDigits 10 n) :
    c.isDigit = true :=
  Nat.isDigit_of_mem_toDigits (by decide) (by decide) hc

theorem toList_toString (v : Int) :
    (toString v).toList = signText (decide (v < 0)) ++ Nat.toDigits 10 v.natAbs := by
  cases v with
  | ofNat n => simp [toString, Int.repr, Nat.repr, signText]
  | negSucc n =>
      simp [toString, Int.repr, Nat.repr, signText, Int.negSucc_lt_zero n]

/-- **A written integer is read back.** -/
theorem scanInt_toString {signs sp s : List Char} (hsigns : ∀ c ∈ signs, c.isDigit = false)
    (hminus : '-' ∈ signs) (hsp : ∀ c ∈ sp, isSpaceChar c = true) (hs : NoDigitHead s)
    (v : Int) : scanInt signs (sp ++ ((toString v).toList ++ s)) = .value v s := by
  have hds : ∀ c ∈ Nat.toDigits 10 v.natAbs, c.isDigit = true := fun c hc =>
    isDigit_of_mem_toDigits hc
  rw [toList_toString, List.append_assoc]
  by_cases hv : v < 0
  · have hscan := scanInt_negative hminus hsp Nat.toDigits_ne_nil hds hs
    rw [Nat.ofDigitChars_ten_toDigits] at hscan
    rw [decide_eq_true hv]
    refine hscan.trans ?_
    congr 1
    omega
  · have hscan := scanInt_digits hsigns hsp Nat.toDigits_ne_nil hds hs
    rw [Nat.ofDigitChars_ten_toDigits] at hscan
    rw [decide_eq_false hv]
    refine hscan.trans ?_
    congr 1
    omega

/-- Different integers are written differently. -/
theorem toString_injective : Function.Injective fun v : Int => (toString v).toList := by
  intro v u h
  have hscan : ∀ v : Int, scanInt ['-'] (toString v).toList = .value v [] := fun v => by
    have hread := @scanInt_toString ['-'] [] [] (by simp) (by decide) (by simp)
      (by simp [NoDigitHead]) v
    rwa [List.nil_append, List.append_nil] at hread
  have hv := hscan v
  rw [show (toString v).toList = (toString u).toList from h, hscan u] at hv
  exact (Conversion.value.inj hv).1.symm

/-! ## Files of integers -/

/-- Converting `s` over and over yields the integers `xs` and then the end. -/
inductive Integers (signs : List Char) : List Char → List Int → Prop where
  | nil {s : List Char} (h : scanInt signs s = .eof) : Integers signs s []
  | cons {s rest : List Char} {v : Int} {xs : List Int}
      (h : scanInt signs s = .value v rest) (t : Integers signs rest xs) :
      Integers signs s (v :: xs)

/-- Converting `s` over and over yields the integers `xs` first and leaves `rest`. -/
inductive ReadsInts (signs : List Char) : List Char → List Int → List Char → Prop where
  | nil (s : List Char) : ReadsInts signs s [] s
  | cons {s s' rest : List Char} {v : Int} {xs : List Int}
      (h : scanInt signs s = .value v s') (t : ReadsInts signs s' xs rest) :
      ReadsInts signs s (v :: xs) rest

/-- The file with one number a line. -/
def lines (xs : List ℕ) : List Char :=
  xs.flatMap fun n => Nat.toDigits 10 n ++ ['\n']

/-- **Written line by line, numbers are read back.** White space may stand in
front, as the newline of the line before does. -/
theorem Integers.of_lines {signs : List Char} (hsigns : ∀ c ∈ signs, c.isDigit = false) :
    ∀ (xs : List ℕ) (sp : List Char), (∀ c ∈ sp, isSpaceChar c = true) →
      Integers signs (sp ++ lines xs) (xs.map fun n : ℕ => (n : Int)) := by
  intro xs
  induction xs with
  | nil =>
      intro sp hsp
      refine Integers.nil ?_
      have hskip : skipSpaces (sp ++ lines []) = [] := skipSpaces_append hsp []
      rw [scanInt, hskip]
  | cons n xs ih =>
      intro sp hsp
      have hds : ∀ c ∈ Nat.toDigits 10 n, c.isDigit = true := fun c hc =>
        isDigit_of_mem_toDigits hc
      have hscan := scanInt_digits (s := '\n' :: lines xs) hsigns hsp
        Nat.toDigits_ne_nil hds (by simp [NoDigitHead])
      rw [Nat.ofDigitChars_ten_toDigits] at hscan
      refine Integers.cons ?_ (ih ['\n'] (by simp [isSpaceChar]))
      have htext : sp ++ lines (n :: xs) =
          sp ++ (Nat.toDigits 10 n ++ '\n' :: lines xs) := by
        simp [lines]
      rw [htext]
      exact hscan

end OS2023.Lib
