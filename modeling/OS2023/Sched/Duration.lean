import Mathlib.Algebra.Order.BigOperators.Group.Finset
import Mathlib.Tactic.NormNum
import Mathlib.Tactic.Positivity
import OS2023.Lib.Decimal
import OS2023.Sched.Elapsed

/-!
# How long a child takes

A child of `3/assignment3.c` reads the time of day before and after its work, prints the
difference as seconds and microseconds, and reads the text back into the number that it
writes into the pipe. The seconds carry the sign, and the microseconds are never negative:
after the clock has been set back the text stands for too small a number.
-/

namespace OS2023.Sched.Elapsed

open OS2023.Lib

/-! ## The code -/

/-- `struct timeval`, as `gettimeofday` fills it. -/
structure Timeval where
  sec : ℤ
  usec : ℤ
  usec_nonneg : 0 ≤ usec
  usec_lt : usec < 1000000

/-- `seconds` and `useconds` after the borrow. -/
def elapsedParts (start stop : Timeval) : ℤ × ℤ :=
  let seconds := stop.sec - start.sec
  let useconds := stop.usec - start.usec
  if useconds < 0 then (seconds - 1, useconds + 1000000) else (seconds, useconds)

/-- `snprintf` with `"%ld.%06ld"` into 20 characters. -/
def elapsedStr (start stop : Timeval) : List Char :=
  let (seconds, useconds) := elapsedParts start stop
  ((toString seconds).toList ++ '.' :: padInt 6 useconds).take 19

/-- `elapsed_time` -/
def elapsedTime (start stop : Timeval) : ℚ :=
  strtod (elapsedStr start stop)

/-! ## What the text stands for -/

/-- The time in seconds. -/
def Timeval.time (t : Timeval) : ℚ :=
  t.sec + t.usec / 1000000

/-- Within three hundred years of one another. -/
def Near (start stop : Timeval) : Prop :=
  -10 ^ 10 < stop.sec - start.sec ∧ stop.sec - start.sec < 10 ^ 10

variable {start stop : Timeval} {seconds useconds : ℤ}

/-- **The borrow**: the parts are those of the difference, whose microseconds are not
negative. -/
structure Parts (start stop : Timeval) (seconds useconds : ℤ) : Prop where
  time : stop.time - start.time = seconds + (useconds : ℚ) / 1000000
  nonneg : 0 ≤ useconds
  lt : useconds < 1000000
  zero : useconds = 0 ↔ start.usec = stop.usec
  near : Near start stop → -10 ^ 11 < seconds ∧ seconds < 10 ^ 11

theorem parts_of_elapsedParts (h : elapsedParts start stop = (seconds, useconds)) :
    Parts start stop seconds useconds := by
  have hstart := start.usec_nonneg
  have hstart' := start.usec_lt
  have hstop := stop.usec_nonneg
  have hstop' := stop.usec_lt
  simp only [elapsedParts] at h
  split at h
  · rename_i hborrow
    obtain ⟨rfl, rfl⟩ := Prod.mk.inj h
    refine ⟨?_, by omega, by omega, by omega, ?_⟩
    · rw [Timeval.time, Timeval.time]
      push_cast
      ring
    · rintro ⟨hlo, hhi⟩
      omega
  · rename_i hborrow
    obtain ⟨rfl, rfl⟩ := Prod.mk.inj h
    refine ⟨?_, by omega, by omega, by omega, ?_⟩
    · rw [Timeval.time, Timeval.time]
      push_cast
      ring
    · rintro ⟨hlo, hhi⟩
      omega

/-- The text is read back part by part, with the sign of the seconds for both. -/
theorem elapsedTime_eq (hnear : Near start stop)
    (h : elapsedParts start stop = (seconds, useconds)) :
    elapsedTime start stop =
      if seconds < 0 then seconds - (useconds : ℚ) / 1000000
      else seconds + (useconds : ℚ) / 1000000 := by
  obtain ⟨-, hnonneg, hlt, -, hshort⟩ := parts_of_elapsedParts h
  obtain ⟨hlo, hhi⟩ := hshort hnear
  obtain ⟨n, rfl⟩ := Int.eq_ofNat_of_zero_le hnonneg
  have hn : n < 10 ^ 6 := by omega
  have hpad : padInt 6 (n : ℤ) = padZeros 6 n := by
    rw [padInt, if_neg (Int.not_lt.mpr hnonneg), Int.natAbs_natCast]
  have hlength : (padZeros 6 n).length = 6 := length_padZeros (by decide) hn
  have htext : elapsedStr start stop = signText (decide (seconds < 0)) ++
      (Nat.toDigits 10 seconds.natAbs ++ '.' :: padZeros 6 n) := by
    have hseconds := length_toString_le (by decide) hlo hhi
    simp only [elapsedStr, h, hpad]
    rw [List.take_of_length_le, toList_toString, List.append_assoc]
    rw [List.length_append, List.length_cons, hlength]
    omega
  rw [elapsedTime, htext, strtod_fraction _ Nat.toDigits_ne_nil
    (fun c hc => isDigit_of_mem_toDigits hc) (fun c hc => isDigit_of_mem_padZeros hc),
    Nat.ofDigitChars_ten_toDigits, ofDigitChars_padZeros, hlength]
  by_cases hneg : seconds < 0
  · have hcast : ((seconds.natAbs : ℕ) : ℚ) = -(seconds : ℚ) := by
      rw [← Int.cast_natCast, Int.ofNat_natAbs_of_nonpos hneg.le, Int.cast_neg]
    rw [if_pos hneg, if_pos (decide_eq_true hneg), hcast]
    push_cast
    ring
  · have hcast : ((seconds.natAbs : ℕ) : ℚ) = seconds := by
      rw [← Int.cast_natCast, Int.natAbs_of_nonneg (Int.not_lt.mp hneg)]
    rw [if_neg hneg, if_neg (by simp [hneg]), hcast]
    push_cast
    ring

/-- The clock was not set back between the two readings, or by whole seconds. -/
def Readable (start stop : Timeval) : Prop :=
  start.time ≤ stop.time ∨ start.usec = stop.usec

/-- **The number is never too large, and it is right exactly for the readable pairs.** -/
theorem elapsedTime_le (hnear : Near start stop) :
    elapsedTime start stop ≤ stop.time - start.time ∧
      (elapsedTime start stop = stop.time - start.time ↔ Readable start stop) := by
  obtain ⟨⟨seconds, useconds⟩, h⟩ : ∃ parts, elapsedParts start stop = parts := ⟨_, rfl⟩
  obtain ⟨htime, hnonneg, hlt, hzero, -⟩ := parts_of_elapsedParts h
  have hfraction : (0 : ℚ) ≤ useconds / 1000000 := by
    have hcast : (0 : ℚ) ≤ useconds := by exact_mod_cast hnonneg
    positivity
  have hfraction' : (useconds : ℚ) / 1000000 < 1 := by
    have hcast : (useconds : ℚ) < 1000000 := by exact_mod_cast hlt
    rw [div_lt_one (by norm_num)]
    exact hcast
  have hreadable : Readable start stop ↔
      0 ≤ (seconds : ℚ) + useconds / 1000000 ∨ useconds = 0 := by
    rw [Readable, ← sub_nonneg, htime, hzero]
  rw [elapsedTime_eq hnear h, hreadable, htime]
  by_cases hneg : seconds < 0
  · have hseconds : (seconds : ℚ) ≤ -1 := by exact_mod_cast Int.le_sub_one_of_lt hneg
    rw [if_pos hneg]
    refine ⟨by linarith, ?_⟩
    constructor
    · intro heq
      right
      have hcast : (useconds : ℚ) = 0 := by linarith
      exact_mod_cast hcast
    · rintro (hle | rfl)
      · linarith
      · simp
  · have hseconds : (0 : ℚ) ≤ seconds := by exact_mod_cast Int.not_lt.mp hneg
    rw [if_neg hneg]
    refine ⟨le_refl _, iff_of_true rfl (.inl ?_)⟩
    linarith

/-! ## The total -/

/-- **The total is the time that the children took** in every finished run in which all of
them write, whatever the order, if and only if each pair of readings is readable; otherwise
it is less. -/
theorem total_durations_iff {start stop : Fin 21 → Timeval}
    (hnear : ∀ i, Near (start i) (stop i)) {es : List Event} {s : World}
    (hrun : runFrom (step fun i => elapsedTime (start i) (stop i)) initial es = some s)
    (hdone : s.phase = .done) (hall : (writers es).toFinset = Finset.univ) :
    s.totalElapsedTime ≤ ∑ i, ((stop i).time - (start i).time) ∧
      (s.totalElapsedTime = ∑ i, ((stop i).time - (start i).time) ↔
        ∀ i, Readable (start i) (stop i)) := by
  obtain ⟨htotal, hcard⟩ := total_of_done hrun hdone
  rw [hall, Finset.card_univ, Fintype.card_fin] at hcard
  have heofs : eofs es = 0 := by omega
  rw [hall, stale_eq_zero heofs, add_zero] at htotal
  have hle : ∀ i ∈ Finset.univ, elapsedTime (start i) (stop i) ≤
      (stop i).time - (start i).time := fun i _ => (elapsedTime_le (hnear i)).1
  rw [htotal]
  refine ⟨Finset.sum_le_sum hle, ?_⟩
  rw [Finset.sum_eq_sum_iff_of_le hle]
  constructor
  · exact fun heq i => (elapsedTime_le (hnear i)).2.mp (heq i (Finset.mem_univ i))
  · exact fun hread i _ => (elapsedTime_le (hnear i)).2.mpr (hread i)

/-- A child that starts at 100.9 and stops at 102.1. -/
def startBefore : Timeval :=
  ⟨100, 900000, by decide, by decide⟩

def stopAfter : Timeval :=
  ⟨102, 100000, by decide, by decide⟩

theorem total_durations_iff_borrow : ∃ es s,
    runFrom (step fun _ => elapsedTime startBefore stopAfter) initial es = some s ∧
      s.totalElapsedTime = ∑ _i : Fin 21, (stopAfter.time - startBefore.time) := by
  obtain ⟨es, s, hrun, hdone, hall, -⟩ :=
    exists_run (fun _ => elapsedTime startBefore stopAfter) Finset.univ
  refine ⟨es, s, hrun, (total_durations_iff (fun _ => ?_) hrun hdone hall).2.mpr fun _ => .inl ?_⟩
  · unfold Near
    decide
  · norm_num [Timeval.time, startBefore, stopAfter]

end OS2023.Sched.Elapsed
