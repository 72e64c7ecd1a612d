import Mathlib.Data.List.Basic
import Mathlib.Data.Nat.ModEq
import Mathlib.Logic.Function.Basic

/-!
# Ring buffers

Slot arithmetic modulo the capacity, and the relation between the cells of a
ring and the list they hold. A cell is an `Option`: `none` is a cell that was
never written. `Segment cells f l` says that the list `l` lies in consecutive
slots from slot `f` on; it says nothing about the other cells.
-/

namespace OS2023.Lib

variable {n : ℕ}

/-! ## Slots -/

/-- The slot `k` places after `f` in a ring of `n` slots. -/
def slot (n f k : ℕ) : ℕ := (f + k) % n

theorem slot_lt (hn : 0 < n) (f k : ℕ) : slot n f k < n :=
  Nat.mod_lt _ hn

theorem slot_zero {f : ℕ} (hf : f < n) : slot n f 0 = f :=
  Nat.mod_eq_of_lt hf

theorem slot_add_mod (f k m : ℕ) : (slot n f k + m) % n = slot n f (k + m) := by
  unfold slot
  rw [Nat.mod_add_mod, Nat.add_assoc]

theorem slot_add_one_mod (f k : ℕ) : (slot n f k + 1) % n = slot n f (k + 1) :=
  slot_add_mod f k 1

theorem slot_of_next (f k : ℕ) : slot n ((f + 1) % n) k = slot n f (k + 1) := by
  unfold slot
  rw [Nat.mod_add_mod]
  congr 1
  omega

/-- Going on by `n - 1` slots steps back by one. -/
theorem slot_back {f k : ℕ} (hn : 0 < n) (hk : 0 < k) :
    slot n f (k + (n - 1)) = slot n f (k - 1) := by
  unfold slot
  rw [show f + (k + (n - 1)) = f + (k - 1) + n by omega, Nat.add_mod_right]

theorem slot_inj {f a b : ℕ} (ha : a < n) (hb : b < n)
    (h : slot n f a = slot n f b) : a = b := by
  have hmod : a ≡ b [MOD n] := Nat.ModEq.add_left_cancel' f h
  exact Nat.ModEq.eq_of_lt_of_lt hmod ha hb

/-- Within one turn, only a full turn comes back to the start. -/
theorem slot_eq_start_iff {f k : ℕ} (hf : f < n) (hpos : 0 < k) (hk : k ≤ n) :
    slot n f k = f ↔ k = n := by
  constructor
  · intro h
    rcases Nat.lt_or_ge k n with hlt | hge
    · have h0 : slot n f k = slot n f 0 := by rw [h, slot_zero hf]
      have := slot_inj hlt (by omega) h0
      omega
    · omega
  · rintro rfl
    unfold slot
    rw [Nat.add_mod_right, Nat.mod_eq_of_lt hf]

/-! ## Segments -/

variable {α : Type*}

/-- The list `l` lies in the cells from slot `f` on. -/
def Segment (cells : Fin n → Option α) (f : ℕ) (l : List α) : Prop :=
  ∀ k x, l[k]? = some x → ∀ i : Fin n, (i : ℕ) = slot n f k → cells i = some x

theorem Segment.nil (cells : Fin n → Option α) (f : ℕ) : Segment cells f [] := by
  intro k x h
  simp at h

theorem Segment.get {cells : Fin n → Option α} {f : ℕ} {l : List α}
    (h : Segment cells f l) {k : ℕ} (hk : k < l.length) {i : Fin n}
    (hi : (i : ℕ) = slot n f k) : cells i = some l[k] :=
  h k l[k] (List.getElem?_eq_getElem hk) i hi

/-- Writing the next free slot appends. -/
theorem Segment.snoc {cells : Fin n → Option α} {f : ℕ} {l : List α}
    (h : Segment cells f l) (hlen : l.length < n) {i : Fin n}
    (hi : (i : ℕ) = slot n f l.length) (x : α) :
    Segment (Function.update cells i (some x)) f (l ++ [x]) := by
  intro k y hy j hj
  rcases Nat.lt_trichotomy k l.length with hk | rfl | hk
  · rw [List.getElem?_append_left hk] at hy
    have hne : j ≠ i := by
      rintro rfl
      have := slot_inj (by omega) hlen (hj.symm.trans hi)
      omega
    rw [Function.update_of_ne hne]
    exact h k y hy j hj
  · have hji : j = i := Fin.ext (hj.trans hi.symm)
    have hxy : x = y := by simpa using hy
    rw [hji, Function.update_self, hxy]
  · rw [List.getElem?_eq_none (by simp; omega)] at hy
    exact absurd hy (by simp)

/-- Advancing the start drops the head. -/
theorem Segment.tail {cells : Fin n → Option α} {f : ℕ} {x : α} {l : List α}
    (h : Segment cells f (x :: l)) : Segment cells ((f + 1) % n) l := by
  intro k y hy i hi
  refine h (k + 1) y (by simpa using hy) i ?_
  rw [hi, slot_of_next]

theorem Segment.take {cells : Fin n → Option α} {f : ℕ} {l : List α}
    (h : Segment cells f l) (m : ℕ) : Segment cells f (l.take m) := by
  intro k x hx i hi
  rw [List.getElem?_take] at hx
  split at hx
  · exact h k x hx i hi
  · exact absurd hx (by simp)

/-- Overwriting one slot of the segment overwrites one list element. -/
theorem Segment.set {cells : Fin n → Option α} {f : ℕ} {l : List α}
    (h : Segment cells f l) (hlen : l.length ≤ n) {j : ℕ} (hj : j < l.length)
    {i : Fin n} (hi : (i : ℕ) = slot n f j) (x : α) :
    Segment (Function.update cells i (some x)) f (l.set j x) := by
  intro k y hy m hm
  rw [List.getElem?_set] at hy
  by_cases hjk : j = k
  · subst hjk
    have hmi : m = i := Fin.ext (hm.trans hi.symm)
    have hxy : x = y := by simpa [hj] using hy
    rw [hmi, Function.update_self, hxy]
  · rw [if_neg hjk] at hy
    have hk : k < l.length := (List.getElem?_eq_some_iff.mp hy).1
    have hne : m ≠ i := by
      rintro rfl
      exact hjk (slot_inj (by omega) (by omega) (hi.symm.trans hm))
    rw [Function.update_of_ne hne]
    exact h k y hy m hm

/-- Writing a slot past the end of the segment leaves the segment alone. -/
theorem Segment.update_past {cells : Fin n → Option α} {f : ℕ} {l : List α}
    (h : Segment cells f l) (hlen : l.length < n) {i : Fin n}
    (hi : (i : ℕ) = slot n f l.length) (c : Option α) :
    Segment (Function.update cells i c) f l := by
  intro k x hx j hj
  have hk : k < l.length := (List.getElem?_eq_some_iff.mp hx).1
  have hne : j ≠ i := by
    rintro rfl
    have := slot_inj (by omega) hlen (hj.symm.trans hi)
    omega
  rw [Function.update_of_ne hne]
  exact h k x hx j hj

end OS2023.Lib
