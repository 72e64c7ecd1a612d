import Mathlib.Data.List.FinRange
import Mathlib.Data.Fin.Basic
import Mathlib.Logic.Function.Basic

/-!
# Bounded array loops

A C array of known length `n` is a function on `Fin n`; a loop
`for (j = 0; j < n; j++)` over it is a fold or a search over `List.finRange n`.
An index that the program computes is an `Int`, and `index` turns it into a
position of the array, or into `none` when it lies outside.

The search loops come in the three forms that C programs write by hand: stop
at the first match, keep the last match, keep the first maximum.
-/

namespace OS2023.Lib

/-! ## Computed indices -/

/-- The position denoted by a computed index, `none` outside the array. -/
def index (n : ℕ) (i : Int) : Option (Fin n) :=
  if h : 0 ≤ i ∧ i < n then some ⟨i.toNat, by omega⟩ else none

theorem index_eq_some {n : ℕ} {i : Int} {k : Fin n} :
    index n i = some k ↔ i = (k : ℕ) := by
  unfold index
  split
  · rename_i h
    rw [Option.some.injEq, Fin.ext_iff]
    simp only
    omega
  · rename_i h
    have := k.isLt
    simp only [reduceCtorEq, false_iff]
    omega

@[simp] theorem index_val {n : ℕ} (k : Fin n) : index n ((k : ℕ) : Int) = some k :=
  index_eq_some.mpr rfl

theorem index_natCast {n i : ℕ} (h : i < n) :
    index n (i : Int) = some ⟨i, h⟩ :=
  index_eq_some.mpr rfl

/-! ## Parts of an index range -/

variable {n : ℕ}

theorem take_succ_finRange {k : ℕ} (hk : k < n) :
    (List.finRange n).take (k + 1) = (List.finRange n).take k ++ [⟨k, hk⟩] := by
  rw [List.take_succ_eq_append_getElem (by simpa using hk)]
  simp

theorem drop_finRange {k : ℕ} (hk : k < n) :
    (List.finRange n).drop k = ⟨k, hk⟩ :: (List.finRange n).drop (k + 1) := by
  rw [List.drop_eq_getElem_cons (by simpa using hk)]
  simp

/-! ## Whole loops -/

/-- **The loop rule.** A loop whose body keeps `I` never fails, and keeps `I`
after every number of turns. -/
theorem loop_induction {σ : Type*} {body : σ → Fin n → Option σ} {init : σ}
    {I : ℕ → σ → Prop} (start : I 0 init)
    (turn : ∀ (i : Fin n) s, I i s → ∃ s', body s i = some s' ∧ I (i + 1) s') :
    ∀ k ≤ n, ∃ s, ((List.finRange n).take k).foldlM body init = some s ∧ I k s := by
  intro k
  induction k with
  | zero => exact fun _ => ⟨init, rfl, start⟩
  | succ k ih =>
      intro hk
      obtain ⟨s, hrun, hs⟩ := ih (Nat.le_of_succ_le hk)
      obtain ⟨s', hbody, hs'⟩ := turn ⟨k, hk⟩ s hs
      refine ⟨s', ?_, hs'⟩
      rw [take_succ_finRange hk, List.foldlM_append, hrun]
      simp [hbody]

/-! ## First match -/

/-- The loop that stops at the first position satisfying `p`. -/
def firstWhere (p : Fin n → Bool) : Option (Fin n) :=
  (List.finRange n).find? p

theorem firstWhere_eq_none {p : Fin n → Bool} :
    firstWhere p = none ↔ ∀ i, p i = false := by
  simp [firstWhere, List.find?_eq_none, List.mem_finRange]

theorem firstWhere_eq_some {p : Fin n → Bool} {i : Fin n} :
    firstWhere p = some i ↔ p i = true ∧ ∀ j < i, p j = false := by
  unfold firstWhere
  rw [List.find?_eq_some_iff_getElem]
  constructor
  · rintro ⟨hp, k, hk, hki, hlt⟩
    have hik : k = i := by simpa [Fin.ext_iff] using hki
    refine ⟨hp, fun j hj => ?_⟩
    have := hlt j (by rw [hik]; exact hj)
    simpa using this
  · rintro ⟨hp, hlt⟩
    refine ⟨hp, i, by simp, by simp, fun j hj => ?_⟩
    have := hlt ⟨j, by omega⟩ hj
    simpa using this

/-- A position that alone satisfies `p` is the one found. -/
theorem firstWhere_unique {p : Fin n → Bool} {i : Fin n} (hi : p i = true)
    (huniq : ∀ j, p j = true → j = i) : firstWhere p = some i := by
  refine firstWhere_eq_some.mpr ⟨hi, fun j hj => ?_⟩
  by_contra hne
  have := huniq j (by simpa using hne)
  omega

/-! ## Last match -/

/-- The loop without `break` that overwrites its result at every match: the
value at the last match, or the initial value `d`. -/
def lastMatch {β : Type*} (p : Fin n → Bool) (f : Fin n → β) (d : β) : β :=
  (List.finRange n).foldl (fun acc j => if p j then f j else acc) d

theorem foldl_keep {α β : Type*} (p : α → Bool) (f : α → β) (l : List α) (d : β)
    (h : ∀ a ∈ l, p a = false) :
    l.foldl (fun acc a => if p a then f a else acc) d = d := by
  induction l with
  | nil => rfl
  | cons a l ih =>
      rw [List.foldl_cons, h a List.mem_cons_self]
      exact ih fun b hb => h b (List.mem_cons_of_mem _ hb)

theorem foldl_unique {α β : Type*} {p : α → Bool} {f : α → β} {a : α}
    (ha : p a = true) :
    ∀ (l : List α) (d : β), a ∈ l → (∀ b ∈ l, p b = true → b = a) →
      l.foldl (fun acc b => if p b then f b else acc) d = f a := by
  intro l
  induction l with
  | nil => exact fun d hmem _ => absurd hmem List.not_mem_nil
  | cons b l ih =>
      intro d hmem huniq
      rw [List.foldl_cons]
      by_cases hrest : a ∈ l
      · exact ih _ hrest fun c hc => huniq c (List.mem_cons_of_mem _ hc)
      · have hab : a = b := (List.mem_cons.mp hmem).resolve_right hrest
        subst hab
        rw [if_pos ha]
        refine foldl_keep p f l _ fun c hc => ?_
        by_contra hne
        have hca := huniq c (List.mem_cons_of_mem _ hc) (by simpa using hne)
        exact hrest (hca ▸ hc)

theorem lastMatch_unique {β : Type*} {p : Fin n → Bool} {f : Fin n → β} {d : β}
    {i : Fin n} (hi : p i = true) (huniq : ∀ j, p j = true → j = i) :
    lastMatch p f d = f i :=
  foldl_unique hi _ d (List.mem_finRange i) (fun b _ => huniq b)

/-! ## First maximum -/

/-- One turn of the maximum search: `(best, where)` is replaced only by a
strictly larger value. -/
def maxTurn (d : Fin n → Int) (acc : Int × Int) (i : Fin n) : Int × Int :=
  if acc.1 < d i then (d i, (i : ℕ)) else acc

/-- The maximum search started from `(-1, 0)`, as C programs start it for
non-negative values. -/
def scanMax (d : Fin n → Int) : Int × Int :=
  (List.finRange n).foldl (maxTurn d) (-1, 0)

/-- A maximum search that has seen position `m` keeps a seen position whose
value bounds everything seen. -/
theorem foldl_maxTurn (d : Fin n → Int) :
    ∀ (l : List (Fin n)) (m : Fin n), ∃ k : Fin n,
      l.foldl (maxTurn d) (d m, ((m : ℕ) : Int)) = (d k, ((k : ℕ) : Int)) ∧
        d m ≤ d k ∧ ∀ i ∈ l, d i ≤ d k := by
  intro l
  induction l with
  | nil => exact fun m => ⟨m, rfl, le_rfl, by simp⟩
  | cons i l ih =>
      intro m
      rw [List.foldl_cons, maxTurn]
      by_cases h : d m < d i
      · rw [if_pos h]
        obtain ⟨k, hk, hik, hl⟩ := ih i
        refine ⟨k, hk, by omega, ?_⟩
        rintro j hj
        rcases List.mem_cons.mp hj with rfl | hj
        · exact hik
        · exact hl j hj
      · rw [if_neg h]
        obtain ⟨k, hk, hmk, hl⟩ := ih m
        refine ⟨k, hk, hmk, ?_⟩
        rintro j hj
        rcases List.mem_cons.mp hj with rfl | hj
        · omega
        · exact hl j hj

/-- On a non-empty array of non-negative values the search ends at a position
that carries the maximum. -/
theorem scanMax_spec (hn : 0 < n) (d : Fin n → Int) (hd : ∀ i, 0 ≤ d i) :
    ∃ k : Fin n, scanMax d = (d k, ((k : ℕ) : Int)) ∧ ∀ i, d i ≤ d k := by
  obtain ⟨m, rfl⟩ : ∃ m, n = m + 1 := ⟨n - 1, by omega⟩
  unfold scanMax
  rw [List.finRange_succ, List.foldl_cons]
  have h0 : maxTurn d (-1, 0) 0 = (d 0, (((0 : Fin (m + 1)) : ℕ) : Int)) := by
    have := hd 0
    rw [maxTurn, if_pos (by show (-1 : Int) < d 0; omega)]
  rw [h0]
  obtain ⟨k, hk, h0k, hl⟩ := foldl_maxTurn d ((List.finRange m).map Fin.succ) 0
  refine ⟨k, hk, fun i => ?_⟩
  rcases Fin.eq_zero_or_eq_succ i with rfl | ⟨j, rfl⟩
  · exact h0k
  · exact hl _ (List.mem_map.mpr ⟨j, List.mem_finRange j, rfl⟩)

end OS2023.Lib
