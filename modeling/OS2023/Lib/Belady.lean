import OS2023.Lib.Loops
import Mathlib.Data.Finset.Card
import Mathlib.Data.Fintype.Basic
import Mathlib.Order.Interval.Finset.Nat

/-!
# Farthest-in-future replacement is optimal

Resident sets over a reference string `w : Fin N → α`, for any page type `α`.
A `Schedule` is any demand-paging behaviour within `F` frames: it starts empty,
holds the page just referenced, and takes in no other page. A `FarthestRun`
keeps a page as long as it can and, when it must give one up, gives up a page
that is not referenced before all other resident ones are.

`farthest_optimal` says that no schedule has fewer faults. The proof carries
one inequality along the string, for every horizon `t`: the pages needed before
`t` that the competitor holds, plus our faults so far, never exceed the pages
needed before `t` that we hold, plus the competitor's faults. Both sides move
alike on every reference; an eviction only matters for horizons by which every
resident page is needed, and there both memories are full.
-/

namespace OS2023.Lib

open Finset

variable {α : Type*} [DecidableEq α] {N F : ℕ}

/-! ## Schedules and their faults -/

/-- One reference to `p` served by demand paging. -/
structure DemandStep (F : ℕ) (p : α) (B B' : Finset α) : Prop where
  mem : p ∈ B'
  card_le : B'.card ≤ F
  gain : B' ⊆ insert p B

/-- A demand-paging schedule: `R k` is resident after `k` references. -/
structure Schedule (F : ℕ) (w : Fin N → α) (R : ℕ → Finset α) : Prop where
  start : R 0 = ∅
  step : ∀ i : Fin N, DemandStep F (w i) (R i) (R (i + 1))

/-- The faults among the first `k` references. -/
def faults (w : Fin N → α) (R : ℕ → Finset α) (k : ℕ) : ℕ :=
  (univ.filter fun j : Fin N => (j : ℕ) < k ∧ w j ∉ R j).card

@[simp] theorem faults_zero (w : Fin N → α) (R : ℕ → Finset α) : faults w R 0 = 0 := by
  simp [faults]

theorem faults_succ (w : Fin N → α) (R : ℕ → Finset α) (i : Fin N) :
    faults w R (i + 1) = faults w R i + if w i ∈ R i then 0 else 1 := by
  unfold faults
  by_cases hi : w i ∈ R i
  · have hsame : (univ.filter fun j : Fin N => (j : ℕ) < i + 1 ∧ w j ∉ R j) =
        univ.filter fun j : Fin N => (j : ℕ) < i ∧ w j ∉ R j := by
      ext j
      simp only [mem_filter, mem_univ, true_and, and_congr_left_iff]
      intro hj
      have hne : j ≠ i := by
        rintro rfl
        exact hj hi
      have := Fin.val_ne_of_ne hne
      omega
    rw [hsame, if_pos hi, Nat.add_zero]
  · rw [if_neg hi, ← card_insert_of_notMem (a := i) (by simp)]
    refine congrArg card ?_
    ext j
    simp only [mem_filter, mem_univ, true_and, mem_insert]
    constructor
    · rintro ⟨hlt, hj⟩
      rcases Nat.lt_or_ge j i with h | h
      · exact Or.inr ⟨h, hj⟩
      · exact Or.inl (Fin.ext (by omega))
    · rintro (rfl | ⟨hlt, hj⟩)
      · exact ⟨Nat.lt_succ_self _, hi⟩
      · exact ⟨by omega, hj⟩

/-- A memory that holds more at every reference has fewer faults. -/
theorem faults_anti (w : Fin N → α) {R R' : ℕ → Finset α}
    (h : ∀ j : Fin N, R j ⊆ R' j) (k : ℕ) : faults w R' k ≤ faults w R k := by
  refine card_le_card fun j hj => ?_
  rw [mem_filter] at hj ⊢
  exact ⟨hj.1, hj.2.1, fun hmem => hj.2.2 (h j hmem)⟩

/-! ## What is needed before a horizon -/

/-- The pages referenced at the indices from `i` up to `t`. -/
def upcoming (w : Fin N → α) (i t : ℕ) : Finset α :=
  (univ.filter fun j : Fin N => i ≤ (j : ℕ) ∧ (j : ℕ) < t).image w

theorem mem_upcoming {w : Fin N → α} {i t : ℕ} {q : α} :
    q ∈ upcoming w i t ↔ ∃ j : Fin N, i ≤ (j : ℕ) ∧ (j : ℕ) < t ∧ w j = q := by
  simp [upcoming, and_assoc]

theorem upcoming_self (w : Fin N → α) (k : ℕ) : upcoming w k k = ∅ := by
  ext q
  rw [mem_upcoming]
  simp only [notMem_empty, iff_false]
  rintro ⟨j, h1, h2, -⟩
  omega

theorem upcoming_eq_insert (w : Fin N → α) (i : Fin N) {t : ℕ} (ht : (i : ℕ) < t) :
    upcoming w i t = insert (w i) (upcoming w (i + 1) t) := by
  ext q
  rw [mem_insert, mem_upcoming, mem_upcoming]
  constructor
  · rintro ⟨j, hij, hjt, rfl⟩
    rcases Nat.lt_or_ge i j with h | h
    · exact Or.inr ⟨j, h, hjt, rfl⟩
    · have : j = i := Fin.ext (by omega)
      exact Or.inl (by rw [this])
  · rintro (rfl | ⟨j, hij, hjt, rfl⟩)
    · exact ⟨i, le_rfl, ht, rfl⟩
    · exact ⟨j, by omega, hjt, rfl⟩

/-- Every later horizon set is the current one without the current page. -/
theorem exists_upcoming_eq_insert (w : Fin N → α) (i : Fin N) (t : ℕ) :
    ∃ u, upcoming w i u = insert (w i) (upcoming w (i + 1) t) := by
  rcases Nat.lt_or_ge i t with h | h
  · exact ⟨t, upcoming_eq_insert w i h⟩
  · refine ⟨i + 1, (upcoming_eq_insert w i (Nat.lt_succ_self _)).trans ?_⟩
    congr 1
    ext q
    rw [mem_upcoming, mem_upcoming]
    constructor
    · rintro ⟨j, h1, h2, -⟩
      omega
    · rintro ⟨j, h1, h2, -⟩
      omega

/-- The first index from `i` on that references `q`. -/
def nextUse (w : Fin N → α) (i : ℕ) (q : α) : Option (Fin N) :=
  firstWhere fun j => i ≤ (j : ℕ) && w j == q

theorem nextUse_of_eq {w : Fin N → α} {i : ℕ} (hi : i < N) {q : α} (h : w ⟨i, hi⟩ = q) :
    nextUse w i q = some ⟨i, hi⟩ := by
  refine firstWhere_eq_some.mpr ⟨by simp [h], fun j hj => ?_⟩
  simp only [Bool.and_eq_false_imp, decide_eq_true_eq]
  intro hij
  exact absurd (Fin.lt_def.mp hj) (by simpa using hij)

theorem nextUse_of_ne {w : Fin N → α} {i : ℕ} (hi : i < N) {q : α} (h : w ⟨i, hi⟩ ≠ q) :
    nextUse w i q = nextUse w (i + 1) q := by
  unfold nextUse
  congr 1
  funext j
  by_cases hj : (j : ℕ) = i
  · subst hj
    simp [h]
  · have : i ≤ j ↔ i + 1 ≤ j := by omega
    simp only [this]

theorem nextUse_end (w : Fin N → α) (q : α) : nextUse w N q = none := by
  refine firstWhere_eq_none.mpr fun j => ?_
  have := j.isLt
  simp

theorem mem_upcoming_iff_nextUse {w : Fin N → α} {i t : ℕ} {q : α} :
    q ∈ upcoming w i t ↔ ∃ j, nextUse w i q = some j ∧ (j : ℕ) < t := by
  rw [mem_upcoming]
  constructor
  · rintro ⟨j, hij, hjt, hq⟩
    cases huse : nextUse w i q with
    | none =>
        have := firstWhere_eq_none.mp huse j
        simp [hij, hq] at this
    | some k =>
        refine ⟨k, rfl, ?_⟩
        by_contra hkt
        have := (firstWhere_eq_some.mp huse).2 j (Fin.lt_def.mpr (by omega))
        simp [hij, hq] at this
  · rintro ⟨j, huse, hjt⟩
    have := (firstWhere_eq_some.mp huse).1
    simp only [Bool.and_eq_true, decide_eq_true_eq, beq_iff_eq] at this
    exact ⟨j, this.1, hjt, this.2⟩

theorem nextUse_rename {β : Type*} [DecidableEq β] {g : α → β} (hg : Function.Injective g)
    {w : Fin N → α} {w' : Fin N → β} (hw : ∀ i, w' i = g (w i)) (i : ℕ) (q : α) :
    nextUse w' i (g q) = nextUse w i q := by
  unfold nextUse
  congr 1
  funext j
  rw [hw j, Bool.eq_iff_iff, Bool.and_eq_true, Bool.and_eq_true, beq_iff_eq, beq_iff_eq,
    hg.eq_iff]

theorem eq_of_nextUse {w : Fin N → α} {i : ℕ} {q : α} {j : Fin N}
    (h : nextUse w i q = some j) : w j = q := by
  have := (firstWhere_eq_some.mp h).1
  simp only [Bool.and_eq_true, beq_iff_eq] at this
  exact this.2

theorem le_of_nextUse {w : Fin N → α} {i : ℕ} {q : α} {j : Fin N}
    (h : nextUse w i q = some j) : i ≤ j := by
  have := (firstWhere_eq_some.mp h).1
  simp only [Bool.and_eq_true, decide_eq_true_eq] at this
  exact this.1

/-! ## Farthest-in-future -/

/-- One reference at index `i` under farthest-in-future replacement. -/
inductive FarthestStep (F : ℕ) (w : Fin N → α) (i : Fin N) (A : Finset α) :
    Finset α → Prop where
  | hit (mem : w i ∈ A) : FarthestStep F w i A A
  | load (fresh : w i ∉ A) (room : A.card < F) : FarthestStep F w i A (insert (w i) A)
  | evict (q : α) (fresh : w i ∉ A) (full : A.card = F) (mem : q ∈ A)
      (farthest : ∀ t, q ∈ upcoming w (i + 1) t → A ⊆ upcoming w (i + 1) t) :
      FarthestStep F w i A (insert (w i) (A.erase q))

structure FarthestRun (F : ℕ) (w : Fin N → α) (A : ℕ → Finset α) : Prop where
  start : A 0 = ∅
  step : ∀ i : Fin N, FarthestStep F w i (A i) (A (i + 1))

/-- What the horizon set `V` counts after a reference to `p` against what
`insert p V` counted before, for a memory that takes in `p` and nothing else. -/
theorem card_inter_insert_le {p : α} {B B' V : Finset α} (gain : B' ⊆ insert p B) :
    (B' ∩ V).card + (if p ∈ B then 1 else 0) ≤
      (B ∩ insert p V).card + (if p ∈ V then 1 else 0) := by
  have hout : (B' ∩ V).card ≤ ((B ∩ V).erase p).card + if p ∈ V then 1 else 0 := by
    have hsub : (B' ∩ V).erase p ⊆ (B ∩ V).erase p := by
      intro x hx
      rw [mem_erase, mem_inter] at hx
      have hxB := (mem_insert.mp (gain hx.2.1)).resolve_left hx.1
      exact mem_erase.mpr ⟨hx.1, mem_inter.mpr ⟨hxB, hx.2.2⟩⟩
    have hle := card_le_card hsub
    by_cases hV : p ∈ V
    · rw [if_pos hV]
      have := pred_card_le_card_erase (s := B' ∩ V) (a := p)
      omega
    · rw [if_neg hV]
      rw [erase_eq_of_notMem (fun h => hV (mem_inter.mp h).2)] at hle
      omega
  have hin : (B ∩ insert p V).card = ((B ∩ V).erase p).card + if p ∈ B then 1 else 0 := by
    have heq : (B ∩ insert p V).erase p = (B ∩ V).erase p := by
      ext x
      simp only [mem_erase, mem_inter, mem_insert]
      tauto
    by_cases hB : p ∈ B
    · have hmem : p ∈ B ∩ insert p V := mem_inter.mpr ⟨hB, mem_insert_self p V⟩
      rw [if_pos hB, ← heq, card_erase_add_one hmem]
    · have hnot : p ∉ B ∩ insert p V := fun h => hB (mem_inter.mp h).1
      rw [if_neg hB, ← heq, erase_eq_of_notMem hnot, Nat.add_zero]
  omega

/-- For a memory that drops nothing this is an equality. -/
theorem card_inter_insert_eq (p : α) (A V : Finset α) :
    (insert p A ∩ V).card + (if p ∈ A then 1 else 0) =
      (A ∩ insert p V).card + (if p ∈ V then 1 else 0) := by
  have h₁ := card_inter_insert_le (V := V) (Subset.refl (insert p A))
  have h₂ := card_inter_insert_le (V := A) (Subset.refl (insert p V))
  rw [inter_comm (insert p V) A, inter_comm V (insert p A)] at h₂
  omega

/-- The inequality carried along the reference string. -/
def Ahead (w : Fin N → α) (A R : ℕ → Finset α) (k : ℕ) : Prop :=
  ∀ t, faults w A k + (R k ∩ upcoming w k t).card ≤
    faults w R k + (A k ∩ upcoming w k t).card

theorem Ahead.faults_le {w : Fin N → α} {A R : ℕ → Finset α} {k : ℕ}
    (h : Ahead w A R k) : faults w A k ≤ faults w R k := by
  have := h k
  rw [upcoming_self, inter_empty, inter_empty] at this
  omega

/-- A reference that drops nothing keeps the inequality. -/
theorem Ahead.keep {w : Fin N → α} {A R : ℕ → Finset α} {i : Fin N}
    (h : Ahead w A R i) (hR : DemandStep F (w i) (R i) (R (i + 1))) (t : ℕ) :
    faults w A (i + 1) + (R (i + 1) ∩ upcoming w (i + 1) t).card ≤
      faults w R (i + 1) + (insert (w i) (A i) ∩ upcoming w (i + 1) t).card := by
  obtain ⟨u, hu⟩ := exists_upcoming_eq_insert w i t
  have hle := card_inter_insert_le (V := upcoming w (i + 1) t) hR.gain
  have heq := card_inter_insert_eq (w i) (A i) (upcoming w (i + 1) t)
  have hinv := h u
  rw [hu] at hinv
  rw [faults_succ, faults_succ]
  split_ifs at hle heq ⊢ <;> omega

/-- On a fault of ours the competitor has faulted as often: it faults too, or it
was a fault behind, holding a page that we do not. -/
theorem Ahead.faults_succ_le {w : Fin N → α} {A R : ℕ → Finset α} {i : Fin N}
    (h : Ahead w A R i) (fresh : w i ∉ A i) : faults w A (i + 1) ≤ faults w R (i + 1) := by
  have hone := h (i + 1)
  rw [upcoming_eq_insert w i (Nat.lt_succ_self _), upcoming_self, insert_empty_eq,
    inter_singleton_of_notMem fresh, card_empty] at hone
  rw [faults_succ, faults_succ, if_neg fresh]
  by_cases hp : w i ∈ R i
  · rw [inter_singleton_of_mem hp, card_singleton] at hone
    rw [if_pos hp]
    omega
  · rw [if_neg hp]
    omega

/-- What a full memory holds of a horizon set that has all its pages, after it
has exchanged one of them for `p`. -/
theorem card_exchange_inter {p q : α} {A V : Finset α} (fresh : p ∉ A) (mem : q ∈ A)
    (hV : A ⊆ V) :
    (insert p (A.erase q) ∩ V).card + 1 = A.card + if p ∈ V then 1 else 0 := by
  have hsub : A.erase q ∩ V = A.erase q :=
    inter_eq_left.mpr ((erase_subset q A).trans hV)
  have hcard : (A.erase q).card + 1 = A.card := card_erase_add_one mem
  have hnot : p ∉ A.erase q := fun hin => fresh (mem_of_mem_erase hin)
  split_ifs with hp
  · rw [insert_inter_of_mem hp, hsub, card_insert_of_notMem hnot]
    omega
  · rw [insert_inter_of_notMem hp, hsub]
    omega

/-- A memory cannot hold more of a horizon set than its frames allow; one frame
holds the page just referenced. -/
theorem DemandStep.card_inter_le {p : α} {B B' : Finset α} (h : DemandStep F p B B')
    (V : Finset α) : (B' ∩ V).card + 1 ≤ F + if p ∈ V then 1 else 0 := by
  have hF := h.card_le
  split_ifs with hV
  · have hle : (B' ∩ V).card ≤ B'.card := card_le_card inter_subset_left
    omega
  · have hlt : B' ∩ V ⊂ B' :=
      ⟨inter_subset_left, fun hsub => hV (mem_inter.mp (hsub h.mem)).2⟩
    have := card_lt_card hlt
    omega

/-- Giving up a page outside of the horizon set does not show in it. -/
theorem exchange_inter_of_notMem {p q : α} {A V : Finset α} (hq : q ∉ V) :
    insert p (A.erase q) ∩ V = insert p A ∩ V := by
  ext x
  simp only [mem_inter, mem_insert, mem_erase]
  constructor
  · rintro ⟨rfl | ⟨-, hx⟩, hV⟩
    · exact ⟨Or.inl rfl, hV⟩
    · exact ⟨Or.inr hx, hV⟩
  · rintro ⟨rfl | hx, hV⟩
    · exact ⟨Or.inl rfl, hV⟩
    · exact ⟨Or.inr ⟨fun heq => hq (heq ▸ hV), hx⟩, hV⟩

theorem Ahead.step {w : Fin N → α} {A R : ℕ → Finset α} {i : Fin N}
    (h : Ahead w A R i) (hA : FarthestStep F w i (A i) (A (i + 1)))
    (hR : DemandStep F (w i) (R i) (R (i + 1))) : Ahead w A R (i + 1) := by
  intro t
  have hkeep := h.keep hR t
  generalize hA' : A (i + 1) = A' at hA ⊢
  cases hA with
  | hit mem => rwa [insert_eq_of_mem mem] at hkeep
  | load fresh room => exact hkeep
  | evict q fresh full mem farthest =>
      by_cases hq : q ∈ upcoming w (i + 1) t
      · -- every resident page is needed before `t`, and both memories are full
        have hfaults := h.faults_succ_le fresh
        have hours := card_exchange_inter fresh mem (farthest t hq)
        have htheirs := hR.card_inter_le (upcoming w (i + 1) t)
        rw [full] at hours
        omega
      · rw [exchange_inter_of_notMem hq]
        exact hkeep

/-- **Farthest-in-future is optimal.** Against any demand-paging schedule in
the same number of frames, at every point of the reference string. -/
theorem farthest_optimal {w : Fin N → α} {A R : ℕ → Finset α}
    (hA : FarthestRun F w A) (hR : Schedule F w R) :
    ∀ k ≤ N, faults w A k ≤ faults w R k := by
  have hahead : ∀ k ≤ N, Ahead w A R k := by
    intro k
    induction k with
    | zero =>
        intro _ t
        simp [hA.start, hR.start]
    | succ k ih =>
        intro hk
        exact (ih (by omega)).step (i := ⟨k, hk⟩) (hA.step ⟨k, hk⟩) (hR.step ⟨k, hk⟩)
  exact fun k hk => (hahead k hk).faults_le

end OS2023.Lib
