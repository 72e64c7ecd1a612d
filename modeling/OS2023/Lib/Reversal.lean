import OS2023.Lib.Competitive
import Mathlib.Data.Fin.Rev

/-!
# Reference strings read backwards

A hit at `j` is a page that was kept since its last use: it is resident at every
boundary between the two references. Read backwards, the same page can be kept
over the same boundaries, and hits at the earlier of the two. So a schedule for a
reference string gives one for the reversed string with as many hits, and the
least number of faults is the same for both.
-/

namespace OS2023.Lib

open Finset

variable {α : Type*} {N F : ℕ} {w : Fin N → α} {R : ℕ → Finset α}

/-! ## Kept pages -/

/-- `q` is used at `i` and next at `j`, where it hits. -/
structure Kept (w : Fin N → α) (R : ℕ → Finset α) (q : α) (i j : Fin N) : Prop where
  last : LastUse w j q i
  eq : w j = q
  hit : q ∈ R j

theorem Kept.inj {q q' : α} {i j j' : Fin N} (h : Kept w R q i j) (h' : Kept w R q' i j') :
    j = j' := by
  have hq : q = q' := h.last.eq.symm.trans h'.last.eq
  subst hq
  rcases lt_trichotomy j j' with hlt | heq | hgt
  · exact absurd h.eq (h'.last.last j (Fin.lt_def.mpr h.last.lt) hlt)
  · exact heq
  · exact absurd h'.eq (h.last.last j' (Fin.lt_def.mpr h'.last.lt) hgt)

variable [DecidableEq α]

/-- A resident page has been referenced. -/
theorem Schedule.exists_use (hR : Schedule F w R) {k : ℕ} (hk : k ≤ N) {q : α}
    (hq : q ∈ R k) : ∃ j : Fin N, (j : ℕ) < k ∧ w j = q := by
  have hin := hR.subset_union (Nat.zero_le k) hk hq
  rw [hR.start, empty_union] at hin
  obtain ⟨j, -, hjk, hj⟩ := mem_upcoming.mp hin
  exact ⟨j, hjk, hj⟩

theorem Schedule.exists_kept (hR : Schedule F w R) {j : Fin N} (hj : w j ∈ R j) :
    ∃ i, Kept w R (w j) i j := by
  obtain ⟨i, hi⟩ := exists_lastUse (w := w) j j.isLt.le (hR.exists_use j.isLt.le hj)
  exact ⟨i, hi, rfl, hj⟩

/-- A kept page is resident all the way. -/
theorem Kept.resident (hR : Schedule F w R) {q : α} {i j : Fin N} (h : Kept w R q i j) {t : ℕ}
    (hit : (i : ℕ) < t) (htj : t ≤ j) : q ∈ R t := by
  rcases mem_union.mp (hR.subset_union htj j.isLt.le h.hit) with hres | hmet
  · exact hres
  · obtain ⟨l, htl, hlj, hl⟩ := mem_upcoming.mp hmet
    exact absurd hl (h.last.last l (Fin.lt_def.mpr (hit.trans_le htl)) hlj)

/-- The pages kept over boundary `t`, in front of reference `t`. -/
noncomputable def keptAt (w : Fin N → α) (R : ℕ → Finset α) (t : ℕ) : Finset α := by
  classical
  exact (univ.filter fun j : Fin N => ∃ i, Kept w R (w j) i j ∧ (i : ℕ) < t ∧ t ≤ j).image w

theorem mem_keptAt {t : ℕ} {q : α} :
    q ∈ keptAt w R t ↔ ∃ i j, Kept w R q i j ∧ (i : ℕ) < t ∧ t ≤ j := by
  classical
  unfold keptAt
  simp only [mem_image, mem_filter, mem_univ, true_and]
  constructor
  · rintro ⟨j, ⟨i, hkept, hit, htj⟩, rfl⟩
    exact ⟨i, j, hkept, hit, htj⟩
  · rintro ⟨i, j, hkept, hit, htj⟩
    obtain rfl := hkept.eq
    exact ⟨j, ⟨i, hkept, hit, htj⟩, rfl⟩

theorem keptAt_end : keptAt w R N = ∅ := by
  ext q
  rw [mem_keptAt]
  refine iff_of_false ?_ (notMem_empty q)
  rintro ⟨i, j, -, -, hj⟩
  exact absurd j.isLt (not_lt.mpr hj)

/-- Only the page referenced in between is no longer kept. -/
theorem keptAt_subset (t : Fin N) : keptAt w R t ⊆ insert (w t) (keptAt w R (t + 1)) := by
  intro q hq
  obtain ⟨i, j, hkept, hit, htj⟩ := mem_keptAt.mp hq
  rcases Nat.lt_or_eq_of_le htj with hlt | heq
  · exact mem_insert_of_mem (mem_keptAt.mpr ⟨i, j, hkept, Nat.lt_succ_of_lt hit, hlt⟩)
  · obtain rfl : t = j := Fin.ext heq
    rw [← hkept.eq]
    exact mem_insert_self _ _

/-- With the page of reference `t` the kept pages fit in front of it, where it
is resident already, or behind it. -/
theorem card_keptAt_le (hR : Schedule F w R) (t : Fin N) :
    (insert (w t) (keptAt w R t)).card ≤ F := by
  by_cases hhit : w t ∈ R t
  · obtain ⟨i, hi⟩ := hR.exists_kept hhit
    have hsub : insert (w t) (keptAt w R t) ⊆ R t := by
      refine insert_subset hhit fun q hq => ?_
      obtain ⟨i, j, hkept, hit, htj⟩ := mem_keptAt.mp hq
      exact hkept.resident hR hit htj
    -- the memory in front of `t` was left by the reference before it
    have hpos : 0 < (t : ℕ) := (Nat.zero_le _).trans_lt hi.last.lt
    have hstep := (hR.step ⟨t - 1, by omega⟩).card_le
    rw [show (t : ℕ) - 1 + 1 = t by omega] at hstep
    exact (card_le_card hsub).trans hstep
  · have hsub : insert (w t) (keptAt w R t) ⊆ R (t + 1) := by
      refine insert_subset (hR.step t).mem fun q hq => ?_
      obtain ⟨i, j, hkept, hit, htj⟩ := mem_keptAt.mp hq
      rcases Nat.lt_or_eq_of_le htj with hlt | heq
      · exact hkept.resident hR (Nat.lt_succ_of_lt hit) hlt
      · obtain rfl : t = j := Fin.ext heq
        exact absurd (hkept.eq.symm ▸ hkept.hit) hhit
    exact (card_le_card hsub).trans (hR.step t).card_le

/-! ## The reversed schedule -/

/-- What is resident after `k` references of the reversed string. -/
noncomputable def reversed (w : Fin N → α) (R : ℕ → Finset α) (k : ℕ) : Finset α :=
  if hk : N - k < N then insert (w ⟨N - k, hk⟩) (keptAt w R (N - k)) else keptAt w R (N - k)

theorem keptAt_subset_reversed (k : ℕ) : keptAt w R (N - k) ⊆ reversed w R k := by
  unfold reversed
  split
  · exact subset_insert _ _
  · exact Subset.refl _

theorem reversed_succ (i : Fin N) :
    reversed w R (i + 1) = insert (w i.rev) (keptAt w R i.rev) := by
  have hlt : N - (i + 1) < N := by have := i.isLt; omega
  unfold reversed
  rw [dif_pos hlt]
  rfl

theorem schedule_reversed (hR : Schedule F w R) :
    Schedule F (fun i => w i.rev) (reversed w R) where
  start := by
    unfold reversed
    rw [dif_neg (by simp), Nat.sub_zero, keptAt_end]
  step := by
    intro i
    rw [reversed_succ]
    refine ⟨mem_insert_self _ _, card_keptAt_le hR i.rev, ?_⟩
    refine insert_subset (mem_insert_self _ _) ?_
    have hrev : (i.rev : ℕ) + 1 = N - i := by
      have := Fin.val_rev i
      omega
    have hkept := keptAt_subset (w := w) (R := R) i.rev
    rw [hrev] at hkept
    exact hkept.trans (insert_subset_insert _ (keptAt_subset_reversed _))

/-- A memory that serves the reversed string and holds a page at the earlier of
two uses whenever it hits at the later one. -/
theorem faults_reverse_le_of_kept (hR : Schedule F w R) {S : ℕ → Finset α}
    (hS : ∀ i j : Fin N, Kept w R (w j) i j → w i ∈ S i.rev) :
    faults (fun i => w i.rev) S N ≤ faults w R N := by
  have hsplit : ∀ (v : Fin N → α) (S : ℕ → Finset α),
      (univ.filter fun j : Fin N => v j ∈ S j).card + faults v S N = N := by
    intro v S
    have hcard := card_filter_add_card_filter_not (s := (univ : Finset (Fin N)))
      fun j => v j ∈ S j
    rw [card_univ, Fintype.card_fin] at hcard
    unfold faults
    simpa using hcard
  have hprev : ∀ j : Fin N, ∃ i, w j ∈ R j → Kept w R (w j) i j := by
    intro j
    by_cases hj : w j ∈ R j
    · obtain ⟨i, hi⟩ := hR.exists_kept hj
      exact ⟨i, fun _ => hi⟩
    · exact ⟨j, fun hin => absurd hin hj⟩
  choose prev hprev using hprev
  have hhits : (univ.filter fun j : Fin N => w j ∈ R j).card ≤
      (univ.filter fun j : Fin N => w j.rev ∈ S j).card := by
    refine card_le_card_of_injOn (fun j => (prev j).rev) (fun j hj => ?_)
      fun j hj j' hj' heq => ?_
    · have hkept := hprev j (mem_filter.mp hj).2
      refine mem_filter.mpr ⟨mem_univ _, ?_⟩
      rw [Fin.rev_rev]
      exact hS _ _ hkept
    · have hkept := hprev j (mem_filter.mp hj).2
      have hkept' := hprev j' (mem_filter.mp hj').2
      rw [Fin.rev_injective heq] at hkept
      exact hkept.inj hkept'
  have hforth := hsplit w R
  have hback := hsplit (fun i => w i.rev) S
  omega

theorem faults_reversed_le (hR : Schedule F w R) :
    faults (fun i => w i.rev) (reversed w R) N ≤ faults w R N := by
  refine faults_reverse_le_of_kept hR fun i j hkept => ?_
  have hrev : N - (i.rev : ℕ) = i + 1 := by
    have := Fin.val_rev i
    have := i.isLt
    omega
  apply keptAt_subset_reversed
  rw [hrev, hkept.last.eq]
  exact mem_keptAt.mpr ⟨i, j, hkept, Nat.lt_succ_self _, hkept.last.lt⟩

/-- **The least number of faults is that of the reversed string.** -/
theorem faults_reverse_le {A : ℕ → Finset α} (hA : FarthestRun F (fun i => w i.rev) A)
    (hR : Schedule F w R) : faults (fun i => w i.rev) A N ≤ faults w R N :=
  (farthest_optimal hA (schedule_reversed hR) N le_rfl).trans (faults_reversed_le hR)

/-! ## The pages used last -/

/-- Between two uses of a page the same pages are met from either side. -/
theorem upcoming_reverse_subset {i j : Fin N} (hij : (i : ℕ) < j) (hw : w i = w j) :
    upcoming (fun i => w i.rev) j.rev i.rev ⊆ upcoming w i j := by
  intro q hq
  obtain ⟨l, hjl, hli, rfl⟩ := mem_upcoming.mp hq
  have hi := Fin.val_rev i
  have hj := Fin.val_rev j
  have hl := Fin.val_rev l
  rcases Nat.lt_or_eq_of_le hjl with hlt | heq
  · exact mem_upcoming.mpr ⟨l.rev, by omega, by omega, rfl⟩
  · -- the later use stands for the earlier one
    obtain rfl : l = j.rev := Fin.ext heq.symm
    refine mem_upcoming.mpr ⟨i, le_rfl, hij, ?_⟩
    rw [hw, Fin.rev_rev]

/-- **The pages used last hit as often in the reversed string.** -/
theorem faults_recency_reverse_le {S : ℕ → Finset α}
    (hR : ∀ k ≤ N, ∀ q, q ∈ R k ↔ q ∈ (recency w k).take F) (hsched : Schedule F w R)
    (hS : ∀ k ≤ N, ∀ q, q ∈ S k ↔ q ∈ (recency (fun i => w i.rev) k).take F) :
    faults (fun i => w i.rev) S N ≤ faults w R N := by
  refine faults_reverse_le_of_kept hsched fun i j hkept => ?_
  have hwi : w i = w j := hkept.last.eq
  have hmem := (hR j j.isLt.le _).mp hkept.hit
  have hfew := card_le_of_mem_recency j.isLt.le hkept.last hmem
  refine (hS i.rev i.rev.isLt.le _).mpr ((mem_recency_take_iff i.rev.isLt.le).mpr ?_)
  refine ⟨j.rev, ?_, ?_, ?_⟩
  · have := Fin.rev_lt_rev.mpr (Fin.lt_def.mpr hkept.last.lt)
    exact Fin.lt_def.mp this
  · show w j.rev.rev = w i
    rw [Fin.rev_rev, hwi]
  · exact (card_le_card (upcoming_reverse_subset hkept.last.lt hwi)).trans hfew

end OS2023.Lib
