import OS2023.Lib.Clock
import OS2023.Lib.Competitive

/-!
# The clock in a window of few pages

The clock loads a page with bit 0, so that a page loaded in a window can be
given up in the same window before it is referenced again: the clock is not
conservative. It still has at most two faults for each frame in a window of at
most `F` pages.

The hand is followed around the circle from where it stood in front of the
window. A frame that it has passed once holds a page of the window or has bit 0;
a frame that it has passed twice holds a page of the window. Every fault moves
the hand, and after two turns all pages of the window are in memory.
-/

namespace OS2023.Lib

open Finset

variable {F N : ℕ} {α : Type*}

/-! ## Filling up -/

/-- The free frames are the last ones, with bit 0, and the hand is at the first
of them; no page is in two frames. -/
structure Clock.Filled (k : Clock F α) : Prop where
  free : ∃ n, (∀ i : Fin F, k.pages i = none ↔ n ≤ (i : ℕ)) ∧ (n < F → (k.hand : ℕ) = n)
  clear : ∀ i, k.pages i = none → k.bits i = false
  inj : ∀ i j q, k.pages i = some q → k.pages j = some q → i = j

theorem Clock.filled_start (hF : 0 < F) : (Clock.start hF : Clock F α).Filled where
  free := ⟨0, fun i => by simp [start], fun _ => rfl⟩
  clear := fun _ _ => rfl
  inj := fun i j q hi => by simp [start] at hi

section Load

variable {k : Clock F α} {p : α}

/-- Loading a page that is not in memory at the hand. -/
theorem Clock.Filled.load (h : k.Filled) (hp : ∀ i, k.pages i ≠ some p) :
    (k.load p k.hand).Filled where
  free := by
    obtain ⟨n, hfree, hhand⟩ := h.free
    rcases Nat.lt_or_ge n F with hn | hn
    · refine ⟨n + 1, fun i => ?_, fun hlt => ?_⟩
      · by_cases hi : i = k.hand
        · subst hi
          have := hhand hn
          simp [Clock.load]
          omega
        · have hne : (i : ℕ) ≠ n := fun heq => hi (Fin.ext (heq.trans (hhand hn).symm))
          rw [show (k.load p k.hand).pages i = k.pages i from Function.update_of_ne hi _ _,
            hfree i]
          omega
      · show ((k.hand : ℕ) + 1) % F = n + 1
        rw [hhand hn, Nat.mod_eq_of_lt hlt]
    · refine ⟨F, fun i => ?_, fun hlt => absurd hlt (lt_irrefl F)⟩
      have hfull : ∀ i, k.pages i ≠ none := fun i hnone =>
        absurd ((hfree i).mp hnone) (not_le.mpr (i.isLt.trans_le hn))
      refine iff_of_false (fun hnone => ?_) (not_le.mpr i.isLt)
      by_cases hi : i = k.hand
      · subst hi
        simp [Clock.load] at hnone
      · rw [show (k.load p k.hand).pages i = k.pages i from Function.update_of_ne hi _ _]
          at hnone
        exact hfull i hnone
  clear := by
    intro i hnone
    by_cases hi : i = k.hand
    · subst hi
      exact Function.update_self _ _ _
    · have hold : k.pages i = none := by
        rw [← hnone]
        exact (Function.update_of_ne hi _ _).symm
      exact (Function.update_of_ne hi _ _).trans (h.clear i hold)
  inj := by
    have hplace : ∀ i q, (k.load p k.hand).pages i = some q →
        (i = k.hand ∧ q = p) ∨ (k.pages i = some q ∧ q ≠ p) := by
      intro i q hq
      by_cases hi : i = k.hand
      · subst hi
        left
        simpa [Clock.load, eq_comm] using hq
      · rw [show (k.load p k.hand).pages i = k.pages i from Function.update_of_ne hi _ _] at hq
        exact Or.inr ⟨hq, fun heq => hp i (heq ▸ hq)⟩
    intro i j q hi hj
    rcases hplace i q hi with ⟨hi, hq⟩ | ⟨hi, hq⟩
    · rcases hplace j q hj with ⟨hj, -⟩ | ⟨-, hq'⟩
      · exact hi.trans hj.symm
      · exact absurd hq hq'
    · rcases hplace j q hj with ⟨-, hq'⟩ | ⟨hj, -⟩
      · exact absurd hq' hq
      · exact h.inj i j q hi hj

/-- The clock when the hand has come to a stop. -/
def Clock.stop (k : Clock F α) : Clock F α where
  pages := k.pages
  bits := (sweep k.bits k.hand).1
  hand := (sweep k.bits k.hand).2

theorem Clock.Filled.stop (h : k.Filled) : k.stop.Filled where
  free := by
    obtain ⟨n, hfree, hhand⟩ := h.free
    refine ⟨n, hfree, fun hn => ?_⟩
    have hnone : k.pages k.hand = none := (hfree k.hand).mpr (hhand hn).ge
    show ((sweep k.bits k.hand).2 : ℕ) = n
    rw [sweep_of_clear (h.clear k.hand hnone)]
    exact hhand hn
  clear := by
    intro i hnone
    have hclear := h.clear i hnone
    rw [← Bool.not_eq_true]
    intro hset
    exact absurd ((sweep_bits _ _ i).mp hset).1 (by simp [hclear])
  inj := h.inj

variable [DecidableEq α]

/-- A fault moves the hand to its stop and loads there, also while frames are
free. -/
theorem Clock.Filled.access_fault (h : k.Filled) (hp : ∀ i, k.pages i ≠ some p) :
    k.access p = (false, k.stop.hand, k.stop.load p k.stop.hand) := by
  obtain ⟨n, hfree, hhand⟩ := h.free
  have hmiss : (firstWhere fun i => k.pages i == some p) = none :=
    firstWhere_eq_none.mpr fun i => by simp [hp i]
  unfold Clock.access
  rw [hmiss]
  rcases Nat.lt_or_ge n F with hn | hn
  · -- the hand is at the lowest free frame, whose bit is 0
    have hnone : k.pages k.hand = none := (hfree k.hand).mpr (hhand hn).ge
    have hfirst : (firstWhere fun i => k.pages i == none) = some k.hand := by
      refine firstWhere_eq_some.mpr ⟨by simp [hnone], fun j hj => ?_⟩
      have hlt : ¬ n ≤ (j : ℕ) := by
        have := Fin.lt_def.mp hj
        have := hhand hn
        omega
      exact beq_eq_false_iff_ne.mpr fun hj => hlt ((hfree j).mp hj)
    have hstop : k.stop = k := by
      unfold Clock.stop
      rw [sweep_of_clear (h.clear k.hand hnone)]
    rw [hfirst, hstop]
  · have hfull : (firstWhere fun i => k.pages i == none) = none := by
      refine firstWhere_eq_none.mpr fun i => ?_
      exact beq_eq_false_iff_ne.mpr fun hi =>
        absurd ((hfree i).mp hi) (not_le.mpr (i.isLt.trans_le hn))
    rw [hfull]
    rfl

/-- A hit sets a bit of a frame that holds the page. -/
theorem Clock.access_hit {i : Fin F} (hi : k.pages i = some p) :
    ∃ j, k.pages j = some p ∧
      k.access p = (true, j, { k with bits := Function.update k.bits j true }) := by
  cases hfirst : firstWhere fun i => k.pages i == some p with
  | none =>
      have := firstWhere_eq_none.mp hfirst i
      simp [hi] at this
  | some j =>
      refine ⟨j, by simpa using (firstWhere_eq_some.mp hfirst).1, ?_⟩
      unfold Clock.access
      rw [hfirst]

theorem Clock.Filled.access (h : k.Filled) (p : α) : (k.access p).2.2.Filled := by
  by_cases hp : ∃ i, k.pages i = some p
  · obtain ⟨i, hi⟩ := hp
    obtain ⟨j, hj, hacc⟩ := Clock.access_hit hi
    rw [hacc]
    refine ⟨h.free, fun i hnone => ?_, h.inj⟩
    have hne : i ≠ j := by
      rintro rfl
      simp [hj] at hnone
    exact (Function.update_of_ne hne _ _).trans (h.clear i hnone)
  · rw [h.access_fault (not_exists.mp hp)]
    exact h.stop.load (not_exists.mp hp)

end Load

/-! ## Turns of the hand -/

theorem slot_add_self (f k : ℕ) : slot F f (k + F) = slot F f k := by
  unfold slot
  rw [← Nat.add_assoc, Nat.add_mod_right]

theorem exists_slot (h₀ i : Fin F) : ∃ j < F, slot F h₀ j = i := by
  have hmem : (i : ℕ) ∈ cycle F h₀ := (cycle_perm h₀).mem_iff.mpr (List.mem_range.mpr i.isLt)
  obtain ⟨j, hj, heq⟩ := List.mem_map.mp hmem
  exact ⟨j, List.mem_range.mp hj, heq⟩

/-- The hand has gone `m` frames from `h₀` in a window of the pages `W`. -/
structure Passed (W : Finset α) (h₀ : Fin F) (m : ℕ) (k : Clock F α) : Prop where
  hand : (k.hand : ℕ) = slot F h₀ m
  once : ∀ (i : Fin F) j, j < m → slot F h₀ j = i → k.bits i = true →
    ∃ q ∈ W, k.pages i = some q
  twice : ∀ (i : Fin F) j, j + F < m → slot F h₀ j = i → ∃ q ∈ W, k.pages i = some q

section Turns

variable {W : Finset α} {h₀ : Fin F} {m : ℕ} {k : Clock F α}

theorem Passed.start (W : Finset α) (k : Clock F α) : Passed W k.hand 0 k where
  hand := (slot_zero k.hand.isLt).symm
  once := fun _ _ hj => absurd hj (Nat.not_lt_zero _)
  twice := fun _ _ hj => absurd hj (Nat.not_lt_zero _)

/-- The hand goes on by one frame. What it has passed stays as it was, but for
the frame it leaves, which has bit 0 now and, the second time, a page of the
window. -/
theorem Passed.advance (h : Passed W h₀ m k) {k' : Clock F α} (hhand : k'.hand = next k.hand)
    (hbits : ∀ i, i ≠ k.hand → k'.bits i = k.bits i) (hclear : k'.bits k.hand = false)
    (hpages : ∀ i, i ≠ k.hand → k'.pages i = k.pages i)
    (hpage : (∃ q ∈ W, k'.pages k.hand = some q) ∨
      (k'.pages k.hand = k.pages k.hand ∧ k.bits k.hand = true)) :
    Passed W h₀ (m + 1) k' where
  hand := by
    rw [hhand, ← slot_add_one_mod, ← h.hand]
    rfl
  once := by
    intro i j hj hi hset
    by_cases hih : i = k.hand
    · rw [hih, hclear] at hset
      exact absurd hset (by decide)
    · have hjm : j < m := by
        refine lt_of_le_of_ne (Nat.le_of_lt_succ hj) fun heq => hih (Fin.ext ?_)
        rw [← hi, h.hand, heq]
      rw [hpages i hih]
      exact h.once i j hjm hi (by rw [← hbits i hih, hset])
  twice := by
    intro i j hj hi
    by_cases hih : i = k.hand
    · subst hih
      rcases hpage with hpage | ⟨hsame, hset⟩
      · exact hpage
      · -- the frame was passed before with its page, and the bit was set since
        rw [hsame]
        have hF : 0 < F := h₀.pos
        exact h.once k.hand j (by omega) hi hset
    · have hjm : j + F < m := by
        refine lt_of_le_of_ne (Nat.le_of_lt_succ hj) fun heq => hih (Fin.ext ?_)
        rw [← hi, h.hand, ← heq, slot_add_self]
      rw [hpages i hih]
      exact h.twice i j hjm hi

theorem Passed.sweep (pages : Fin F → Option α) (bits : Fin F → Bool) (hand : Fin F) :
    ∀ m, Passed W h₀ m ⟨pages, bits, hand⟩ → ∃ m', m ≤ m' ∧
      Passed W h₀ m' (⟨pages, bits, hand⟩ : Clock F α).stop := by
  induction bits, hand using sweep.induct with
  | case1 bits hand hb ih =>
      intro m h
      have hnext : Passed W h₀ (m + 1)
          ⟨pages, Function.update bits hand false, Lib.next hand⟩ :=
        h.advance rfl (fun i hi => Function.update_of_ne hi _ _) (Function.update_self _ _ _)
          (fun _ _ => rfl) (Or.inr ⟨rfl, hb⟩)
      obtain ⟨m', hm, hstop⟩ := ih (m + 1) hnext
      refine ⟨m', Nat.le_of_succ_le hm, ?_⟩
      unfold Clock.stop at hstop ⊢
      rw [sweep_of_set hb]
      exact hstop
  | case2 bits hand hb =>
      intro m h
      refine ⟨m, le_rfl, ?_⟩
      unfold Clock.stop
      rw [sweep_of_clear (by simpa using hb)]
      exact h

/-- After two turns every page of a window of few pages is in memory. -/
theorem Passed.mem_of_twice (h : Passed W h₀ m k) (hk : k.Filled) (hm : 2 * F ≤ m)
    (hW : W.card ≤ F) : ∀ q ∈ W, ∃ i, k.pages i = some q := by
  classical
  have hholds : ∀ i, ∃ q ∈ W, k.pages i = some q := by
    intro i
    obtain ⟨j, hj, hi⟩ := exists_slot h₀ i
    exact h.twice i j (by omega) hi
  choose page hin hpage using hholds
  have himage : univ.image page = W := by
    refine eq_of_subset_of_card_le (image_subset_iff.mpr fun i _ => hin i) ?_
    rw [card_image_of_injective, card_univ, Fintype.card_fin]
    · exact hW
    · intro i j hij
      exact hk.inj i j (page i) (hpage i) (hij ▸ hpage j)
  intro q hq
  rw [← himage] at hq
  obtain ⟨i, -, rfl⟩ := mem_image.mp hq
  exact ⟨i, hpage i⟩

variable [DecidableEq α] {p : α}

/-- A reference to a page of the window: the hand moves on a fault, and a fault
is in the first two turns. -/
theorem Passed.access (h : Passed W h₀ m k) (hk : k.Filled) (hp : p ∈ W) (hW : W.card ≤ F) :
    ((∃ i, k.pages i = some p) ∧ Passed W h₀ m (k.access p).2.2) ∨
      ((∀ i, k.pages i ≠ some p) ∧ m < 2 * F ∧
        ∃ m', m < m' ∧ Passed W h₀ m' (k.access p).2.2) := by
  by_cases hin : ∃ i, k.pages i = some p
  · left
    refine ⟨hin, ?_⟩
    obtain ⟨i, hi⟩ := hin
    obtain ⟨f, hf, hacc⟩ := Clock.access_hit hi
    rw [hacc]
    refine ⟨h.hand, fun i j hj hslot hset => ?_, h.twice⟩
    by_cases hif : i = f
    · subst hif
      exact ⟨p, hp, hf⟩
    · refine h.once i j hj hslot ?_
      rw [← hset]
      exact (Function.update_of_ne hif _ _).symm
  · right
    have hout := not_exists.mp hin
    refine ⟨hout, ?_, ?_⟩
    · by_contra hm
      exact hin (h.mem_of_twice hk (not_lt.mp hm) hW p hp)
    · obtain ⟨m', hm, hstop⟩ := Passed.sweep k.pages k.bits k.hand m h
      refine ⟨m' + 1, Nat.lt_succ_of_le hm, ?_⟩
      rw [hk.access_fault hout]
      exact hstop.advance rfl (fun i hi => Function.update_of_ne hi _ _)
        (Function.update_self _ _ _) (fun i hi => Function.update_of_ne hi _ _)
        (Or.inl ⟨p, hp, Function.update_self _ _ _⟩)

end Turns

/-! ## Runs -/

variable [DecidableEq α]

/-- The clock along a reference string. -/
structure ClockRun (hF : 0 < F) (w : Fin N → α) (C : ℕ → Clock F α) : Prop where
  start : C 0 = Clock.start hF
  step : ∀ i : Fin N, C (i + 1) = ((C i).access (w i)).2.2

variable {hF : 0 < F} {w : Fin N → α} {C : ℕ → Clock F α}

theorem ClockRun.filled (h : ClockRun hF w C) : ∀ k ≤ N, (C k).Filled := by
  intro k
  induction k with
  | zero =>
      intro _
      rw [h.start]
      exact Clock.filled_start hF
  | succ k ih =>
      intro hk
      have hstep := h.step ⟨k, hk⟩
      change C (k + 1) = ((C k).access (w ⟨k, hk⟩)).2.2 at hstep
      rw [hstep]
      exact (ih (Nat.le_of_succ_le hk)).access _

/-- **The clock has at most two faults for each frame in a window of at most `F`
pages.** -/
theorem ClockRun.windowBound (h : ClockRun hF w C) {R : ℕ → Finset α}
    (hR : ∀ k ≤ N, ∀ q, q ∈ R k ↔ ∃ i, (C k).pages i = some q) :
    WindowBound F (2 * F) w R := by
  intro a b hab hb hfew
  have hturns : ∀ t, a ≤ t → t ≤ b → ∃ m, Passed (upcoming w a b) (C a).hand m (C t) ∧
      faults w R t ≤ faults w R a + m ∧ faults w R t ≤ faults w R a + 2 * F := by
    intro t hat
    induction t, hat using Nat.le_induction with
    | base => exact fun _ => ⟨0, Passed.start _ _, le_rfl, Nat.le_add_right _ _⟩
    | succ t hat ih =>
        intro htb
        have htN : t < N := Nat.lt_of_lt_of_le htb hb
        obtain ⟨m, hpassed, hle, hbound⟩ := ih (Nat.le_of_succ_le htb)
        have hmem : w ⟨t, htN⟩ ∈ upcoming w a b := mem_upcoming.mpr ⟨⟨t, htN⟩, hat, htb, rfl⟩
        have hstep : C (t + 1) = ((C t).access (w ⟨t, htN⟩)).2.2 := h.step ⟨t, htN⟩
        have hcount : faults w R (t + 1) = faults w R t + if w ⟨t, htN⟩ ∈ R t then 0 else 1 :=
          faults_succ w R ⟨t, htN⟩
        rw [hstep]
        rcases hpassed.access (h.filled t htN.le) hmem hfew with
          ⟨hhit, hpassed'⟩ | ⟨hmiss, hm, m', hmm', hpassed'⟩
        · rw [if_pos ((hR t htN.le _).mpr hhit), Nat.add_zero] at hcount
          rw [hcount]
          exact ⟨m, hpassed', hle, hbound⟩
        · rw [if_neg fun hin => not_exists.mpr hmiss ((hR t htN.le _).mp hin)] at hcount
          rw [hcount]
          exact ⟨m', hpassed', by omega, by omega⟩
  obtain ⟨m, -, -, hbound⟩ := hturns b hab le_rfl
  exact hbound

end OS2023.Lib
