import OS2023.Lib.Conservative

/-!
# Competitive replacement

How far a policy that does not see the future can fall behind one that does.

The reference string is cut into phases: a phase ends in front of the reference
that would be its page number `F + 1`. A policy with at most `K` faults in any
window of at most `F` pages has at most `K` faults in a phase. A schedule in `h`
frames holds the first page of a phase when it has served it, and has room for
`h - 1` others, so that of the `F` other pages up to the first one of the next
phase at least `F + 1 - h` fault.
-/

namespace OS2023.Lib

open Finset

variable {α : Type*} [DecidableEq α] {N F K h : ℕ} {w : Fin N → α} {R : ℕ → Finset α}

theorem faults_mono (w : Fin N → α) (R : ℕ → Finset α) {a b : ℕ} (hab : a ≤ b) :
    faults w R a ≤ faults w R b := by
  refine card_le_card fun j hj => ?_
  rw [mem_filter] at hj ⊢
  exact ⟨hj.1, hj.2.1.trans_le hab, hj.2.2⟩

/-- Extending a window by one reference. -/
theorem upcoming_succ (w : Fin N → α) {a k : ℕ} (hk : k < N) (hak : a ≤ k) :
    upcoming w a (k + 1) = insert (w ⟨k, hk⟩) (upcoming w a k) := by
  ext q
  rw [mem_insert, mem_upcoming, mem_upcoming]
  constructor
  · rintro ⟨j, haj, hji, rfl⟩
    rcases Nat.lt_succ_iff_lt_or_eq.mp hji with hlt | heq
    · exact Or.inr ⟨j, haj, hlt, rfl⟩
    · exact Or.inl (congrArg w (Fin.ext heq))
  · rintro (rfl | ⟨j, haj, hji, rfl⟩)
    · exact ⟨⟨k, hk⟩, hak, Nat.lt_succ_self _, rfl⟩
    · exact ⟨j, haj, Nat.lt_succ_of_lt hji, rfl⟩

/-! ## What any schedule must load -/

section Schedule

variable {a b : ℕ} (hR : Schedule h w R)

include hR

theorem Schedule.mono {h' : ℕ} (hle : h ≤ h') : Schedule h' w R where
  start := hR.start
  step := fun i =>
    ⟨(hR.step i).mem, (hR.step i).card_le.trans hle, (hR.step i).gain⟩

/-- Nothing becomes resident unless it is referenced. -/
theorem Schedule.subset_union (hab : a ≤ b) (hb : b ≤ N) : R b ⊆ R a ∪ upcoming w a b := by
  induction b, hab using Nat.le_induction with
  | base => exact subset_union_left
  | succ b hab ih =>
      intro q hq
      rw [upcoming_succ w hb hab]
      have hgain := (hR.step ⟨b, hb⟩).gain hq
      rcases mem_insert.mp hgain with rfl | hold
      · exact mem_union_right _ (mem_insert_self _ _)
      · rcases mem_union.mp (ih (Nat.le_of_succ_le hb) hold) with hin | hin
        · exact mem_union_left _ hin
        · exact mem_union_right _ (mem_insert_of_mem hin)

/-- Every page of a window that is not resident in front of it costs a fault. -/
theorem Schedule.card_sdiff_le (hab : a ≤ b) (hb : b ≤ N) :
    (upcoming w a b \ R a).card + faults w R a ≤ faults w R b := by
  induction b, hab using Nat.le_induction with
  | base => rw [upcoming_self, empty_sdiff, card_empty, Nat.zero_add]
  | succ b hab ih =>
      have hold := ih (Nat.le_of_succ_le hb)
      have hstep := faults_succ w R ⟨b, hb⟩
      rw [upcoming_succ w hb hab]
      by_cases hin : w ⟨b, hb⟩ ∈ R b
      · -- a page that hits was resident in front of the window, or was met in it
        have hsame : insert (w ⟨b, hb⟩) (upcoming w a b) \ R a = upcoming w a b \ R a := by
          rcases mem_union.mp (hR.subset_union hab (Nat.le_of_succ_le hb) hin) with hres | hmet
          · exact insert_sdiff_of_mem _ hres
          · rw [insert_eq_of_mem hmet]
        rw [hsame, hstep]
        exact hold.trans (Nat.le_add_right _ _)
      · rw [if_neg hin] at hstep
        have hsub : insert (w ⟨b, hb⟩) (upcoming w a b) \ R a ⊆
            insert (w ⟨b, hb⟩) (upcoming w a b \ R a) := by
          intro q hq
          rw [mem_sdiff, mem_insert] at hq
          rw [mem_insert, mem_sdiff]
          exact hq.1.imp_right fun hmem => ⟨hmem, hq.2⟩
        have hcard := (card_le_card hsub).trans (card_insert_le _ _)
        change faults w R (b + 1) = faults w R b + 1 at hstep
        omega

/-- From a reference on, a schedule in `h` frames cannot have held more than `h`
of the pages that follow. -/
theorem Schedule.card_upcoming_le (i : Fin N) (hib : (i : ℕ) < b) (hb : b ≤ N) :
    (upcoming w i b).card + faults w R (i + 1) ≤ faults w R b + h := by
  have hstep := hR.step i
  have hcold := hR.card_sdiff_le (a := i + 1) hib hb
  have hsub : upcoming w i b ⊆ R (i + 1) ∪ (upcoming w (i + 1) b \ R (i + 1)) := by
    rw [union_sdiff_self_eq_union, upcoming_eq_insert w i hib]
    exact insert_subset (mem_union_left _ hstep.mem) subset_union_right
  have hcard := (card_le_card hsub).trans (card_union_le _ _)
  have hroom := hstep.card_le
  omega

end Schedule

/-! ## Phases -/

/-- At most `K` faults in every window of at most `F` pages. -/
def WindowBound (F K : ℕ) (w : Fin N → α) (R : ℕ → Finset α) : Prop :=
  ∀ a b, a ≤ b → b ≤ N → (upcoming w a b).card ≤ F → faults w R b ≤ faults w R a + K

theorem Conservative.windowBound (hR : Conservative F w R) : WindowBound F F w R :=
  fun _ _ _ _ hfew => (hR.faults_le hfew).trans (Nat.add_le_add_left hfew _)

/-- The phase that begins at `a`, in the references up to `e`. -/
theorem exists_phase (hF : 0 < F) {a e : ℕ} (hae : a < e) (he : e ≤ N) :
    ∃ b, a < b ∧ b ≤ e ∧ (upcoming w a b).card ≤ F ∧
      (b < e → F < (upcoming w a (b + 1)).card) := by
  let few : ℕ → Prop := fun b => (upcoming w a b).card ≤ F
  have hone : few (a + 1) := by
    show (upcoming w a (a + 1)).card ≤ F
    rw [upcoming_succ w (hae.trans_le he) le_rfl, upcoming_self, insert_empty_eq,
      card_singleton]
    exact hF
  refine ⟨Nat.findGreatest few e, ?_, Nat.findGreatest_le e, Nat.findGreatest_spec hae hone,
    fun hlt => ?_⟩
  · exact Nat.le_findGreatest hae hone
  · exact not_le.mp (Nat.findGreatest_is_greatest (P := few) (Nat.lt_succ_self _) hlt)

/-- From the start of a phase on: what is lost in the phase is paid for by the
faults of the schedule between its first reference and that of the next. -/
theorem WindowBound.phases {A : ℕ → Finset α} (hA : WindowBound F K w A)
    (hR : Schedule h w R) (hF : 0 < F) (hh : h ≤ F) {e : ℕ} (he : e ≤ N) :
    ∀ n a, e - a ≤ n → a < e →
      (F + 1 - h) * faults w A e + K * faults w R (a + 1) ≤
        (F + 1 - h) * faults w A a + K * faults w R e + K * (F + 1 - h) := by
  intro n
  induction n with
  | zero =>
      intro a hn hae
      omega
  | succ n ih =>
      intro a hn hae
      obtain ⟨b, hab, hbe, hfew, hlast⟩ := exists_phase (w := w) hF hae he
      have hours := hA a b hab.le (hbe.trans he) hfew
      have hours := Nat.mul_le_mul_left (F + 1 - h) hours
      rw [Nat.mul_add, Nat.mul_comm _ K] at hours
      rcases Nat.lt_or_eq_of_le hbe with hlt | rfl
      · have hpages := hR.card_upcoming_le ⟨a, hae.trans_le he⟩ (b := b + 1)
          (Nat.lt_succ_of_lt hab) (Nat.succ_le_of_lt hlt |>.trans he)
        have hmany := hlast hlt
        change (upcoming w a (b + 1)).card + faults w R (a + 1) ≤ _ at hpages
        have htheirs : F + 1 - h + faults w R (a + 1) ≤ faults w R (b + 1) := by omega
        have htheirs := Nat.mul_le_mul_left K htheirs
        rw [Nat.mul_add] at htheirs
        have hrest := ih b (by omega) hlt
        omega
      · have hgrow : faults w R (a + 1) ≤ faults w R b := faults_mono w R hae
        have hgrow := Nat.mul_le_mul_left K hgrow
        omega

/-- **Faults against any schedule in at most as many frames.** -/
theorem WindowBound.competitive {A : ℕ → Finset α} (hA : WindowBound F K w A)
    (hR : Schedule h w R) (hF : 0 < F) (hh : h ≤ F) {e : ℕ} (he : e ≤ N) :
    (F + 1 - h) * faults w A e ≤ K * faults w R e + K * (F - h) := by
  rcases Nat.eq_zero_or_pos e with rfl | hpos
  · simp
  · have hrun := hA.phases hR hF hh he e 0 (Nat.sub_le _ _) hpos
    -- the first reference faults in an empty memory
    have hfirst : faults w R (0 + 1) = 1 := by
      have hstep := faults_succ w R ⟨0, hpos.trans_le he⟩
      change faults w R (0 + 1) = faults w R 0 + if _ ∈ R 0 then 0 else 1 at hstep
      rw [hstep, hR.start, faults_zero, if_neg (notMem_empty _)]
    rw [hfirst, faults_zero, Nat.mul_zero, Nat.mul_one, Nat.zero_add,
      show F + 1 - h = F - h + 1 by omega, Nat.mul_succ K] at hrun
    rw [show F + 1 - h = F - h + 1 by omega]
    omega

end OS2023.Lib
