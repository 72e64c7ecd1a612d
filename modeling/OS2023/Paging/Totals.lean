import OS2023.Lib.Reversal
import OS2023.Paging.Inclusion
import OS2023.Paging.Optimality

/-!
# What the reported totals depend on

LRU decides by distances alone: a reference hits when at most `F` pages, its own
included, were touched since the page was used last. The totals of all memory
sizes are therefore read off one list of distances. Optimal has no such list, but
its total never grows with the memory either, and for both the total is that of
the addresses read backwards.
-/

namespace OS2023.Paging

open OS2023.Lib

variable {F P N : ℕ} {pageSize : Int}

/-! ## LRU and distances -/

/-- The page of reference `c` was used before, and at most `F` pages were touched
from that use on. -/
def ReusedWithin (F : ℕ) (A : References P N pageSize) (c : Fin N) : Prop :=
  ∃ j : Fin N, j < c ∧ A.page j = A.page c ∧ (upcoming A.page j c).card ≤ F

instance (F : ℕ) (A : References P N pageSize) (c : Fin N) :
    Decidable (ReusedWithin F A c) :=
  inferInstanceAs (Decidable (∃ j : Fin N, j < c ∧ A.page j = A.page c ∧
    (upcoming A.page j c).card ≤ F))

theorem lru_mem_residentAt_iff (hF : 0 < F) (A : References P N pageSize) (c : Fin N) :
    A.page c ∈ residentAt .lru F P pageSize A.addr c ↔ ReusedWithin F A c := by
  rw [lru_residentAt hF A c.isLt.le, List.mem_toFinset]
  exact mem_recency_take_iff c.isLt.le

/-- **LRU by distances.** A reference hits exactly when its page was used before
and at most `F` pages were touched from that use on, and the reported total is
the number of the other references. The distances do not depend on `F`. -/
theorem lru_distances (hF : 0 < F) (A : Addresses P numAddresses pageSize) :
    (∀ c, resultAt .lru F P pageSize A.addr c =
      some (if ReusedWithin F A.toReferences c then 1 else 0)) ∧
    ∃ m, simulate .lru F P pageSize A.addr = some m ∧
      m.total = some (Finset.univ.filter fun c => ¬ ReusedWithin F A.toReferences c).card := by
  constructor
  · intro c
    obtain ⟨m, ps, hit, f, s', ps', hturn⟩ := lru_turn hF A.toReferences c
    have hiff := lru_mem_residentAt_iff hF A.toReferences c
    rw [hturn.resident, List.mem_toFinset, ← hturn.served.access.hit_iff] at hiff
    rw [hturn.resultAt]
    simp only [hiff]
  · obtain ⟨m, hrun, htotal, hcount⟩ := total_of_turns (lru_turn hF A.toReferences)
    have hmisses : faults A.page (residentAt .lru F P pageSize A.addr) numAddresses =
        (Finset.univ.filter fun c => ¬ ReusedWithin F A.toReferences c).card := by
      refine congrArg Finset.card (Finset.filter_congr fun c _ => ?_)
      rw [lru_mem_residentAt_iff hF]
      exact and_iff_right c.isLt
    exact ⟨m, hrun, by rw [htotal, hcount, hmisses]⟩

theorem lru_distances_roundRobin :
    resultAt .lru 4 4 1024 roundRobin.addr ⟨7, by decide⟩ =
        some (if ReusedWithin 4 roundRobin.toReferences ⟨7, by decide⟩ then 1 else 0) ∧
      ReusedWithin 4 roundRobin.toReferences ⟨7, by decide⟩ := by
  refine ⟨(lru_distances (F := 4) (by decide) roundRobin).1 _, ⟨3, by decide⟩, by decide, ?_,
    (Finset.card_le_univ _).trans (by decide)⟩
  exact Fin.ext ((roundRobin_page _).trans (roundRobin_page _).symm)

/-! ## More frames for Optimal -/

/-- **No Belady anomaly for Optimal.** With more frames it never reports more
faults. -/
theorem optimal_total_anti {F₁ F₂ : ℕ} (h₃ : 3 ≤ F₁) (hle : F₁ ≤ F₂)
    (A : Addresses P numAddresses pageSize) :
    ∃ (m₁ : MainState F₁ P numAddresses) (m₂ : MainState F₂ P numAddresses) (t₁ t₂ : ℕ),
      simulate .optimal F₁ P pageSize A.addr = some m₁ ∧
      simulate .optimal F₂ P pageSize A.addr = some m₂ ∧
      m₁.total = some t₁ ∧ m₂.total = some t₂ ∧ t₂ ≤ t₁ := by
  have turns₁ := run_turns h₃ numAddresses_le A.toReferences .optimal
  have turns₂ := run_turns (h₃.trans hle) numAddresses_le A.toReferences .optimal
  obtain ⟨m₁, hrun₁, htotal₁, hcount₁⟩ := total_of_turns turns₁
  obtain ⟨m₂, hrun₂, htotal₂, hcount₂⟩ := total_of_turns turns₂
  refine ⟨m₁, m₂, _, _, hrun₁, hrun₂, htotal₁, htotal₂, ?_⟩
  rw [hcount₁, hcount₂]
  have hfarthest := optimal_farthestRun (h₃.trans hle) numAddresses_le A.toReferences
  exact farthest_optimal hfarthest ((schedule_of_turns turns₁).mono hle) _ le_rfl

theorem optimal_total_anti_roundRobin :
    ∃ (m₁ : MainState 3 4 numAddresses) (m₂ : MainState 4 4 numAddresses) (t₁ t₂ : ℕ),
      simulate .optimal 3 4 1024 roundRobin.addr = some m₁ ∧
      simulate .optimal 4 4 1024 roundRobin.addr = some m₂ ∧
      m₁.total = some t₁ ∧ m₂.total = some t₂ ∧ t₂ ≤ t₁ :=
  optimal_total_anti le_rfl (by decide) roundRobin

/-! ## Backwards -/

/-- The addresses read backwards. -/
def References.reverse (A : References P N pageSize) : References P N pageSize where
  addr := fun i => A.addr i.rev
  inTable := fun i => A.inTable i.rev

theorem References.reverse_reverse (A : References P N pageSize) : A.reverse.reverse = A := by
  cases A
  simp [reverse]

theorem optimal_faults_reverse_le (hF : 3 ≤ F) (hN : N ≤ 5000) (A : References P N pageSize) :
    faults A.reverse.page (residentAt .optimal F P pageSize A.reverse.addr) N ≤
      faults A.page (residentAt .optimal F P pageSize A.addr) N :=
  faults_reverse_le (optimal_farthestRun hF hN A.reverse)
    (schedule_of_turns (run_turns hF hN A .optimal))

theorem lru_faults_reverse_le (hF : 0 < F) (A : References P N pageSize) :
    faults A.reverse.page (residentAt .lru F P pageSize A.reverse.addr) N ≤
      faults A.page (residentAt .lru F P pageSize A.addr) N := by
  refine faults_recency_reverse_le (fun k hk q => ?_) (schedule_of_turns (lru_turn hF A))
    fun k hk q => ?_
  · rw [lru_residentAt hF A hk, List.mem_toFinset]
  · rw [lru_residentAt hF A.reverse hk, List.mem_toFinset]
    rfl

/-- **Optimal and LRU report the same total for the addresses read backwards.** -/
theorem total_reverse (hF : 3 ≤ F) {alg : Algorithm} (halg : alg = .optimal ∨ alg = .lru)
    (A : Addresses P numAddresses pageSize) :
    ∃ (m m' : MainState F P numAddresses) (t : ℕ),
      simulate alg F P pageSize A.addr = some m ∧
      simulate alg F P pageSize (fun i => A.addr i.rev) = some m' ∧
      m.total = some t ∧ m'.total = some t := by
  have turns := run_turns hF numAddresses_le A.toReferences alg
  have turns' := run_turns hF numAddresses_le A.toReferences.reverse alg
  obtain ⟨m, hrun, htotal, hcount⟩ := total_of_turns turns
  obtain ⟨m', hrun', htotal', hcount'⟩ := total_of_turns turns'
  -- what holds for all references holds for the reversed ones too
  have hle : ∀ B : References P numAddresses pageSize,
      faults B.reverse.page (residentAt alg F P pageSize B.reverse.addr) numAddresses ≤
        faults B.page (residentAt alg F P pageSize B.addr) numAddresses := by
    intro B
    rcases halg with rfl | rfl
    · exact optimal_faults_reverse_le hF numAddresses_le B
    · exact lru_faults_reverse_le (Nat.lt_of_lt_of_le (by decide) hF) B
  have hforth := hle A.toReferences
  have hback := hle A.toReferences.reverse
  rw [References.reverse_reverse] at hback
  refine ⟨m, m', m.pageFaults, hrun, hrun', htotal, ?_⟩
  rw [htotal', hcount, hcount']
  exact congrArg some (le_antisymm hforth hback)

theorem total_reverse_roundRobin :
    ∃ (m m' : MainState 3 4 numAddresses) (t : ℕ),
      simulate .optimal 3 4 1024 roundRobin.addr = some m ∧
      simulate .optimal 3 4 1024 (fun i => roundRobin.addr i.rev) = some m' ∧
      m.total = some t ∧ m'.total = some t :=
  total_reverse le_rfl (Or.inl rfl) roundRobin

end OS2023.Paging
