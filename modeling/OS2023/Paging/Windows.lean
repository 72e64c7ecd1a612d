import OS2023.Lib.Conservative
import OS2023.Paging.Inclusion
import OS2023.Paging.Refinement

/-!
# Windows of few pages

FIFO and LRU are conservative: in any stretch of a run that touches at most as
many pages as there are frames, no page faults twice, whatever the memory held
in front of it.
-/

namespace OS2023.Paging

open OS2023.Lib

variable {F P N : ℕ} {pageSize : Int} {alg : Algorithm} {A : References P N pageSize}

theorem fifo_conservative (hF : 0 < F) (A : References P N pageSize) :
    Conservative F A.page (residentAt .fifo F P pageSize A.addr) := by
  refine conservative_of_fifoLoads fun k hk q => ?_
  rw [fifo_residentAt hF A hk, List.mem_toFinset]

theorem lru_conservative (hF : 0 < F) (A : References P N pageSize) :
    Conservative F A.page (residentAt .lru F P pageSize A.addr) := by
  refine conservative_of_recency fun k hk q => ?_
  rw [lru_residentAt hF A hk, List.mem_toFinset]

/-- What a conservative policy does in a window. -/
theorem window_of_turns
    (turns : ∀ c : Fin N, ∃ m ps hit f s' ps', Turn (F := F) alg A c m ps hit f s' ps')
    (hcons : Conservative F A.page (residentAt alg F P pageSize A.addr)) {a b : ℕ}
    (hab : a ≤ b) (hb : b ≤ N) (hfew : (upcoming A.page a b).card ≤ F) :
    (∀ i j : Fin N, a ≤ (i : ℕ) → i < j → (j : ℕ) < b → A.page i = A.page j →
      resultAt alg F P pageSize A.addr i = some 0 →
      resultAt alg F P pageSize A.addr j ≠ some 0) ∧
    ∃ m m' : MainState F P N, runFor alg F P pageSize A.addr a = some m ∧
      runFor alg F P pageSize A.addr b = some m' ∧ m'.pageFaults ≤ m.pageFaults + F := by
  constructor
  · intro i j hai hij hjb hpage hi hj
    obtain ⟨_, _, _, _, _, _, hturn⟩ := turns i
    obtain ⟨_, _, _, _, _, _, hturn'⟩ := turns j
    rw [hturn.resultAt_eq_zero_iff, ← List.mem_toFinset, ← hturn.resident] at hi
    rw [hturn'.resultAt_eq_zero_iff, ← List.mem_toFinset, ← hturn'.resident] at hj
    exact hj (hcons.once hfew hai hij hjb hpage hi)
  · obtain ⟨m, hrun, hcount⟩ := pageFaults_of_turns turns a (hab.trans hb)
    obtain ⟨m', hrun', hcount'⟩ := pageFaults_of_turns turns b hb
    refine ⟨m, m', hrun, hrun', ?_⟩
    rw [hcount, hcount']
    exact (hcons.faults_le hfew).trans (Nat.add_le_add_left hfew _)

/-- **FIFO and LRU are conservative.** In a window of consecutive references that
touches at most `F` pages, starting anywhere in the run, no page faults twice;
so the window adds at most `F` faults. -/
theorem window_faults (hF : 0 < F) (halg : alg = .fifo ∨ alg = .lru)
    (A : Addresses P N pageSize) {a b : ℕ} (hab : a ≤ b) (hb : b ≤ N)
    (hfew : (upcoming A.page a b).card ≤ F) :
    (∀ i j : Fin N, a ≤ (i : ℕ) → i < j → (j : ℕ) < b → A.page i = A.page j →
      resultAt alg F P pageSize A.addr i = some 0 →
      resultAt alg F P pageSize A.addr j ≠ some 0) ∧
    ∃ m m' : MainState F P N, runFor alg F P pageSize A.addr a = some m ∧
      runFor alg F P pageSize A.addr b = some m' ∧ m'.pageFaults ≤ m.pageFaults + F := by
  rcases halg with rfl | rfl
  · refine window_of_turns (fun c => ?_) (fifo_conservative hF A.toReferences) hab hb hfew
    obtain ⟨m, ps, hit, f, s', ps', h, -⟩ := fifo_turn hF A.toReferences c
    exact ⟨m, ps, hit, f, s', ps', h⟩
  · exact window_of_turns (lru_turn hF A.toReferences) (lru_conservative hF A.toReferences) hab
      hb hfew

/-- With three frames `roundRobin` faults at every reference. -/
theorem window_faults_roundRobin :
    ∃ m m' : MainState 3 4 numAddresses, runFor .fifo 3 4 1024 roundRobin.addr 10 = some m ∧
      runFor .fifo 3 4 1024 roundRobin.addr 13 = some m' ∧
      m'.pageFaults ≤ m.pageFaults + 3 := by
  have hfew : (upcoming roundRobin.page 10 13).card ≤ 3 := by
    have hsub : upcoming roundRobin.page 10 13 ⊆ Finset.univ.erase 1 := by
      intro q hq
      obtain ⟨j, hlo, hhi, rfl⟩ := mem_upcoming.mp hq
      refine Finset.mem_erase.mpr ⟨fun heq => ?_, Finset.mem_univ _⟩
      have hval := congrArg Fin.val heq
      rw [roundRobin_page] at hval
      change (j : ℕ) % 4 = 1 at hval
      omega
    exact (Finset.card_le_card hsub).trans (by decide)
  exact (window_faults (F := 3) (by decide) (Or.inl rfl) roundRobin (a := 10) (b := 13)
    (by decide) (by decide) hfew).2

end OS2023.Paging
