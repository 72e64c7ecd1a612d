import OS2023.Lib.ClockWindow
import OS2023.Paging.Optimality
import OS2023.Paging.Windows

/-!
# FIFO, LRU and Second-Chance against the future

What not seeing the future costs, also against a smaller memory that does see
it. FIFO and LRU have at most `F` faults in a window of at most `F` pages,
Second-Chance at most `2 * F`; `OS2023.Lib.Competitive` turns such a bound into
one for the whole run.
-/

namespace OS2023.Paging

open OS2023.Lib

variable {F P N : ℕ} {pageSize : Int} {alg : Algorithm} {A : References P N pageSize}

/-! ## Second-Chance in a window -/

theorem clockAt_clockRun (hF : 0 < F) (A : References P N pageSize) :
    ClockRun hF A.page (clockAt hF A) where
  start := rfl
  step := clockAt_succ hF A

theorem sc_mem_residentAt (hF : 0 < F) (A : References P N pageSize) {k : ℕ} (hk : k ≤ N)
    (q : Fin P) : q ∈ residentAt .sc F P pageSize A.addr k ↔
      ∃ i, (clockAt hF A k).pages i = some q := by
  obtain ⟨m, ps, hrun, hsteady, hclock⟩ := sc_clockRep hF A k hk
  rw [residentAt_eq hrun hsteady.rep, ← hclock.mem_residentPages hsteady.rep,
    hsteady.rep.residentPages]

theorem sc_turn (hF : 0 < F) (A : References P N pageSize) (c : Fin N) :
    ∃ m ps hit f s' ps', Turn (F := F) .sc A c m ps hit f s' ps' := by
  obtain ⟨m, ps, hrun, hsteady, hclock⟩ := sc_clockRep hF A c c.isLt.le
  obtain ⟨s', ps', hpage, hserved, -, -⟩ := sc_serves hsteady.loaded hsteady.rep hclock c
  exact ⟨m, ps, _, _, s', ps', hrun, hsteady, hpage, hserved⟩

theorem sc_windowBound (hF : 0 < F) (A : References P N pageSize) :
    WindowBound F (2 * F) A.page (residentAt .sc F P pageSize A.addr) :=
  (clockAt_clockRun hF A).windowBound fun _ hk q => sc_mem_residentAt hF A hk q

/-- **Second-Chance in a window.** A window of consecutive references to at most
`F` pages, starting anywhere in the run, adds at most `2 * F` faults. -/
theorem sc_window_faults (hF : 0 < F) (A : Addresses P N pageSize) {a b : ℕ} (hab : a ≤ b)
    (hb : b ≤ N) (hfew : (upcoming A.page a b).card ≤ F) :
    ∃ m m' : MainState F P N, runFor .sc F P pageSize A.addr a = some m ∧
      runFor .sc F P pageSize A.addr b = some m' ∧
      m'.pageFaults ≤ m.pageFaults + 2 * F := by
  have turns := sc_turn hF A.toReferences
  obtain ⟨m, hrun, hcount⟩ := pageFaults_of_turns turns a (hab.trans hb)
  obtain ⟨m', hrun', hcount'⟩ := pageFaults_of_turns turns b hb
  refine ⟨m, m', hrun, hrun', ?_⟩
  rw [hcount, hcount']
  exact sc_windowBound hF A.toReferences a b hab hb hfew

theorem sc_window_faults_roundRobin :
    ∃ m m' : MainState 4 4 numAddresses, runFor .sc 4 4 1024 roundRobin.addr 100 = some m ∧
      runFor .sc 4 4 1024 roundRobin.addr 5000 = some m' ∧
      m'.pageFaults ≤ m.pageFaults + 8 := by
  have hfew : (upcoming roundRobin.page 100 5000).card ≤ 4 :=
    (Finset.card_le_univ _).trans (by decide)
  exact sc_window_faults (F := 4) (by decide) roundRobin (by decide) le_rfl hfew

/-! ## Whole runs -/

/-- A bound for windows gives one for what `main` reports, against any schedule
and against what it reports for Optimal. -/
theorem competitive_of_turns {K : ℕ} {A : References P numAddresses pageSize}
    (turns : ∀ c : Fin numAddresses, ∃ m ps hit f s' ps',
      Turn (F := F) alg A c m ps hit f s' ps')
    (hA : WindowBound F K A.page (residentAt alg F P pageSize A.addr)) (hF : 0 < F) :
    ∃ m t, simulate alg F P pageSize A.addr = some m ∧ m.total = some t ∧
      ∀ h ≤ F,
        (∀ R, Schedule h A.page R →
          (F + 1 - h) * t ≤ K * faults A.page R numAddresses + K * (F - h)) ∧
        (3 ≤ h → ∃ m' t', simulate .optimal h P pageSize A.addr = some m' ∧
          m'.total = some t' ∧ (F + 1 - h) * t ≤ K * t' + K * (F - h)) := by
  obtain ⟨m, hrun, htotal, hcount⟩ := total_of_turns turns
  refine ⟨m, m.pageFaults, hrun, htotal, fun h hh => ?_⟩
  have hany : ∀ R, Schedule h A.page R →
      (F + 1 - h) * m.pageFaults ≤ K * faults A.page R numAddresses + K * (F - h) := by
    intro R hR
    rw [hcount]
    exact hA.competitive hR hF hh le_rfl
  refine ⟨hany, fun hthree => ?_⟩
  have turns' := run_turns hthree numAddresses_le A .optimal
  obtain ⟨m', hrun', htotal', hcount'⟩ := total_of_turns turns'
  refine ⟨m', m'.pageFaults, hrun', htotal', ?_⟩
  rw [hcount']
  exact hany _ (schedule_of_turns turns')

/-- **FIFO and LRU are competitive.** With `F` frames they report at most
`F / (F + 1 - h)` times the faults of any demand-paging schedule in `h ≤ F`
frames, and `F * (F - h) / (F + 1 - h)` more; so in the same number of frames at
most `F` times the faults reported for Optimal. -/
theorem fifo_lru_competitive (halg : alg = .fifo ∨ alg = .lru) (hF : 0 < F)
    (A : Addresses P numAddresses pageSize) :
    ∃ m t, simulate alg F P pageSize A.addr = some m ∧ m.total = some t ∧
      ∀ h ≤ F,
        (∀ R, Schedule h A.page R →
          (F + 1 - h) * t ≤ F * faults A.page R numAddresses + F * (F - h)) ∧
        (3 ≤ h → ∃ m' t', simulate .optimal h P pageSize A.addr = some m' ∧
          m'.total = some t' ∧ (F + 1 - h) * t ≤ F * t' + F * (F - h)) := by
  rcases halg with rfl | rfl
  · refine competitive_of_turns (fun c => ?_)
      (fifo_conservative hF A.toReferences).windowBound hF
    obtain ⟨m, ps, hit, f, s', ps', hturn, -⟩ := fifo_turn hF A.toReferences c
    exact ⟨m, ps, hit, f, s', ps', hturn⟩
  · exact competitive_of_turns (lru_turn hF A.toReferences)
      (lru_conservative hF A.toReferences).windowBound hF

theorem fifo_lru_competitive_roundRobin :
    ∃ m t m' t', simulate .lru 3 4 1024 roundRobin.addr = some m ∧ m.total = some t ∧
      simulate .optimal 3 4 1024 roundRobin.addr = some m' ∧ m'.total = some t' ∧
      t ≤ 3 * t' := by
  obtain ⟨m, t, hrun, htotal, hall⟩ :=
    fifo_lru_competitive (F := 3) (Or.inr rfl) (by decide) roundRobin
  obtain ⟨m', t', hrun', htotal', hle⟩ := (hall 3 le_rfl).2 le_rfl
  exact ⟨m, t, m', t', hrun, htotal, hrun', htotal', by omega⟩

/-- **Second-Chance is competitive**, with twice the factor: it loads pages with
bit 0, so that a page can fault twice in a window of `F` pages. -/
theorem sc_competitive (hF : 0 < F) (A : Addresses P numAddresses pageSize) :
    ∃ m t, simulate .sc F P pageSize A.addr = some m ∧ m.total = some t ∧
      ∀ h ≤ F,
        (∀ R, Schedule h A.page R →
          (F + 1 - h) * t ≤ 2 * F * faults A.page R numAddresses + 2 * F * (F - h)) ∧
        (3 ≤ h → ∃ m' t', simulate .optimal h P pageSize A.addr = some m' ∧
          m'.total = some t' ∧ (F + 1 - h) * t ≤ 2 * F * t' + 2 * F * (F - h)) :=
  competitive_of_turns (sc_turn hF A.toReferences) (sc_windowBound hF A.toReferences) hF

theorem sc_competitive_roundRobin :
    ∃ m t m' t', simulate .sc 4 4 1024 roundRobin.addr = some m ∧ m.total = some t ∧
      simulate .optimal 3 4 1024 roundRobin.addr = some m' ∧ m'.total = some t' ∧
      2 * t ≤ 8 * t' + 8 := by
  obtain ⟨m, t, hrun, htotal, hall⟩ := sc_competitive (F := 4) (by decide) roundRobin
  obtain ⟨m', t', hrun', htotal', hle⟩ := (hall 3 (by decide)).2 le_rfl
  exact ⟨m, t, m', t', hrun, htotal, hrun', htotal', by omega⟩

end OS2023.Paging
