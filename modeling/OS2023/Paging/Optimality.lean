import OS2023.Paging.Consistency

/-!
# Optimal is optimal

The run of `replacePageOptimal` is a farthest-in-future run in the sense of
`OS2023.Lib.Belady`: the frame of largest distance holds a page that is not
needed before all other resident ones are, also when the distance is the
sentinel 5000 and the queue breaks the tie. Hence no demand-paging schedule on
the same pages has fewer faults, and every other policy is such a schedule.
-/

namespace OS2023.Paging

open OS2023.Lib

variable {F P N : ℕ} {pageSize : Int} {A : References P N pageSize} {c : Fin N}
  {s : Sim F P N} {ps : List (Fin P)}

/-- What a reference does to the resident pages when its victim, if it needs
one, is a farthest page. -/
theorem farthestStep_of_access {hit : Bool} {f : ℕ} {ps' : List (Fin P)}
    (hacc : Access F (A.page c) ps hit f ps') (hnd : ps.Nodup)
    (hfar : hit = false → ps.length = F → ∀ v, ps[f]? = some v →
      ∀ t, v ∈ upcoming A.page (c + 1) t → ∀ q ∈ ps, q ∈ upcoming A.page (c + 1) t) :
    FarthestStep F A.page c ps.toFinset ps'.toFinset := by
  have hcard : ps.toFinset.card = ps.length := List.toFinset_card_of_nodup hnd
  have hnot : A.page c ∉ ps → A.page c ∉ ps.toFinset := fun h hm =>
    h (List.mem_toFinset.mp hm)
  rcases hacc.inv with ⟨mem, -, -, rfl⟩ | ⟨fresh, -, room, -, rfl⟩ |
    ⟨fresh, hmiss, full, hf, rfl⟩
  · exact FarthestStep.hit (List.mem_toFinset.mpr mem)
  · rw [toFinset_snoc]
    exact FarthestStep.load (hnot fresh) (hcard.symm ▸ room)
  · have hlt : f < ps.length := full.symm ▸ hf
    rw [toFinset_set hnd hlt]
    refine FarthestStep.evict _ (hnot fresh) (hcard.trans full)
      (List.mem_toFinset.mpr (List.getElem_mem hlt)) fun t hv q hq => ?_
    exact hfar hmiss full ps[f] (List.getElem?_eq_getElem hlt) t hv q
      (List.mem_toFinset.mp hq)

/-- Along the run of Optimal the queue stays in the order of loading. -/
theorem optimal_loadOrder (hF : 3 ≤ F) (hN : N ≤ 5000) (A : References P N pageSize) :
    ∀ k ≤ N, ∃ m ps, runFor .optimal F P pageSize A.addr k = some m ∧ Steady A k m ps ∧
      ∃ l, l.Perm (List.range ps.length) ∧ Unrotated m.sim l ∧
        LoadOrder (loadAt .optimal F A) k ps l := by
  refine run_rule A (I := fun k m ps => ∃ l, l.Perm (List.range ps.length) ∧
    Unrotated m.sim l ∧ LoadOrder (loadAt .optimal F A) k ps l)
    ⟨[], List.Perm.nil, unrotated_initialState A, LoadOrder.nil _⟩ ?_
  rintro c m ps hrun hsteady ⟨l, hl, hq, horder⟩
  obtain ⟨hit, f, s', ps', hpage, hserved, hq', -⟩ :=
    optimal_serves hF hN hsteady.loaded hsteady.rep hq hl c
  have hturn : Turn .optimal A c m ps hit f s' ps' := ⟨hrun, hsteady, hpage, hserved⟩
  exact ⟨hit, f, s', ps', hpage, hserved, _, hserved.access.queue_perm hl, hq',
    horder.access hl hserved.access hturn.loadAt⟩

/-- How Optimal serves reference `c`: the frame given up has the largest
distance, and is the first in the queue when two pages are not used again. -/
theorem optimal_turn (hF : 3 ≤ F) (hN : N ≤ 5000) (A : References P N pageSize) (c : Fin N) :
    ∃ m ps hit f s' ps' l, Turn (F := F) .optimal A c m ps hit f s' ps' ∧
      LoadOrder (loadAt .optimal F A) c ps l ∧
      (hit = false → ps.length = F → l.Perm (List.range F) ∧
        (∀ i, dist m.sim c i ≤ dist m.sim c f) ∧
        ∀ i j, i ≠ j → dist m.sim c i = 5000 → dist m.sim c j = 5000 →
          ∀ k, dist m.sim c k = 5000 → l.idxOf (f : ℕ) ≤ l.idxOf (k : ℕ)) := by
  obtain ⟨m, ps, hrun, hsteady, l, hl, hq, horder⟩ := optimal_loadOrder hF hN A c c.isLt.le
  obtain ⟨hit, f, s', ps', hpage, hserved, -, hvictim⟩ :=
    optimal_serves hF hN hsteady.loaded hsteady.rep hq hl c
  refine ⟨m, ps, hit, f, s', ps', l, ⟨hrun, hsteady, hpage, hserved⟩, horder,
    fun hmiss hfull => ?_⟩
  have hrange : List.range ps.length = List.range F := congrArg List.range hfull
  rw [hrange] at hl
  obtain ⟨f', hf', hmax, hfirst⟩ := optimalVictim_spec (Nat.lt_of_lt_of_le (by decide) hF) hN
    hsteady.loaded hsteady.rep hfull hq hl c
  -- the frame given up is the one that the victim search returns
  obtain rfl : f = f' := by
    rw [hvictim hmiss hfull] at hf'
    exact Fin.ext (Int.natCast_inj.mp (Option.some.inj hf'))
  exact ⟨hl, hmax, hfirst⟩

/-- **The run of Optimal is a farthest-in-future run.** -/
theorem optimal_farthestRun (hF : 3 ≤ F) (hN : N ≤ 5000) (A : References P N pageSize) :
    FarthestRun F A.page (residentAt .optimal F P pageSize A.addr) := by
  refine ⟨residentAt_zero .optimal A, fun c => ?_⟩
  obtain ⟨m, ps, hit, f, s', ps', l, h, -, hvictim⟩ := optimal_turn hF hN A c
  rw [h.resident, h.resident_next]
  refine farthestStep_of_access h.served.access h.steady.rep.nodup ?_
  intro hmiss hfull v hv t hused
  obtain ⟨hlt, rfl⟩ := List.getElem?_eq_some_iff.mp hv
  exact farthest_of_dist hN h.steady.loaded h.steady.rep hfull
    (h.served.access.fresh_of_miss hmiss) hlt (hvictim hmiss hfull).2.1 t hused

/-- **Belady's theorem for the simulator.** The faults that `main` counts under
Optimal are at most those of any demand-paging schedule on the same pages, and
at most those it counts under any of the four policies. -/
theorem optimal_pageFaults_le (hF : 3 ≤ F) (A : Addresses P numAddresses pageSize) :
    ∃ m, simulate .optimal F P pageSize A.addr = some m ∧
      (∀ R, Schedule F A.page R → m.pageFaults ≤ faults A.page R numAddresses) ∧
      ∀ alg, ∃ m', simulate alg F P pageSize A.addr = some m' ∧
        m.pageFaults ≤ m'.pageFaults := by
  have turns := run_turns hF numAddresses_le A.toReferences
  have hfarthest := optimal_farthestRun hF numAddresses_le A.toReferences
  obtain ⟨m, hrun, hcount⟩ := pageFaults_of_turns (turns .optimal) numAddresses le_rfl
  have hbest : ∀ R, Schedule F A.page R → m.pageFaults ≤ faults A.page R numAddresses := by
    intro R hR
    rw [hcount]
    exact farthest_optimal hfarthest hR numAddresses le_rfl
  refine ⟨m, hrun, hbest, fun alg => ?_⟩
  obtain ⟨m', hrun', hcount'⟩ := pageFaults_of_turns (turns alg) numAddresses le_rfl
  refine ⟨m', hrun', ?_⟩
  rw [hcount']
  exact hbest _ (schedule_of_turns (turns alg))

theorem optimal_pageFaults_le_roundRobin :
    ∃ m, simulate .optimal 3 4 1024 roundRobin.addr = some m ∧
      ∃ m', simulate .fifo 3 4 1024 roundRobin.addr = some m' ∧
        m.pageFaults ≤ m'.pageFaults := by
  obtain ⟨m, hrun, -, hall⟩ := optimal_pageFaults_le (F := 3) le_rfl roundRobin
  exact ⟨m, hrun, hall .fifo⟩

end OS2023.Paging
