import OS2023.Paging.Run

/-!
# What holds in every state of a run

Three properties of every run of the simulation loop, for each policy and any
in-range addresses: the two tables agree with each other, every printed row is
the translation that the tables define, and the queue never reports an error.
All three are read off the frame list that `Steady` carries.
-/

namespace OS2023.Paging

open OS2023.Lib

variable {F P N : ℕ} {pageSize : Int}

/-- References that walk round four pages, two bytes into each. -/
def roundRobin : Addresses 4 numAddresses 1024 :=
  Addresses.ofInRange (fun i => ((i : ℕ) % 4 : ℕ) * 1024 + 2) fun i => by
    have : (i : ℕ) % 4 < 4 := Nat.mod_lt _ (by decide)
    omega

theorem roundRobin_page (i : Fin numAddresses) : (roundRobin.page i : ℕ) = (i : ℕ) % 4 := by
  have hpage := roundRobin.tdiv_eq_page i
  rw [Int.tdiv_eq_ediv_of_nonneg (roundRobin.inRange i).1,
    show roundRobin.addr i = (((i : ℕ) % 4 : ℕ) : Int) * 1024 + 2 from rfl] at hpage
  omega

/-- The first three references are to three pages, the fourth is to another. -/
theorem roundRobin_referenced : 3 ≤ (roundRobin.referenced 3).card ∧
    roundRobin.page ⟨3, by decide⟩ ∉ roundRobin.referenced 3 := by
  constructor
  · have hsub : ({0, 1, 2} : Finset (Fin 4)) ⊆ roundRobin.referenced 3 := by
      intro q hq
      have hq3 : (q : ℕ) < 3 := by
        rw [Finset.mem_insert, Finset.mem_insert, Finset.mem_singleton] at hq
        rcases hq with rfl | rfl | rfl <;> decide
      apply roundRobin.mem_referenced.mpr
      refine ⟨⟨q, hq3.trans (by decide)⟩, hq3, Fin.ext ?_⟩
      rw [roundRobin_page]
      exact Nat.mod_eq_of_lt q.isLt
    exact Finset.card_le_card hsub
  · intro hmem
    obtain ⟨j, hj, heq⟩ := roundRobin.mem_referenced.mp hmem
    have hval := congrArg Fin.val heq
    rw [roundRobin_page, roundRobin_page] at hval
    simp only at hval
    omega

/-! ## Page table and frame table -/

/-- Entry `j` of the page table is in use. -/
def Mapped (s : Sim F P N) (j : Fin P) : Prop :=
  (s.pageTable j).pageNum ≠ -1

/-- The two tables agree after `k` references. -/
structure Consistent (A : References P N pageSize) (k : ℕ) (s : Sim F P N) : Prop where
  entry : ∀ j : Fin P,
    ((s.pageTable j).pageNum = -1 ∧ (s.pageTable j).frameNum = -1) ∨
    ((s.pageTable j).pageNum = (j : ℕ) ∧ 0 ≤ (s.pageTable j).frameNum ∧
      (s.pageTable j).frameNum < F)
  apart : ∀ i j, Mapped s i → Mapped s j →
    (s.pageTable i).frameNum = (s.pageTable j).frameNum → i = j
  occupied_iff : ∀ i : Fin F, (s.frames i).isOccupied ≠ 0 ↔
    ∃! j, Mapped s j ∧ (s.pageTable j).frameNum = (i : ℕ)
  numbered : ∀ i : Fin F, (s.frames i).isOccupied ≠ 0 → (s.frames i).frameNum = (i : ℕ)
  initial_segment : ∀ i : Fin F, (s.frames i).isOccupied ≠ 0 ↔
    (i : ℕ) < min F (A.referenced k).card
  current : ∀ c : Fin N, k = c + 1 → Mapped s (A.page c)

section Consistent

variable {A : References P N pageSize} {k : ℕ} {m : MainState F P N} {s : Sim F P N}
  {ps : List (Fin P)}

theorem Rep.mapped_iff (h : Rep s ps) {j : Fin P} : Mapped s j ↔ j ∈ ps := by
  rw [← h.mem_residentPages]
  simp [Mapped, Paging.residentPages]

theorem Rep.occupied_iff (h : Rep s ps) {i : Fin F} :
    (s.frames i).isOccupied ≠ 0 ↔ (i : ℕ) < ps.length := by
  rw [h.occupied]
  split <;> simp_all

theorem Rep.length_eq_of_occupied (h : Rep s ps) (hall : ∀ i, (s.frames i).isOccupied ≠ 0) :
    ps.length = F := by
  refine le_antisymm h.fits (Nat.le_of_not_lt fun hlt => ?_)
  exact lt_irrefl _ (h.occupied_iff.mp (hall ⟨ps.length, hlt⟩))

/-- With as many pages seen as there are frames, all frames are occupied. -/
theorem Steady.isOccupied (h : Steady A k m ps) (hcard : F ≤ (A.referenced k).card)
    (i : Fin F) : (m.sim.frames i).isOccupied ≠ 0 := by
  rw [h.rep.occupied_iff, h.length_eq, min_eq_left hcard]
  exact i.isLt

/-- The first reference to a page faults. -/
theorem Turn.resultAt_of_new {alg : Algorithm} {c : Fin N} {ps' : List (Fin P)} {hit : Bool}
    {f : Fin F} {s' : Sim F P N} (h : Turn alg A c m ps hit f s' ps')
    (hnew : A.page c ∉ A.referenced c) :
    Paging.resultAt alg F P pageSize A.addr c = some 0 := by
  rw [h.resultAt_eq_zero_iff]
  intro hmem
  exact hnew (A.mem_referenced.mpr (h.steady.seen _ hmem))

theorem Steady.consistent (h : Steady A k m ps)
    (hcur : ∀ c : Fin N, k = c + 1 → A.page c ∈ ps) : Consistent A k m.sim where
  entry := by
    intro j
    by_cases hj : j ∈ ps
    · right
      rw [h.rep.maps.pageNum_of_mem hj, h.rep.maps.frameNum_of_mem hj]
      have hlt := lt_of_lt_of_le (List.idxOf_lt_length_of_mem hj) h.rep.fits
      exact ⟨rfl, Int.natCast_nonneg _, Int.ofNat_lt.mpr hlt⟩
    · left
      have hentry := h.rep.maps j
      rw [if_neg hj, if_neg hj] at hentry
      exact hentry
  apart := by
    intro i j hi hj heq
    have hi := h.rep.mapped_iff.mp hi
    have hj := h.rep.mapped_iff.mp hj
    rw [h.rep.maps.frameNum_of_mem hi, h.rep.maps.frameNum_of_mem hj] at heq
    exact (List.idxOf_inj hi).mp (Int.natCast_inj.mp heq)
  occupied_iff := by
    intro i
    rw [h.rep.occupied_iff]
    constructor
    · intro hi
      have hframe := fun j => h.rep.maps.frameNum_eq_iff h.rep.nodup hi (j := j)
      refine ⟨ps[(i : ℕ)], ⟨?_, (hframe _).mpr rfl⟩, fun j hj => (hframe j).mp hj.2⟩
      exact h.rep.mapped_iff.mpr (List.getElem_mem hi)
    · rintro ⟨j, ⟨hj, hframe⟩, -⟩
      have hj := h.rep.mapped_iff.mp hj
      rw [h.rep.maps.frameNum_of_mem hj] at hframe
      rw [← Int.natCast_inj.mp hframe]
      exact List.idxOf_lt_length_of_mem hj
  numbered := by
    intro i hi
    exact h.rep.frameNum_of_lt (h.rep.occupied_iff.mp hi)
  initial_segment := by
    intro i
    rw [h.rep.occupied_iff, h.length_eq]
  current := by
    intro c hc
    exact h.rep.mapped_iff.mpr (hcur c hc)

end Consistent

/-- The page just referenced is in the frame list. -/
theorem current_mem (hF : 3 ≤ F) (A : References P numAddresses pageSize) (alg : Algorithm)
    {m : MainState F P numAddresses} {ps : List (Fin P)} (c : Fin numAddresses)
    (hrun : runFor alg F P pageSize A.addr (c + 1) = some m) (hrep : Rep m.sim ps) :
    A.page c ∈ ps := by
  obtain ⟨m₀, ps₀, hit, f, s', ps', h, -⟩ := run_turn hF numAddresses_le A alg c
  have hnext := h.next
  rw [hrun, Option.some.injEq] at hnext
  rw [← hrep.mapped_iff, hnext]
  exact h.served.rep.mapped_iff.mpr h.served.access.mem

/-- **Page table and frame table agree in every state of every run.** -/
theorem run_consistent (hF : 3 ≤ F) (A : Addresses P numAddresses pageSize)
    (alg : Algorithm) {k : ℕ} (hk : k ≤ numAddresses) :
    ∃ m, runFor alg F P pageSize A.addr k = some m ∧ Consistent A.toReferences k m.sim := by
  obtain ⟨m, ps, hrun, hsteady, -⟩ := run_steady hF numAddresses_le A.toReferences alg k hk
  refine ⟨m, hrun, hsteady.consistent fun c hc => ?_⟩
  subst hc
  exact current_mem hF A.toReferences alg c hrun hsteady.rep

theorem run_consistent_roundRobin :
    ∃ m, runFor .sc 3 4 1024 roundRobin.addr 5000 = some m ∧
      Consistent roundRobin.toReferences 5000 m.sim :=
  run_consistent (F := 3) le_rfl roundRobin .sc le_rfl

/-! ## Printed rows -/

/-- **Every printed row is right.** Right after the turn for reference `c` both
lookups return, the frame printed is the one the routine hit, filled or
replaced, and the address printed is that frame with the offset of the virtual
address; distinct resident pages translate to distinct frames. -/
theorem row_translation (hF : 3 ≤ F) (A : Addresses P numAddresses pageSize)
    (alg : Algorithm) (c : Fin numAddresses) :
    ∃ (m m' : MainState F P numAddresses) (row : Row) (f : Fin F),
      runFor alg F P pageSize A.addr c = some m ∧
      runFor alg F P pageSize A.addr (c + 1) = some m' ∧
      m'.rows = m.rows ++ [row] ∧
      row.virtualAddress = A.addr c ∧
      getFrameNumFromVA (A.addr c) m'.sim.pageTable pageSize = some row.frameNum ∧
      matchedPageNum (A.addr c) m'.sim.pageTable pageSize ≠ -1 ∧
      getPhysicalAddressFromVA (A.addr c) m'.sim.pageTable m'.sim.frames pageSize =
        some row.physicalAddress ∧
      row.frameNum = (f : ℕ) ∧
      usedFrame alg m.sim c = some row.frameNum ∧
      (∀ i, i ≠ f → m'.sim.frames i = m.sim.frames i) ∧
      row.physicalAddress = row.frameNum * pageSize + A.addr c % pageSize ∧
      ∀ (a b : Int) (p q : Fin P), a.tdiv pageSize = (p : ℕ) → b.tdiv pageSize = (q : ℕ) →
        p ∈ residentPages m'.sim → q ∈ residentPages m'.sim → p ≠ q →
        ∃ fa fb, getFrameNumFromVA a m'.sim.pageTable pageSize = some fa ∧
          getFrameNumFromVA b m'.sim.pageTable pageSize = some fb ∧ fa ≠ fb := by
  obtain ⟨m, ps, hit, f, s', ps', h, hused⟩ := run_turn hF numAddresses_le A.toReferences alg c
  have hserved := h.served
  have hmem := hserved.access.mem
  have hidx := hserved.access.idxOf_eq h.steady.rep.nodup
  have hdiv := A.tdiv_eq_page c
  refine ⟨m, m.record A.toReferences c hit f s', A.row c hit f, f, h.runs, h.next, rfl, rfl,
    ?_, ?_, ?_, rfl, hused, hserved.others, ?_, ?_⟩
  · rw [← hidx]
    exact hserved.rep.getFrameNumFromVA hdiv hmem
  · show matchedPageNum (A.addr c) s'.pageTable pageSize ≠ -1
    rw [hserved.rep.matchedPageNum hdiv hmem]
    omega
  · have hphysical := hserved.rep.getPhysicalAddressFromVA hdiv hmem hidx
    rwa [hserved.physical] at hphysical
  · rw [← A.offset_eq_emod]
    rfl
  · intro a b p q ha hb hp hq hne
    have hp : p ∈ ps' := hserved.rep.mapped_iff.mp (Finset.mem_filter.mp hp).2
    have hq : q ∈ ps' := hserved.rep.mapped_iff.mp (Finset.mem_filter.mp hq).2
    refine ⟨_, _, hserved.rep.getFrameNumFromVA ha hp, hserved.rep.getFrameNumFromVA hb hq, ?_⟩
    intro heq
    exact hne ((List.idxOf_inj hp).mp (Int.natCast_inj.mp heq))

theorem row_translation_roundRobin :
    ∃ (m m' : MainState 3 4 numAddresses) (row : Row) (f : Fin 3),
      runFor .optimal 3 4 1024 roundRobin.addr 7 = some m ∧
      runFor .optimal 3 4 1024 roundRobin.addr 8 = some m' ∧
      m'.rows = m.rows ++ [row] ∧ row.frameNum = (f : ℕ) ∧
      row.physicalAddress = row.frameNum * 1024 + 2 := by
  obtain ⟨m, m', row, f, hm, hm', hrows, -, -, -, -, hf, -, -, hphysical, -⟩ :=
    row_translation (F := 3) le_rfl roundRobin .optimal ⟨7, by decide⟩
  exact ⟨m, m', row, f, hm, hm', hrows, hf, hphysical⟩

/-! ## The queue -/

/-- Between turns the queue of a policy lists the frames in use. -/
theorem QueueInv.queued {alg : Algorithm} {s : Sim F P N} {ps : List (Fin P)}
    (h : QueueInv alg s ps) (halg : alg ≠ .lru) (hfits : ps.length ≤ F) :
    ∃ l, Queued s l ∧ l.Perm (List.range ps.length) := by
  cases alg with
  | optimal =>
      obtain ⟨l, hl, hq⟩ := h
      exact ⟨l, hq.queued, hl⟩
  | fifo =>
      obtain ⟨l, hl, hq⟩ := h
      exact ⟨l, hq, hl⟩
  | lru => exact absurd rfl halg
  | sc =>
      obtain ⟨k, hk⟩ := h
      rcases Nat.lt_or_ge ps.length F with hlt | hge
      · exact ⟨_, (hk.filling hlt).2, List.Perm.refl _⟩
      · have hfull : ps.length = F := le_antisymm hfits hge
        have hrange : List.range ps.length = List.range F := congrArg List.range hfull
        rw [hrange]
        exact ⟨_, hk.turning hfull, cycle_perm k.hand⟩

/-- **Queue errors are unreachable.** Nothing is ever printed, and every error
of the queue prints (`enqueue_quiet`, `dequeue_quiet`,
`removeFrameFromQueue_quiet`); the queue lists each occupied frame once; a
victim is always a frame. -/
theorem queue_errors_unreachable (hF : 3 ≤ F) (A : Addresses P numAddresses pageSize)
    (alg : Algorithm) (halg : alg ≠ .lru) {k : ℕ} (hk : k ≤ numAddresses) :
    ∃ m, runFor alg F P pageSize A.addr k = some m ∧ m.sim.stdout = [] ∧
      (∃ l, Queued m.sim l ∧ l.Nodup ∧
        ∀ i, i ∈ l ↔ ∃ h : i < F, (m.sim.frames ⟨i, h⟩).isOccupied ≠ 0) ∧
      ∀ h : k < numAddresses, hitFrame m.sim ⟨k, h⟩ = none → freeFrame m.sim = none →
        ∃ v : Fin F, victimFrameNum alg m.sim ⟨k, h⟩ = some ((v : ℕ) : Int) := by
  obtain ⟨m, ps, hrun, hsteady, hq⟩ := run_steady hF numAddresses_le A.toReferences alg k hk
  refine ⟨m, hrun, hsteady.quiet, ?_, ?_⟩
  · obtain ⟨l, hl, hperm⟩ := hq.queued halg hsteady.rep.fits
    refine ⟨l, hl, hperm.nodup_iff.mpr List.nodup_range, fun i => ?_⟩
    rw [hperm.mem_iff, List.mem_range]
    constructor
    · intro hi
      have hiF := lt_of_lt_of_le hi hsteady.rep.fits
      exact ⟨hiF, hsteady.rep.occupied_iff.mpr hi⟩
    · rintro ⟨hiF, hocc⟩
      exact hsteady.rep.occupied_iff.mp hocc
  · intro h hmiss hfull
    obtain ⟨hit, f, s', ps', -, -, -, hused⟩ :=
      replacePage_serves (c := ⟨k, h⟩) hF numAddresses_le hsteady hq
    rw [usedFrame, hmiss, hfull] at hused
    exact ⟨f, hused⟩

theorem queue_errors_unreachable_roundRobin :
    ∃ m, runFor .fifo 3 4 1024 roundRobin.addr 4999 = some m ∧ m.sim.stdout = [] := by
  obtain ⟨m, hrun, hquiet, -⟩ := queue_errors_unreachable (F := 3) le_rfl roundRobin
    .fifo (by decide) (k := 4999) (by decide)
  exact ⟨m, hrun, hquiet⟩

end OS2023.Paging
