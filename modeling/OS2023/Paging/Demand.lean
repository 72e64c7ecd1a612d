import OS2023.Paging.Consistency

/-!
# Every turn is demand paging

The clearing loops of the four routines run over the whole page table, under
conditions that differ from routine to routine. Whatever they do, a reference
moves one mapping at most: `Demand` says what may happen to the tables, and
`step_demand` that nothing else does, in every reachable state.
-/

namespace OS2023.Paging

open OS2023.Lib

variable {F P N : ℕ} {pageSize : Int} {A : References P N pageSize} {c : Fin N}
  {s s' : Sim F P N} {ps ps' : List (Fin P)} {hit : Bool} {f : Fin F}

/-- Entry `j` of the page table maps what it mapped before. -/
def SameEntry (s s' : Sim F P N) (j : Fin P) : Prop :=
  (s'.pageTable j).pageNum = (s.pageTable j).pageNum ∧
    (s'.pageTable j).frameNum = (s.pageTable j).frameNum

/-- Entry `j` maps page `j` to frame `f`. -/
def MapsTo (s : Sim F P N) (j : Fin P) (f : Fin F) : Prop :=
  (s.pageTable j).pageNum = (j : ℕ) ∧ (s.pageTable j).frameNum = (f : ℕ)

/-- Entry `j` maps nothing. -/
def Unmapped (s : Sim F P N) (j : Fin P) : Prop :=
  (s.pageTable j).pageNum = -1 ∧ (s.pageTable j).frameNum = -1

/-- A reference to page `p` that is served from frame `f` and returns `result`
under demand paging: on a hit nothing is mapped anew and the queue stays, on a
fault `p` gets the lowest free frame, or the frame of the one page that is
unmapped for it. -/
inductive Demand (p : Fin P) (s s' : Sim F P N) (f : Fin F) : Int → Prop where
  | hit (mapped : MapsTo s p f) (same : ∀ j, SameEntry s s' j)
      (queue : s'.pageQueue = s.pageQueue) : Demand p s s' f 1
  | load (unmapped : Unmapped s p) (free : (s.frames f).isOccupied = 0)
      (lowest : ∀ i, i < f → (s.frames i).isOccupied ≠ 0) (maps : MapsTo s' p f)
      (same : ∀ j, j ≠ p → SameEntry s s' j) : Demand p s s' f 0
  | replace (unmapped : Unmapped s p) (full : ∀ i, (s.frames i).isOccupied ≠ 0) (q : Fin P)
      (other : q ≠ p) (owner : MapsTo s q f) (gone : Unmapped s' q) (maps : MapsTo s' p f)
      (same : ∀ j, j ≠ p → j ≠ q → SameEntry s s' j) : Demand p s s' f 0

/-- A hit does not touch the queue, in any of the routines. -/
theorem replacePage_hit_queue {alg : Algorithm} {i : Fin F} {r : Int}
    (hhit : hitFrame s c = some i) (hrun : replacePage alg s c pageSize = some (r, s')) :
    s'.pageQueue = s.pageQueue := by
  cases alg with
  | optimal | fifo | lru =>
      simp only [replacePage, replacePageOptimal, replacePageFIFO, replacePageLRU, hhit,
        Option.bind_eq_bind, Option.bind_eq_some_iff, Option.some.injEq, Prod.mk.injEq] at hrun
      obtain ⟨-, -, -, rfl⟩ := hrun
      rfl
  | sc =>
      simp only [replacePage, replacePageSC, hhit, Option.bind_eq_bind,
        Option.bind_eq_some_iff, Option.some.injEq, Prod.mk.injEq] at hrun
      obtain ⟨-, -, -, -, -, rfl⟩ := hrun
      rfl

theorem Rep.mapsTo (h : Rep s ps) {j : Fin P} (hj : j ∈ ps) (hf : ps.idxOf j = f) :
    MapsTo s j f := by
  refine ⟨h.maps.pageNum_of_mem hj, ?_⟩
  rw [h.maps.frameNum_of_mem hj, hf]

theorem Rep.unmapped (h : Rep s ps) {j : Fin P} (hj : j ∉ ps) : Unmapped s j := by
  rw [Unmapped, (h.maps j).1, (h.maps j).2, if_neg hj, if_neg hj]
  exact ⟨rfl, rfl⟩

theorem Rep.sameEntry (h : Rep s ps) (h' : Rep s' ps') {j : Fin P} (hmem : j ∈ ps' ↔ j ∈ ps)
    (hidx : j ∈ ps → ps'.idxOf j = ps.idxOf j) : SameEntry s s' j :=
  h.maps.entry_congr h'.maps hmem hidx

/-- **A served reference is demand paging.** -/
theorem Served.demand {alg : Algorithm} (hA : Loaded A s) (hrep : Rep s ps)
    (hrun : replacePage alg s c pageSize = some (if hit then 1 else 0, s'))
    (hserved : Served A c s ps hit f s' ps') :
    Demand (A.page c) s s' f (if hit then 1 else 0) := by
  have hrep' := hserved.rep
  have hmaps : MapsTo s' (A.page c) f :=
    hrep'.mapsTo hserved.access.mem (hserved.access.idxOf_eq hrep.nodup)
  rcases hserved.access.inv with ⟨mem, rfl, hf, rfl⟩ | ⟨fresh, rfl, room, hf, rfl⟩ |
    ⟨fresh, rfl, full, hlt, rfl⟩
  · obtain ⟨i, -, hhit⟩ := hrep.hitFrame_of_mem (hA.pageNum c) mem
    exact Demand.hit (hrep.mapsTo mem hf.symm)
      (fun j => hrep.sameEntry hrep' Iff.rfl fun _ => rfl) (replacePage_hit_queue hhit hrun)
  · refine Demand.load (hrep.unmapped fresh) ?_ (fun i hi => ?_) hmaps
      fun j hj => ?_
    · rw [hrep.occupied, if_neg (by omega)]
    · rw [hrep.occupied_iff, ← hf]
      exact hi
    · refine hrep.sameEntry hrep' ?_ fun hmem => List.idxOf_append_of_mem hmem
      simp [hj]
  · have hfps : (f : ℕ) < ps.length := full.symm ▸ hlt
    have hq := List.getElem_mem hfps
    refine Demand.replace (hrep.unmapped fresh)
      (fun i => hrep.occupied_iff.mpr (full.symm ▸ i.isLt)) ps[(f : ℕ)]
      (fun heq => fresh (heq ▸ hq)) (hrep.mapsTo hq (hrep.nodup.idxOf_getElem _ hfps))
      (hrep'.unmapped fun h => ?_) hmaps fun j hj hne => ?_
    · rcases (mem_set_iff hrep.nodup hfps).mp h with heq | ⟨-, hne⟩
      · exact fresh (heq ▸ hq)
      · exact hne rfl
    · have hstay : j ∈ ps.set (f : ℕ) (A.page c) ↔ j ∈ ps := by
        rw [mem_set_iff hrep.nodup hfps]
        simp [hj, hne]
      exact hrep.sameEntry hrep' hstay fun hmem =>
        hserved.access.idxOf_eq_of_stay hrep.nodup hmem (hstay.mpr hmem)

/-- **Every step is pure demand paging**: it returns 1 exactly when the page was
mapped, moves what `Demand` allows, and leaves every other frame as it was. -/
theorem step_demand (hF : 3 ≤ F) (A : Addresses P numAddresses pageSize) (alg : Algorithm)
    (c : Fin numAddresses) :
    ∃ (m m' : MainState F P numAddresses) (result : Int) (f : Fin F),
      runFor alg F P pageSize A.addr c = some m ∧
      replacePage alg m.sim c pageSize = some (result, m'.sim) ∧
      runFor alg F P pageSize A.addr (c + 1) = some m' ∧
      (result = 1 ↔ Mapped m.sim (A.page c)) ∧
      Demand (A.page c) m.sim m'.sim f result ∧
      ∀ i, i ≠ f → m'.sim.frames i = m.sim.frames i := by
  obtain ⟨m, ps, hit, f, s', ps', h, -⟩ := run_turn hF numAddresses_le A.toReferences alg c
  refine ⟨m, _, _, f, h.runs, h.result, h.next, ?_,
    h.served.demand h.steady.loaded h.steady.rep h.result, h.served.others⟩
  rw [h.steady.rep.mapped_iff, ← h.served.access.hit_iff]
  cases hit with
  | true => simp
  | false => simp

theorem step_demand_roundRobin :
    ∃ (m m' : MainState 3 4 numAddresses) (result : Int) (f : Fin 3),
      runFor .lru 3 4 1024 roundRobin.addr 3 = some m ∧
      replacePage .lru m.sim ⟨3, by decide⟩ 1024 = some (result, m'.sim) ∧
      Demand (roundRobin.page ⟨3, by decide⟩) m.sim m'.sim f result := by
  obtain ⟨m, m', result, f, hm, hrun, -, -, hdemand, -⟩ :=
    step_demand (F := 3) le_rfl roundRobin .lru ⟨3, by decide⟩
  exact ⟨m, m', result, f, hm, hrun, hdemand⟩

/-! ## Until memory is full -/

/-- The rows of the first `k` references in a memory that holds all their pages:
a page is hit from its second reference on, and its frame is its place in the
order of arrival. -/
def coldRows (A : References P N pageSize) (k : ℕ) : List Row :=
  ((List.finRange N).take k).map fun c =>
    A.row c (decide (A.page c ∈ A.referenced c)) ((arrivals A.page k).idxOf (A.page c))

theorem toFinset_arrivals (A : References P N pageSize) : ∀ k ≤ N,
    (arrivals A.page k).toFinset = A.referenced k := by
  intro k
  induction k with
  | zero => simp [arrivals, References.referenced]
  | succ k ih =>
      intro hk
      rw [arrivals_succ A.page hk, A.referenced_succ ⟨k, hk⟩, ← ih (Nat.le_of_succ_le hk)]
      split
      · rename_i hmem
        exact (Finset.insert_eq_of_mem (List.mem_toFinset.mpr hmem)).symm
      · exact toFinset_snoc _ _

theorem length_arrivals (A : References P N pageSize) {k : ℕ} (hk : k ≤ N) :
    (arrivals A.page k).length = (A.referenced k).card := by
  rw [← toFinset_arrivals A k hk, List.toFinset_card_of_nodup (arrivals_nodup A.page k hk)]

theorem coldRows_succ (A : References P N pageSize) (c : Fin N) :
    coldRows A (c + 1) = coldRows A c ++
      [A.row c (decide (A.page c ∈ A.referenced c))
        ((arrivals A.page (c + 1)).idxOf (A.page c))] := by
  unfold coldRows
  rw [take_succ_finRange c.isLt, List.map_append, List.map_singleton]
  congr 1
  refine List.map_congr_left fun j hj => ?_
  -- the place of a page that has arrived does not change
  have hjc : (j : ℕ) < c := by
    obtain ⟨i, hi, rfl⟩ := List.getElem_of_mem hj
    rw [List.length_take] at hi
    rw [List.getElem_take, List.getElem_finRange]
    exact lt_of_lt_of_le hi (min_le_left _ _)
  have hmem : A.page j ∈ arrivals A.page c :=
    (arrivals_extend A.page hjc c.isLt.le).subset (mem_arrivals_succ A.page j.isLt)
  obtain ⟨rest, hrest⟩ := arrivals_extend_succ A.page c.isLt
  rw [← hrest, List.idxOf_append_of_mem hmem]

/-- What a run of any policy looks like as long as there is room. -/
theorem coldStart_of_turns {alg : Algorithm} (turns : ∀ c : Fin N, ∃ m ps hit f s' ps',
    Turn (F := F) alg A c m ps hit f s' ps') :
    ∀ k ≤ N, ∃ m, runFor alg F P pageSize A.addr k = some m ∧
      ((A.referenced k).card ≤ F → Rep m.sim (arrivals A.page k) ∧ m.rows = coldRows A k ∧
        m.pageFaults = (A.referenced k).card) := by
  refine turns_induction turns (fun _ => ⟨(steady_initialState A).rep, rfl, ?_⟩) ?_
  · simp [initialState, References.referenced]
  · intro c m ps hit f s' ps' h hI hroom
    have hmono : (A.referenced c).card ≤ (A.referenced (c + 1)).card := by
      rw [A.referenced_succ]
      exact Finset.card_le_card (Finset.subset_insert _ _)
    obtain ⟨hrep, hrows, hcount⟩ := hI (hmono.trans hroom)
    obtain rfl := hrep.unique h.steady.rep
    obtain ⟨rfl, hf⟩ := h.served.access.arrivals A.page
      ((length_arrivals A c.isLt).trans_le hroom)
    have hhit : hit = decide (A.page c ∈ A.referenced c) := by
      rw [← toFinset_arrivals A c c.isLt.le]
      cases hit with
      | true => simpa using h.served.access.hit_iff.mp rfl
      | false => simpa using h.served.access.hit_iff.not.mp Bool.false_ne_true
    refine ⟨h.served.rep, ?_, ?_⟩
    · rw [coldRows_succ, ← hrows, ← hhit, ← hf]
      rfl
    · rw [A.referenced_succ]
      show (if hit then m.pageFaults else m.pageFaults + 1) = _
      rw [hhit, hcount]
      by_cases hmem : A.page c ∈ A.referenced c
      · simp [hmem]
      · simp [hmem]

/-- **The policies agree until memory is full.** On a prefix that touches at
most `F` pages all four print the same rows, give the pages their frames in the
order of arrival, and count one fault per page. -/
theorem policies_agree_until_full (hF : 3 ≤ F) (A : Addresses P numAddresses pageSize)
    {k : ℕ} (hk : k ≤ numAddresses) (hfew : (A.referenced k).card ≤ F) (alg : Algorithm) :
    ∃ m : MainState F P numAddresses, runFor alg F P pageSize A.addr k = some m ∧
      m.rows = coldRows A.toReferences k ∧ m.pageFaults = (A.referenced k).card := by
  obtain ⟨m, hrun, hcold⟩ :=
    coldStart_of_turns (run_turns hF numAddresses_le A.toReferences alg) k hk
  exact ⟨m, hrun, (hcold hfew).2⟩

theorem policies_agree_until_full_roundRobin :
    ∃ m : MainState 4 4 numAddresses, runFor .sc 4 4 1024 roundRobin.addr 5000 = some m ∧
      m.rows = coldRows roundRobin.toReferences 5000 := by
  obtain ⟨m, hrun, hrows, -⟩ := policies_agree_until_full (F := 4) (by decide) roundRobin
    (k := 5000) le_rfl ((Finset.card_le_univ _).trans (by simp)) .sc
  exact ⟨m, hrun, hrows⟩

end OS2023.Paging
