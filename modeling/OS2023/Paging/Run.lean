import OS2023.Paging.Fifo
import OS2023.Paging.Lru
import OS2023.Paging.Optimal
import OS2023.Paging.SecondChance

/-!
# Whole runs of the simulation loop

`mainTurn` calls one routine, counts its result and prints a row from the two
lookups. `Steady` is what holds between turns under every policy; a policy adds
an invariant of its own. `run_rule` turns a one-reference theorem such as
`fifo_serves` into a statement about every prefix of the run, and
`replacePage_serves` collects the four of them.
-/

namespace OS2023.Paging

open OS2023.Lib

variable {F P N : ℕ} {pageSize : Int} {A : References P N pageSize} {c : Fin N}
  {s s' : Sim F P N} {ps ps' : List (Fin P)} {hit : Bool} {f : Fin F}

/-! ## The lookups of `main` -/

section Lookups

variable {a : Int} {p : Fin P}

theorem Rep.getFrameNumFromVA (h : Rep s ps) (ha : a.tdiv pageSize = ((p : ℕ) : Int))
    (hmem : p ∈ ps) :
    getFrameNumFromVA a s.pageTable pageSize = some ((ps.idxOf p : ℕ) : Int) := by
  have hfirst : (firstWhere fun i => (s.pageTable i).pageNum == ((p : ℕ) : Int)) =
      some p := by
    apply firstWhere_unique
    · rw [beq_iff_eq]
      exact h.maps.pageNum_of_mem hmem
    · intro j hj
      exact (h.maps.pageNum_eq_iff.mp (beq_iff_eq.mp hj)).1
  rw [Paging.getFrameNumFromVA, ha, hfirst]
  exact congrArg some (h.maps.frameNum_of_mem hmem)

theorem Rep.matchedPageNum (h : Rep s ps) (ha : a.tdiv pageSize = ((p : ℕ) : Int))
    (hmem : p ∈ ps) : matchedPageNum a s.pageTable pageSize = ((p : ℕ) : Int) := by
  rw [Paging.matchedPageNum, ha]
  apply lastMatch_unique (i := p)
  · rw [beq_iff_eq]
    exact h.maps.pageNum_of_mem hmem
  · intro j hj
    exact (h.maps.pageNum_eq_iff.mp (beq_iff_eq.mp hj)).1

/-- The address found is the one stored in the frame of the page. -/
theorem Rep.getPhysicalAddressFromVA (h : Rep s ps)
    (ha : a.tdiv pageSize = ((p : ℕ) : Int)) (hmem : p ∈ ps) (hf : ps.idxOf p = f) :
    getPhysicalAddressFromVA a s.pageTable s.frames pageSize =
      some (s.frames f).physicalAddress := by
  have hlt : (f : ℕ) < ps.length := hf ▸ List.idxOf_lt_length_of_mem hmem
  have hfirst : (firstWhere fun i =>
      (s.pageTable p).frameNum == (s.frames i).frameNum) = some f := by
    rw [h.maps.frameNum_of_mem hmem, hf]
    apply firstWhere_unique
    · rw [beq_iff_eq, h.frameNum_of_lt hlt]
    · intro j hj
      rw [beq_iff_eq, h.numbered] at hj
      split at hj
      · exact Fin.ext (Int.natCast_inj.mp hj.symm)
      · omega
  rw [Paging.getPhysicalAddressFromVA, h.matchedPageNum ha hmem, index_val]
  simp only [Option.bind_eq_bind, Option.bind_some, hfirst]

end Lookups

/-- The pages with an entry in the page table. -/
def residentPages (s : Sim F P N) : Finset (Fin P) :=
  Finset.univ.filter fun j => (s.pageTable j).pageNum ≠ -1

theorem Rep.residentPages (h : Rep s ps) : residentPages s = ps.toFinset := by
  ext j
  rw [Paging.residentPages, Finset.mem_filter, List.mem_toFinset, (h.maps j).1]
  split
  · rename_i hj
    simp only [Finset.mem_univ, true_and, hj, iff_true]
    omega
  · rename_i hj
    simp [hj]

theorem Rep.mem_residentPages (h : Rep s ps) {q : Fin P} :
    q ∈ Paging.residentPages s ↔ q ∈ ps := by
  rw [h.residentPages, List.mem_toFinset]

/-- In a full memory every frame holds a resident page. -/
theorem Rep.exists_resident (h : Rep s ps) (hfull : ps.length = F) (i : Fin F) :
    ∃ q ∈ Paging.residentPages s, ps[(i : ℕ)]? = some q := by
  have hi : (i : ℕ) < ps.length := hfull.symm ▸ i.isLt
  exact ⟨ps[(i : ℕ)], h.mem_residentPages.mpr (List.getElem_mem hi),
    List.getElem?_eq_getElem hi⟩

theorem Rep.exists_frame (h : Rep s ps) {q : Fin P} (hq : q ∈ Paging.residentPages s) :
    ∃ i : Fin F, ps[(i : ℕ)]? = some q := by
  obtain ⟨i, hi, rfl⟩ := List.getElem_of_mem (h.mem_residentPages.mp hq)
  exact ⟨⟨i, lt_of_lt_of_le hi h.fits⟩, List.getElem?_eq_getElem hi⟩

/-! ## One turn -/

/-- The row printed for the `c`-th reference when it is served from `frame`. -/
def References.row (A : References P N pageSize) (c : Fin N) (hit : Bool) (frame : ℕ) : Row where
  no := c + 1
  virtualAddress := A.addr c
  pageNum := (A.page c : ℕ)
  frameNum := frame
  physicalAddress := frame * pageSize + A.offset c
  pageFaultChar := if hit then 'H' else 'F'

/-- What `main` carries after a reference that was served from `frame` and left
the tables as `sim`. -/
def MainState.record (m : MainState F P N) (A : References P N pageSize) (c : Fin N)
    (hit : Bool) (frame : ℕ) (sim : Sim F P N) : MainState F P N where
  sim := sim
  pageFaults := if hit then m.pageFaults else m.pageFaults + 1
  pageHits := if hit then m.pageHits + 1 else m.pageHits
  rows := m.rows ++ [A.row c hit frame]
  total := if (c : ℕ) = 4999 then some (if hit then m.pageFaults else m.pageFaults + 1)
    else m.total

variable {alg : Algorithm} {m : MainState F P N}

/-- **One turn of the loop.** A served reference is counted and printed. -/
theorem mainTurn_of_served (hA : Loaded A m.sim) (hrep : Rep m.sim ps)
    (hrun : replacePage alg m.sim c pageSize = some (if hit then 1 else 0, s'))
    (hserved : Served A c m.sim ps hit f s' ps') :
    mainTurn alg pageSize m c = some (m.record A c hit f s') := by
  have hmem := hserved.access.mem
  have hidx := hserved.access.idxOf_eq hrep.nodup
  have hA' := hserved.loaded hA
  have hframe := hserved.rep.getFrameNumFromVA (A.tdiv_eq_page c) hmem
  have hphysical := hserved.rep.getPhysicalAddressFromVA (A.tdiv_eq_page c) hmem hidx
  rw [hidx] at hframe
  rw [hserved.physical] at hphysical
  simp only [mainTurn, hrun, Option.bind_eq_bind, Option.bind_some, hA'.virtualAddress,
    hA'.pageNum, hframe, hphysical]
  cases hit <;> rfl

/-- The frame of a served reference is the one the code hits, fills or gives up. -/
theorem Served.usedFrame (hA : Loaded A s) (hrep : Rep s ps)
    (hserved : Served A c s ps hit f s' ps')
    (hvictim : hit = false → ps.length = F →
      victimFrameNum alg s c = some ((f : ℕ) : Int)) :
    usedFrame alg s c = some ((f : ℕ) : Int) := by
  unfold Paging.usedFrame
  rcases hserved.access.inv with ⟨mem, -, hf, -⟩ | ⟨fresh, -, room, hf, -⟩ |
    ⟨fresh, hmiss, full, -, -⟩
  · obtain ⟨i, hi, hfound⟩ := hrep.hitFrame_of_mem (hA.pageNum c) mem
    rw [hfound, hf, ← hi]
  · rw [hrep.hitFrame_of_notMem (hA.pageNum c) fresh, hrep.freeFrame_of_lt room, hf]
  · rw [hrep.hitFrame_of_notMem (hA.pageNum c) fresh, hrep.freeFrame_of_full full]
    exact hvictim hmiss full

/-! ## Between turns -/

/-- The pages among the first `k` references. -/
def References.referenced (A : References P N pageSize) (k : ℕ) : Finset (Fin P) :=
  (Finset.univ.filter fun j : Fin N => (j : ℕ) < k).image A.page

theorem References.mem_referenced (A : References P N pageSize) {k : ℕ} {q : Fin P} :
    q ∈ A.referenced k ↔ ∃ j : Fin N, (j : ℕ) < k ∧ A.page j = q := by
  simp [referenced]

theorem References.referenced_succ (A : References P N pageSize) (c : Fin N) :
    A.referenced (c + 1) = insert (A.page c) (A.referenced c) := by
  ext q
  rw [Finset.mem_insert, A.mem_referenced, A.mem_referenced]
  constructor
  · rintro ⟨j, hj, rfl⟩
    rcases Nat.lt_succ_iff_lt_or_eq.mp hj with h | h
    · exact Or.inr ⟨j, h, rfl⟩
    · exact Or.inl (congrArg A.page (Fin.ext h))
  · rintro (rfl | ⟨j, hj, rfl⟩)
    · exact ⟨c, Nat.lt_succ_self _, rfl⟩
    · exact ⟨j, Nat.lt_succ_of_lt hj, rfl⟩

/-- What holds after `k` turns under every policy. `filled` says that nothing
is given up before all frames are in use. -/
structure Steady (A : References P N pageSize) (k : ℕ) (m : MainState F P N)
    (ps : List (Fin P)) : Prop where
  loaded : Loaded A m.sim
  rep : Rep m.sim ps
  seen : Seen A k ps
  filled : ps.length = F ∨ ps.toFinset = A.referenced k
  quiet : m.sim.stdout = []

theorem steady_initialState (A : References P N pageSize) :
    Steady A 0 (initialState F P pageSize A.addr) [] :=
  { loaded := rfl
    rep :=
      { nodup := List.nodup_nil
        fits := Nat.zero_le F
        maps := fun j => by simp [initialState, createPageTable]
        occupied := fun i => by simp [initialState, createPhysicalMemoryInfoArray]
        numbered := fun i => by simp [initialState, createPhysicalMemoryInfoArray] }
    seen := by
      intro q hq
      simp at hq
    filled := Or.inr (by simp [References.referenced])
    quiet := rfl }

theorem Steady.turn (h : Steady A c m ps) (hserved : Served A c m.sim ps hit f s' ps') :
    Steady A (c + 1) (m.record A c hit f s') ps' :=
  { loaded := hserved.loaded h.loaded
    rep := hserved.rep
    seen := h.seen.access hserved.access
    filled := by
      rcases h.filled with hfull | hall
      · left
        exact le_antisymm hserved.rep.fits (hfull ▸ hserved.access.length_mono)
      · rw [A.referenced_succ, ← hall]
        rcases hserved.access.inv with ⟨mem, -, -, rfl⟩ | ⟨-, -, -, -, rfl⟩ |
          ⟨-, -, full, -, rfl⟩
        · right
          rw [Finset.insert_eq_of_mem (List.mem_toFinset.mpr mem)]
        · right
          rw [toFinset_snoc]
        · left
          rw [List.length_set, full]
    quiet := hserved.quiet.trans h.quiet }

/-- The number of frames in use. -/
theorem Steady.length_eq {k : ℕ} (h : Steady A k m ps) :
    ps.length = min F (A.referenced k).card := by
  have hcard : ps.toFinset.card = ps.length := List.toFinset_card_of_nodup h.rep.nodup
  rcases h.filled with hfull | hall
  · have hsub : ps.toFinset ⊆ A.referenced k := fun q hq =>
      A.mem_referenced.mpr (h.seen q (List.mem_toFinset.mp hq))
    have hle := Finset.card_le_card hsub
    rw [hcard, hfull] at hle
    rw [hfull, min_eq_left hle]
  · rw [← hall, hcard, min_eq_right h.rep.fits]

/-! ## Runs -/

theorem runFor_succ (alg : Algorithm) (addrs : Fin N → Int) (c : Fin N) :
    runFor alg F P pageSize addrs (c + 1) =
      (runFor alg F P pageSize addrs c).bind fun m => mainTurn alg pageSize m c := by
  unfold runFor
  rw [take_succ_finRange c.isLt, List.foldlM_append]
  cases List.foldlM (mainTurn alg pageSize) (initialState F P pageSize addrs)
      (List.take (↑c) (List.finRange N)) with
  | none => rfl
  | some m =>
      show (mainTurn alg pageSize m c >>= fun m' => some m') = mainTurn alg pageSize m c
      cases mainTurn alg pageSize m c <;> rfl

/-- A turn prints one row. -/
theorem mainTurn_rows {m' : MainState F P N} (h : mainTurn alg pageSize m c = some m') :
    ∃ row, m'.rows = m.rows ++ [row] := by
  simp only [mainTurn, Option.bind_eq_bind, Option.bind_eq_some_iff, Option.some.injEq] at h
  obtain ⟨-, -, -, -, -, -, rfl⟩ := h
  exact ⟨_, rfl⟩

theorem foldlM_mainTurn_rows (l : List (Fin N)) : ∀ {m m' : MainState F P N},
    l.foldlM (mainTurn alg pageSize) m = some m' →
      ∃ rows, m'.rows = m.rows ++ rows ∧ rows.length = l.length := by
  induction l with
  | nil =>
      intro m m' h
      obtain rfl := Option.some.inj h
      exact ⟨[], by simp, rfl⟩
  | cons i l ih =>
      intro m m' h
      rw [List.foldlM_cons] at h
      obtain ⟨m₁, hturn, hrest⟩ := Option.bind_eq_some_iff.mp h
      obtain ⟨row, hrow⟩ := mainTurn_rows hturn
      obtain ⟨rows, hrows, hlen⟩ := ih hrest
      refine ⟨row :: rows, ?_, by simp [hlen]⟩
      rw [hrows, hrow, List.append_assoc]
      rfl

theorem length_rows {addrs : Fin N → Int} {k : ℕ} (hk : k ≤ N)
    (hrun : runFor alg F P pageSize addrs k = some m) : m.rows.length = k := by
  obtain ⟨rows, hrows, hlen⟩ := foldlM_mainTurn_rows _ hrun
  rw [hrows, List.length_append, hlen, List.length_take, List.length_finRange]
  simp [initialState, hk]

/-- The rows of a run begin with the rows of the first turns. -/
theorem take_rows {addrs : Fin N → Int} {m' : MainState F P N} {k n : ℕ} (hkn : k ≤ n)
    (hn : n ≤ N) (hrun : runFor alg F P pageSize addrs k = some m)
    (hrun' : runFor alg F P pageSize addrs n = some m') : m'.rows.take k = m.rows := by
  have hsplit : (List.finRange N).take n =
      (List.finRange N).take k ++ ((List.finRange N).take n).drop k := by
    conv_lhs => rw [← List.take_append_drop k ((List.finRange N).take n)]
    rw [List.take_take, min_eq_left hkn]
  unfold runFor at hrun'
  rw [hsplit, List.foldlM_append] at hrun'
  obtain ⟨m₁, hrun₁, hrest⟩ := Option.bind_eq_some_iff.mp hrun'
  obtain rfl : m₁ = m := Option.some.inj (hrun₁.symm.trans hrun)
  obtain ⟨rows, hrows, -⟩ := foldlM_mainTurn_rows _ hrest
  have hlen := length_rows (hkn.trans hn) hrun
  rw [hrows, ← hlen, List.take_left]

/-- **The run rule.** A policy whose routine serves every reference and keeps
`I` runs through, and keeps `I` after every number of turns. -/
theorem run_rule (A : References P N pageSize)
    {I : ℕ → MainState F P N → List (Fin P) → Prop}
    (start : I 0 (initialState F P pageSize A.addr) [])
    (turn : ∀ (c : Fin N) m ps, runFor alg F P pageSize A.addr c = some m → Steady A c m ps →
      I c m ps →
      ∃ hit f s' ps', replacePage alg m.sim c pageSize = some (if hit then 1 else 0, s') ∧
        Served A c m.sim ps hit f s' ps' ∧ I (c + 1) (m.record A c hit (f : ℕ) s') ps') :
    ∀ k ≤ N, ∃ m ps, runFor alg F P pageSize A.addr k = some m ∧
      Steady A k m ps ∧ I k m ps := by
  intro k hk
  obtain ⟨m, -, hrun, ps, hsteady, hI⟩ := loop_induction
    (I := fun k m => runFor alg F P pageSize A.addr k = some m ∧
      ∃ ps, Steady A k m ps ∧ I k m ps)
    ⟨rfl, [], steady_initialState A, start⟩ (fun c m ⟨hrun, ps, hsteady, hI⟩ => by
      obtain ⟨hit, f, s', ps', hpage, hserved, hI'⟩ := turn c m ps hrun hsteady hI
      have hturn : mainTurn alg pageSize m c = some (m.record A c hit f s') :=
        mainTurn_of_served hsteady.loaded hsteady.rep hpage hserved
      refine ⟨_, hturn, ?_, ps', hsteady.turn hserved, hI'⟩
      rw [runFor_succ, hrun]
      exact hturn) k hk
  exact ⟨m, ps, hrun, hsteady, hI⟩

/-- Reference `c` in the run: the state before it, how it is served, the tables
after it. -/
structure Turn (alg : Algorithm) (A : References P N pageSize) (c : Fin N)
    (m : MainState F P N) (ps : List (Fin P)) (hit : Bool) (f : Fin F) (s' : Sim F P N)
    (ps' : List (Fin P)) : Prop where
  runs : runFor alg F P pageSize A.addr c = some m
  steady : Steady A c m ps
  result : replacePage alg m.sim c pageSize = some (if hit then 1 else 0, s')
  served : Served A c m.sim ps hit f s' ps'

theorem Turn.next (h : Turn alg A c m ps hit f s' ps') :
    runFor alg F P pageSize A.addr (c + 1) = some (m.record A c hit f s') := by
  rw [runFor_succ, h.runs]
  exact mainTurn_of_served h.steady.loaded h.steady.rep h.result h.served

/-! ## Hits and loads along a run -/

/-- What the routine returns for reference `c` of the run. -/
def resultAt (alg : Algorithm) (F P : ℕ) (pageSize : Int) (addrs : Fin N → Int) (c : Fin N) :
    Option Int := do
  let m ← runFor alg F P pageSize addrs c
  let (result, _) ← replacePage alg m.sim c pageSize
  some result

/-- The page that reference `c` hits, if it hits. -/
def hitAt (alg : Algorithm) (F : ℕ) (A : References P N pageSize) (c : Fin N) :
    Option (Fin P) :=
  if resultAt alg F P pageSize A.addr c = some 1 then some (A.page c) else none

/-- The page that reference `c` loads, if it faults. -/
def loadAt (alg : Algorithm) (F : ℕ) (A : References P N pageSize) (c : Fin N) :
    Option (Fin P) :=
  if resultAt alg F P pageSize A.addr c = some 0 then some (A.page c) else none

theorem Turn.resultAt (h : Turn alg A c m ps hit f s' ps') :
    resultAt alg F P pageSize A.addr c = some (if hit then 1 else 0) := by
  simp [Paging.resultAt, h.runs, h.result]

/-- A reference returns 0 when its page is not in memory. -/
theorem Turn.resultAt_eq_zero_iff (h : Turn alg A c m ps hit f s' ps') :
    Paging.resultAt alg F P pageSize A.addr c = some 0 ↔ A.page c ∉ ps := by
  rw [h.resultAt, ← h.served.access.hit_iff]
  cases hit <;> simp

theorem Turn.hitAt (h : Turn alg A c m ps hit f s' ps') :
    hitAt alg F A c = if hit then some (A.page c) else none := by
  rw [Paging.hitAt, h.resultAt]
  cases hit <;> simp

theorem Turn.loadAt (h : Turn alg A c m ps hit f s' ps') :
    loadAt alg F A c = if hit then none else some (A.page c) := by
  rw [Paging.loadAt, h.resultAt]
  cases hit <;> simp

/-! ## Resident pages along a run -/

/-- The resident pages after `k` turns. -/
def residentAt (alg : Algorithm) (F P : ℕ) (pageSize : Int) (addrs : Fin N → Int) (k : ℕ) :
    Finset (Fin P) :=
  match runFor alg F P pageSize addrs k with
  | some m => residentPages m.sim
  | none => ∅

theorem residentAt_eq {k : ℕ} (hrun : runFor alg F P pageSize A.addr k = some m)
    (hrep : Rep m.sim ps) : residentAt alg F P pageSize A.addr k = ps.toFinset := by
  rw [residentAt, hrun]
  exact hrep.residentPages

theorem Turn.resident (h : Turn alg A c m ps hit f s' ps') :
    residentAt alg F P pageSize A.addr c = ps.toFinset :=
  residentAt_eq h.runs h.steady.rep

theorem Turn.resident_next (h : Turn alg A c m ps hit f s' ps') :
    residentAt alg F P pageSize A.addr (c + 1) = ps'.toFinset :=
  residentAt_eq h.next h.served.rep

theorem residentAt_zero (alg : Algorithm) (A : References P N pageSize) :
    residentAt alg F P pageSize A.addr 0 = ∅ :=
  residentAt_eq (F := F) rfl (steady_initialState A).rep

section Turns

variable (turns : ∀ c : Fin N, ∃ m ps hit f s' ps',
  Turn (F := F) alg A c m ps hit f s' ps')
include turns

/-- Every run is a demand-paging schedule. -/
theorem schedule_of_turns : Schedule F A.page (residentAt alg F P pageSize A.addr) := by
  refine ⟨residentAt_zero alg A, fun c => ?_⟩
  obtain ⟨m, ps, hit, f, s', ps', h⟩ := turns c
  rw [h.resident, h.resident_next]
  refine ⟨List.mem_toFinset.mpr h.served.access.mem, ?_, fun q hq => ?_⟩
  · rw [List.toFinset_card_of_nodup h.served.rep.nodup]
    exact h.served.rep.fits
  · have hsub := h.served.access.subset (List.mem_toFinset.mp hq)
    rw [← List.toFinset_cons]
    exact List.mem_toFinset.mpr hsub

/-- Induction along a run: what every turn keeps holds after every number of
turns. -/
theorem turns_induction {I : ℕ → MainState F P N → Prop}
    (start : I 0 (initialState F P pageSize A.addr))
    (turn : ∀ (c : Fin N) m ps hit f s' ps', Turn alg A c m ps hit f s' ps' → I c m →
      I (c + 1) (m.record A c hit (f : ℕ) s')) :
    ∀ k ≤ N, ∃ m, runFor alg F P pageSize A.addr k = some m ∧ I k m := by
  intro k
  induction k with
  | zero => exact fun _ => ⟨_, rfl, start⟩
  | succ k ih =>
      intro hk
      obtain ⟨m₀, hrun₀, hI⟩ := ih (Nat.le_of_succ_le hk)
      obtain ⟨m, ps, hit, f, s', ps', h⟩ := turns ⟨k, hk⟩
      obtain rfl : m₀ = m := Option.some.inj (hrun₀.symm.trans h.runs)
      exact ⟨_, h.next, turn ⟨k, hk⟩ m₀ ps hit f s' ps' h hI⟩

/-- The counter of `main` is the number of faults of that schedule. -/
theorem pageFaults_of_turns : ∀ k ≤ N, ∃ m, runFor alg F P pageSize A.addr k = some m ∧
    m.pageFaults = faults A.page (residentAt alg F P pageSize A.addr) k := by
  refine turns_induction turns (by simp [initialState]) ?_
  intro c m ps hit f s' ps' h hcount
  rw [faults_succ, h.resident, ← hcount]
  have hiff := h.served.access.hit_iff
  cases hit with
  | true =>
      rw [if_pos (List.mem_toFinset.mpr (hiff.mp rfl))]
      rfl
  | false =>
      rw [if_neg fun hmem => by simpa using hiff.mpr (List.mem_toFinset.mp hmem)]
      rfl

/-- One row is printed for each reference, in their order. -/
theorem rows_of_turns : ∀ k ≤ N, ∃ m, runFor alg F P pageSize A.addr k = some m ∧
    m.rows.map Row.virtualAddress = ((List.finRange N).take k).map A.addr ∧
    ∀ row ∈ m.rows, ∃ (c : Fin N) (hit : Bool) (f : Fin F), row = A.row c hit f := by
  refine turns_induction turns ⟨rfl, by simp [initialState]⟩ ?_
  rintro c m ps hit f s' ps' - ⟨haddr, hrows⟩
  constructor
  · rw [take_succ_finRange c.isLt, List.map_append, ← haddr]
    simp [MainState.record, References.row]
  · intro row hrow
    rcases List.mem_append.mp hrow with hold | hnew
    · exact hrows row hold
    · exact ⟨c, hit, f, List.mem_singleton.mp hnew⟩

end Turns

/-- The closing line reports the faults counted. -/
theorem total_of_turns {A : References P numAddresses pageSize}
    (turns : ∀ c : Fin numAddresses, ∃ m ps hit f s' ps',
      Turn (F := F) alg A c m ps hit f s' ps') :
    ∃ m, simulate alg F P pageSize A.addr = some m ∧ m.total = some m.pageFaults ∧
      m.pageFaults = faults A.page (residentAt alg F P pageSize A.addr) numAddresses := by
  obtain ⟨m, hrun, hcount⟩ := pageFaults_of_turns turns numAddresses le_rfl
  obtain ⟨m₀, ps, hit, f, s', ps', h⟩ := turns ⟨4999, by decide⟩
  obtain rfl := Option.some.inj (hrun.symm.trans h.next)
  refine ⟨_, h.next, ?_, hcount⟩
  simp [MainState.record]

/-! ## The four policies -/

/-- Distances stay below the sentinel 5000 because the array is no longer. -/
theorem numAddresses_le : numAddresses ≤ 5000 :=
  le_rfl

/-- What each policy keeps in its queue. LRU has none. -/
def QueueInv : Algorithm → Sim F P N → List (Fin P) → Prop
  | .optimal, s, ps => ∃ l, l.Perm (List.range ps.length) ∧ Unrotated s l
  | .fifo, s, ps => ∃ l, l.Perm (List.range ps.length) ∧ Queued s l
  | .lru, _, _ => True
  | .sc, s, ps => ∃ k, ClockRep s ps k

theorem queued_initialState (A : References P N pageSize) :
    Queued (initialState F P pageSize A.addr).sim [] :=
  holds_initializePageQueue

theorem unrotated_initialState (A : References P N pageSize) :
    Unrotated (initialState F P pageSize A.addr).sim [] :=
  Or.inl ⟨rfl, rfl, rfl⟩

theorem clockRep_initialState (hF : 0 < F) (A : References P N pageSize) :
    ClockRep (initialState F P pageSize A.addr).sim [] (Clock.start hF) :=
  { pages := fun i => rfl
    bits := by
      intro i q hq
      simp at hq
    filling := fun _ => ⟨rfl, queued_initialState A⟩
    turning := fun h => absurd h.symm (Nat.pos_iff_ne_zero.mp hF) }

theorem queueInv_initialState (hF : 0 < F) (A : References P N pageSize)
    (alg : Algorithm) : QueueInv alg (initialState F P pageSize A.addr).sim [] := by
  cases alg with
  | optimal => exact ⟨[], List.Perm.nil, unrotated_initialState A⟩
  | fifo => exact ⟨[], List.Perm.nil, queued_initialState A⟩
  | lru => trivial
  | sc => exact ⟨Clock.start hF, clockRep_initialState hF A⟩

/-- **Every policy serves every reference**, and keeps its queue. -/
theorem replacePage_serves (hF : 3 ≤ F) (hN : N ≤ 5000) (h : Steady A c m ps)
    (hq : QueueInv alg m.sim ps) :
    ∃ hit f s' ps', replacePage alg m.sim c pageSize = some (if hit then 1 else 0, s') ∧
      Served A c m.sim ps hit f s' ps' ∧ QueueInv alg s' ps' ∧
      usedFrame alg m.sim c = some ((f : ℕ) : Int) := by
  have hpos : 0 < F := Nat.lt_of_lt_of_le (Nat.succ_pos 2) hF
  cases alg with
  | optimal =>
      obtain ⟨l, hl, hq⟩ := hq
      obtain ⟨hit, f, s', ps', hrun, hserved, hq', hv⟩ :=
        optimal_serves hF hN h.loaded h.rep hq hl c
      exact ⟨hit, f, s', ps', hrun, hserved, ⟨_, hserved.access.queue_perm hl, hq'⟩,
        hserved.usedFrame h.loaded h.rep hv⟩
  | fifo =>
      obtain ⟨l, hl, hq⟩ := hq
      obtain ⟨hit, f, s', ps', hrun, hserved, hq', hv⟩ :=
        fifo_serves hpos h.loaded h.rep hq hl c
      exact ⟨hit, f, s', ps', hrun, hserved, ⟨_, hserved.access.queue_perm hl, hq'⟩,
        hserved.usedFrame h.loaded h.rep fun hmiss hfull => (hv hmiss hfull).2⟩
  | lru =>
      obtain ⟨hit, f, s', ps', hrun, hserved, hv⟩ :=
        lru_serves hpos h.loaded h.rep c h.seen
      exact ⟨hit, f, s', ps', hrun, hserved, trivial,
        hserved.usedFrame h.loaded h.rep fun hmiss hfull => (hv hmiss hfull).1⟩
  | sc =>
      obtain ⟨k, hk⟩ := hq
      obtain ⟨s', ps', hrun, hserved, hk', hv⟩ := sc_serves h.loaded h.rep hk c
      exact ⟨_, _, s', ps', hrun, hserved, ⟨_, hk'⟩, hserved.usedFrame h.loaded h.rep hv⟩

/-- Every policy runs through, and is steady after every number of turns. -/
theorem run_steady (hF : 3 ≤ F) (hN : N ≤ 5000) (A : References P N pageSize)
    (alg : Algorithm) : ∀ k ≤ N, ∃ m ps, runFor alg F P pageSize A.addr k = some m ∧
      Steady A k m ps ∧ QueueInv alg m.sim ps := by
  refine run_rule A (queueInv_initialState (by omega) A alg) ?_
  intro c m ps _ hsteady hq
  obtain ⟨hit, f, s', ps', hrun, hserved, hq', -⟩ := replacePage_serves hF hN hsteady hq
  exact ⟨hit, f, s', ps', hrun, hserved, hq'⟩

theorem run_turn (hF : 3 ≤ F) (hN : N ≤ 5000) (A : References P N pageSize)
    (alg : Algorithm) (c : Fin N) : ∃ m ps hit f s' ps',
      Turn (F := F) alg A c m ps hit f s' ps' ∧
      usedFrame alg m.sim c = some ((f : ℕ) : Int) := by
  obtain ⟨m, ps, hrun, hsteady, hq⟩ := run_steady hF hN A alg c c.isLt.le
  obtain ⟨hit, f, s', ps', hpage, hserved, -, hused⟩ := replacePage_serves hF hN hsteady hq
  exact ⟨m, ps, hit, f, s', ps', ⟨hrun, hsteady, hpage, hserved⟩, hused⟩

theorem run_turns (hF : 3 ≤ F) (hN : N ≤ 5000) (A : References P N pageSize)
    (alg : Algorithm) (c : Fin N) :
    ∃ m ps hit f s' ps', Turn (F := F) alg A c m ps hit f s' ps' := by
  obtain ⟨m, ps, hit, f, s', ps', h, -⟩ := run_turn hF hN A alg c
  exact ⟨m, ps, hit, f, s', ps', h⟩

end OS2023.Paging
