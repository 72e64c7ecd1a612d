import OS2023.Lib.Rotation
import OS2023.Paging.Consistency

/-!
# Second-Chance is the clock, FIFO is a counter

Two policies have a description that mentions neither tables nor queue: the
one-handed clock of `OS2023.Lib.Clock`, and the counter of
`OS2023.Lib.Rotation`. Each run is related to its description turn by turn.
-/

namespace OS2023.Paging

open OS2023.Lib

variable {F P N : ℕ} {pageSize : Int}

/-! ## Second-Chance -/

/-- The pages of the first `k` references. -/
def References.pages (A : References P N pageSize) (k : ℕ) : List (Fin P) :=
  ((List.finRange N).take k).map A.page

theorem References.pages_succ (A : References P N pageSize) (c : Fin N) :
    A.pages (c + 1) = A.pages c ++ [A.page c] := by
  rw [pages, take_succ_finRange c.isLt, List.map_append]
  rfl

/-- The clock after the first `k` references. -/
def clockAt (hF : 0 < F) (A : References P N pageSize) (k : ℕ) : Clock F (Fin P) :=
  (Clock.start hF).after (A.pages k)

theorem clockAt_succ (hF : 0 < F) (A : References P N pageSize) (c : Fin N) :
    clockAt hF A (c + 1) = ((clockAt hF A c).access (A.page c)).2.2 := by
  rw [clockAt, A.pages_succ, Clock.after_snoc]
  rfl

/-- Along the run the state represents the clock. -/
theorem sc_clockRep (hF : 0 < F) (A : References P N pageSize) : ∀ k ≤ N, ∃ m ps,
    runFor .sc F P pageSize A.addr k = some m ∧ Steady A k m ps ∧
      ClockRep m.sim ps (clockAt hF A k) := by
  refine run_rule A (I := fun k m ps => ClockRep m.sim ps (clockAt hF A k))
    (clockRep_initialState hF A) ?_
  intro c m ps _ hsteady hk
  obtain ⟨s', ps', hrun, hserved, hk', -⟩ := sc_serves hsteady.loaded hsteady.rep hk c
  rw [clockAt_succ]
  exact ⟨_, _, s', ps', hrun, hserved, hk'⟩

/-- The clock holds the resident pages. -/
theorem ClockRep.mem_residentPages {s : Sim F P N} {ps : List (Fin P)}
    {k : Clock F (Fin P)} (h : ClockRep s ps k) (hrep : Rep s ps) {q : Fin P} :
    q ∈ residentPages s ↔ ∃ i, k.pages i = some q := by
  rw [hrep.mem_residentPages, List.mem_iff_getElem?]
  constructor
  · rintro ⟨i, hi⟩
    obtain ⟨hlt, -⟩ := List.getElem?_eq_some_iff.mp hi
    refine ⟨⟨i, lt_of_lt_of_le hlt hrep.fits⟩, ?_⟩
    rw [h.pages]
    exact hi
  · rintro ⟨i, hi⟩
    rw [h.pages] at hi
    exact ⟨i, hi⟩

/-- **Second-Chance refines the one-handed clock.** Reference `c` has the
clock's result and frame; afterwards the clock's pages are resident and, once
all frames are occupied, the queue is the circle read from the hand. -/
theorem sc_refines_clock (hF : 0 < F) (A : Addresses P N pageSize) (c : Fin N) :
    ∃ (m m' : MainState F P N) (row : Row),
      runFor .sc F P pageSize A.addr c = some m ∧
      runFor .sc F P pageSize A.addr (c + 1) = some m' ∧
      m'.rows = m.rows ++ [row] ∧
      row.pageFaultChar =
        (if ((clockAt hF A.toReferences c).access (A.page c)).1 then 'H' else 'F') ∧
      row.frameNum = (((clockAt hF A.toReferences c).access (A.page c)).2.1 : ℕ) ∧
      (∀ q, q ∈ residentPages m'.sim ↔
        ∃ i, (clockAt hF A.toReferences (c + 1)).pages i = some q) ∧
      ((∀ i, (m'.sim.frames i).isOccupied ≠ 0) →
        Queued m'.sim (cycle F (clockAt hF A.toReferences (c + 1)).hand)) := by
  obtain ⟨m, ps, hrun, hsteady, hk⟩ := sc_clockRep hF A.toReferences c c.isLt.le
  obtain ⟨s', ps', hpage, hserved, hk', -⟩ := sc_serves hsteady.loaded hsteady.rep hk c
  have hturn : Turn .sc A.toReferences c m ps _ _ s' ps' := ⟨hrun, hsteady, hpage, hserved⟩
  rw [clockAt_succ]
  refine ⟨m, _, _, hrun, hturn.next, rfl, rfl, rfl, fun q => ?_, fun hall => ?_⟩
  · exact hk'.mem_residentPages hserved.rep
  · exact hk'.turning (hserved.rep.length_eq_of_occupied hall)

/-- References to three pages, to two of them again, and from then on to a fourth. -/
def twoAgain : Addresses 4 numAddresses 1024 :=
  Addresses.ofInRange
    (fun i => (if (i : ℕ) < 3 then (i : ℕ) else if (i : ℕ) < 5 then i - 3 else 3 : ℕ) * 1024)
    fun i => by split_ifs <;> omega

theorem twoAgain_page {i : Fin numAddresses} {q : Fin 4}
    (hq : (if (i : ℕ) < 3 then (i : ℕ) else if (i : ℕ) < 5 then i - 3 else 3) = q) :
    twoAgain.page i = q := by
  have hpage := twoAgain.tdiv_eq_page i
  rw [Int.tdiv_eq_ediv_of_nonneg (twoAgain.inRange i).1,
    show twoAgain.addr i = ((if (i : ℕ) < 3 then (i : ℕ) else if (i : ℕ) < 5 then i - 3
      else 3 : ℕ) : Int) * 1024 from rfl, hq] at hpage
  apply Fin.ext
  omega

/-- The two pages have their bits set when the fourth page comes. -/
theorem twoAgain_clockAt : clockAt (F := 3) (by decide) twoAgain.toReferences 5 =
    ⟨![some 0, some 1, some 2], ![true, true, false], 0⟩ := by
  have hpages : twoAgain.pages 5 = [0, 1, 2, 0, 1] := by
    have step : ∀ (c : Fin numAddresses) (q : Fin 4) (l : List (Fin 4)), twoAgain.page c = q →
        twoAgain.pages c = l → twoAgain.pages (c + 1) = l ++ [q] := by
      rintro c q l rfl rfl
      exact twoAgain.pages_succ c
    have h0 := step ⟨0, by decide⟩ 0 [] (twoAgain_page rfl) rfl
    have h1 := step ⟨1, by decide⟩ 1 _ (twoAgain_page rfl) h0
    have h2 := step ⟨2, by decide⟩ 2 _ (twoAgain_page rfl) h1
    have h3 := step ⟨3, by decide⟩ 0 _ (twoAgain_page rfl) h2
    exact step ⟨4, by decide⟩ 1 _ (twoAgain_page rfl) h3
  rw [clockAt, hpages]
  have hfields : ∀ k : Clock 3 (Fin 4), k.pages = ![some 0, some 1, some 2] →
      k.bits = ![true, true, false] → k.hand = 0 →
      k = ⟨![some 0, some 1, some 2], ![true, true, false], 0⟩ := by
    rintro ⟨_, _, _⟩ rfl rfl rfl
    rfl
  exact hfields _ (by decide) (by decide) (by decide)

/-- The sweep for the fourth page passes over the two and stops at the third frame. -/
theorem twoAgain_access (c : Fin numAddresses) (hc : (c : ℕ) = 5) :
    (clockAt (F := 3) (by decide) twoAgain.toReferences c).access (twoAgain.page c) =
      (false, 2, ⟨![some 0, some 1, some 3], ![false, false, false], 0⟩) := by
  have hpage : twoAgain.page c = 3 := twoAgain_page (by rw [hc]; rfl)
  rw [hc, twoAgain_clockAt, hpage]
  have hsweep : sweep ![true, true, false] (0 : Fin 3) = (![false, false, false], 2) := by
    rw [sweep_of_set rfl, sweep_of_set rfl, sweep_of_clear rfl]
    decide
  have hhit : (firstWhere fun i : Fin 3 =>
      (![some 0, some 1, some 2] : Fin 3 → Option (Fin 4)) i == some 3) = none := by
    decide
  have hfree : (firstWhere fun i : Fin 3 =>
      (![some 0, some 1, some 2] : Fin 3 → Option (Fin 4)) i == none) = none := by
    decide
  rw [Clock.access]
  dsimp only
  rw [hhit, hfree, hsweep]
  simp only [Clock.load, Prod.mk.injEq, Clock.mk.injEq, true_and]
  decide

theorem twoAgain_full {k : ℕ} (hk : 3 ≤ k) (hN : k ≤ numAddresses)
    {m : MainState 3 4 numAddresses}
    (hrun : runFor .sc 3 4 1024 twoAgain.addr k = some m) (i : Fin 3) :
    (m.sim.frames i).isOccupied ≠ 0 := by
  have hsub : ({0, 1, 2} : Finset (Fin 4)) ⊆ twoAgain.referenced k := by
    intro q hq
    have hq3 : (q : ℕ) < 3 := by
      revert q
      decide
    apply twoAgain.mem_referenced.mpr
    exact ⟨⟨q, hq3.trans (by decide)⟩, hq3.trans_le hk, twoAgain_page (if_pos hq3)⟩
  obtain ⟨m₀, ps, hrun₀, hsteady, -⟩ :=
    sc_clockRep (F := 3) (by decide) twoAgain.toReferences k hN
  obtain rfl : m₀ = m := Option.some.inj (hrun₀.symm.trans hrun)
  exact hsteady.isOccupied (Finset.card_le_card hsub) i

/-- The fault on the fourth page gives two second chances and takes the third frame. -/
theorem sc_refines_clock_twoAgain :
    ∃ (m m' : MainState 3 4 numAddresses) (row : Row),
      runFor .sc 3 4 1024 twoAgain.addr 5 = some m ∧
      runFor .sc 3 4 1024 twoAgain.addr 6 = some m' ∧
      m'.rows = m.rows ++ [row] ∧ row.pageFaultChar = 'F' ∧ row.frameNum = 2 ∧
      residentPages m'.sim = {0, 1, 3} ∧ Queued m'.sim [0, 1, 2] := by
  let c : Fin numAddresses := ⟨5, by decide⟩
  obtain ⟨m, m', row, hm, hm', hrows, hchar, hframe, hpages, hqueue⟩ :=
    sc_refines_clock (F := 3) (by decide) twoAgain c
  have haccess := twoAgain_access c rfl
  rw [clockAt_succ, haccess] at hpages hqueue
  rw [haccess] at hchar hframe
  refine ⟨m, m', row, hm, hm', hrows, hchar, hframe, ?_,
    hqueue (twoAgain_full (by decide) (by decide) hm')⟩
  ext q
  rw [hpages]
  revert q
  decide

/-! ## FIFO -/

/-- The pages loaded so far, oldest first: those of the rows marked `F`. -/
def MainState.loads (m : MainState F P N) : List Int :=
  (m.rows.filter fun row => row.pageFaultChar == 'F').map Row.pageNum

theorem MainState.loads_record (m : MainState F P N) (A : References P N pageSize)
    (c : Fin N) (hit : Bool) (frame : ℕ) (sim : Sim F P N) :
    (m.record A c hit frame sim).loads =
      if hit then m.loads else m.loads ++ [((A.page c : ℕ) : Int)] := by
  unfold loads record
  rw [List.filter_append, List.map_append]
  cases hit with
  | true => simp [References.row]
  | false => simp [References.row]

/-- The state of a FIFO run that has loaded the pages `loads`. -/
structure FifoInv (m : MainState F P N) (ps loads : List (Fin P)) : Prop where
  printed : m.loads = loads.map fun q : Fin P => ((q : ℕ) : Int)
  counted : loads.length = m.pageFaults
  rotating : Rotating F loads ps
  queued : Queued m.sim (rotation F loads.length)

theorem FifoInv.initialState (A : References P N pageSize) :
    FifoInv (initialState F P pageSize A.addr) [] [] :=
  { printed := rfl
    counted := rfl
    rotating := Rotating.nil
    queued := by
      have hnil : rotation F ([] : List (Fin P)).length = [] := by
        cases F <;> rfl
      rw [hnil]
      exact queued_initialState A }

/-- A fault adds its page to the loads. -/
theorem FifoInv.load {A : References P N pageSize} {c : Fin N} {m : MainState F P N}
    {ps ps' loads : List (Fin P)} (h : FifoInv m ps loads) {frame : ℕ} {s' : Sim F P N}
    (hrot : Rotating F (loads ++ [A.page c]) ps')
    (hq : Queued s' (rotation F (loads.length + 1))) :
    FifoInv (m.record A c false frame s') ps' (loads ++ [A.page c]) where
  printed := by
    rw [m.loads_record, h.printed]
    simp
  counted := by simp [MainState.record, h.counted]
  rotating := hrot
  queued := by
    rw [List.length_append]
    exact hq

/-- How FIFO serves reference `c`, in terms of the loads before it. -/
theorem FifoInv.turn (hF : 0 < F) {A : References P N pageSize} {c : Fin N}
    {m : MainState F P N} {ps loads : List (Fin P)} (hsteady : Steady A c m ps)
    (h : FifoInv m ps loads) :
    ∃ hit f s' ps', replacePage .fifo m.sim c pageSize = some (if hit then 1 else 0, s') ∧
      Served A c m.sim ps hit f s' ps' ∧
      FifoInv (m.record A c hit (f : ℕ) s') ps'
        (if hit then loads else loads ++ [A.page c]) ∧
      (hit = false → (f : ℕ) = loads.length % F) := by
  have hlen := h.rotating.length
  have hperm : (rotation F loads.length).Perm (List.range ps.length) := by
    rw [hlen]
    exact rotation_perm hF _
  obtain ⟨hit, f, s', ps', hrun, hserved, hq, hvictim⟩ :=
    fifo_serves hF hsteady.loaded hsteady.rep h.queued hperm c
  refine ⟨hit, f, s', ps', hrun, hserved, ?_⟩
  have hstep : (f : ℕ) = loads.length % F →
      (rotation F loads.length).erase f ++ [(f : ℕ)] = rotation F (loads.length + 1) := by
    intro hf
    rw [hf]
    exact rotation_succ hF loads.length
  rcases hserved.access.inv with ⟨-, rfl, -, rfl⟩ | ⟨-, rfl, room, hf, rfl⟩ |
    ⟨-, rfl, full, -, rfl⟩
  · refine ⟨⟨?_, h.counted, h.rotating, hq⟩, by simp⟩
    rw [m.loads_record, if_pos rfl]
    exact h.printed
  · -- frames still free: the number of loads is the next frame
    have hsame : loads.length = ps.length := by omega
    have hmod : (f : ℕ) = loads.length % F := by
      rw [hf, hsame, Nat.mod_eq_of_lt room]
    exact ⟨h.load (h.rotating.load room _) (hstep hmod ▸ hq), fun _ => hmod⟩
  · have hge : F ≤ loads.length := by omega
    have hmod : (f : ℕ) = loads.length % F := by
      have hhead := (hvictim rfl full).1
      rw [rotation_head hF hge] at hhead
      exact (Option.some.inj hhead).symm
    have hrot : Rotating F (loads ++ [A.page c]) (ps.set f (A.page c)) := by
      rw [hmod]
      exact h.rotating.replace full hF _
    exact ⟨h.load hrot (hstep hmod ▸ hq), fun _ => hmod⟩

/-- Along the run the loads are those of the reference string. -/
theorem fifo_inv (hF : 0 < F) (A : References P N pageSize) : ∀ k ≤ N, ∃ m ps,
    runFor .fifo F P pageSize A.addr k = some m ∧ Steady A k m ps ∧
      FifoInv m ps (fifoLoads F A.page k) := by
  refine run_rule A (I := fun k m ps => FifoInv m ps (fifoLoads F A.page k))
    (FifoInv.initialState A) ?_
  intro c m ps _ hsteady h
  obtain ⟨hit, f, s', ps', hrun, hserved, h', -⟩ := h.turn hF hsteady
  rw [h.rotating.fifoLoads_succ hserved.access]
  exact ⟨hit, f, s', ps', hrun, hserved, h'⟩

theorem fifo_turn (hF : 0 < F) (A : References P N pageSize) (c : Fin N) :
    ∃ m ps hit f s' ps', Turn (F := F) .fifo A c m ps hit f s' ps' ∧
      FifoInv m ps (fifoLoads F A.page c) ∧
      (hit = false → (f : ℕ) = (fifoLoads F A.page c).length % F) := by
  obtain ⟨m, ps, hrun, hsteady, h⟩ := fifo_inv hF A c c.isLt.le
  obtain ⟨hit, f, s', ps', hpage, hserved, -, hframe⟩ := h.turn hF hsteady
  exact ⟨m, ps, hit, f, s', ps', ⟨hrun, hsteady, hpage, hserved⟩, h, hframe⟩

theorem fifo_residentAt (hF : 0 < F) (A : References P N pageSize) {k : ℕ} (hk : k ≤ N) :
    residentAt .fifo F P pageSize A.addr k =
      ((fifoLoads F A.page k).drop ((fifoLoads F A.page k).length - F)).toFinset := by
  obtain ⟨m, ps, hrun, hsteady, h⟩ := fifo_inv hF A k hk
  rw [residentAt_eq hrun hsteady.rep]
  ext q
  rw [List.mem_toFinset, List.mem_toFinset]
  exact h.rotating.mem_iff

/-- **FIFO equals its counter.** With `k` faults so far, a reference hits when
its page is among the last `min F k` loads; otherwise it is load number `k`,
goes to frame `k % F`, and drives out nothing (`k < F`) or exactly the page of
load number `k - F`. -/
theorem fifo_counter (hF : 0 < F) (A : Addresses P N pageSize) (c : Fin N) :
    ∃ (m m' : MainState F P N) (row : Row),
      runFor .fifo F P pageSize A.addr c = some m ∧
      runFor .fifo F P pageSize A.addr (c + 1) = some m' ∧
      m'.rows = m.rows ++ [row] ∧
      row.pageNum = (A.page c : ℕ) ∧
      m.loads.length = m.pageFaults ∧
      (row.pageFaultChar = 'H' ↔ row.pageNum ∈ m.loads.drop (m.pageFaults - F)) ∧
      (row.pageFaultChar ≠ 'H' →
        m'.loads = m.loads ++ [row.pageNum] ∧
        row.frameNum = (m.pageFaults % F : ℕ) ∧
        (m.pageFaults < F →
          residentPages m'.sim = insert (A.page c) (residentPages m.sim)) ∧
        (F ≤ m.pageFaults → ∃ v : Fin P,
          m.loads[m.pageFaults - F]? = some ((v : ℕ) : Int) ∧ v ∈ residentPages m.sim ∧
          residentPages m'.sim = insert (A.page c) ((residentPages m.sim).erase v))) := by
  obtain ⟨m, ps, hit, f, s', ps', hturn, h, hframe⟩ := fifo_turn hF A.toReferences c
  have hserved := hturn.served
  have hsteady := hturn.steady
  have hlen := h.rotating.length
  have hcount := h.counted
  have hbefore := hsteady.rep.residentPages
  have hafter : residentPages (m.record A.toReferences c hit f s').sim = ps'.toFinset :=
    hserved.rep.residentPages
  have hmem : ((A.page c : ℕ) : Int) ∈ m.loads.drop (m.pageFaults - F) ↔ A.page c ∈ ps := by
    rw [h.printed, ← List.map_drop, ← hcount, h.rotating.mem_iff]
    exact List.mem_map_of_injective fun a b hab => Fin.ext (Int.natCast_inj.mp hab)
  refine ⟨m, _, A.row c hit f, hturn.runs, hturn.next, rfl, rfl, ?_, ?_, ?_⟩
  · rw [h.printed, List.length_map, hcount]
  · show (if hit then 'H' else 'F') = 'H' ↔ _
    rw [show (A.row c hit f).pageNum = ((A.page c : ℕ) : Int) from rfl, hmem,
      ← hserved.access.hit_iff]
    cases hit with
    | true => simp
    | false => simp
  · intro hchar
    have hmiss : hit = false := by
      cases hit with
      | true => exact absurd rfl hchar
      | false => rfl
    refine ⟨?_, ?_, fun hlt => ?_, fun hge => ?_⟩
    · rw [m.loads_record, hmiss]
      rfl
    · rw [← hcount, ← hframe hmiss]
      rfl
    · rw [hafter, hbefore]
      exact hserved.access.toFinset_of_room hmiss (by omega)
    · have hfull : ps.length = F := by omega
      have hlt : (f : ℕ) < ps.length := hfull.symm ▸ f.isLt
      have hold := h.rotating.oldest (hcount.symm ▸ hge) hF
      rw [← hframe hmiss, List.getElem?_eq_getElem hlt] at hold
      rw [hafter, hbefore]
      refine ⟨ps[(f : ℕ)], ?_, List.mem_toFinset.mpr (List.getElem_mem hlt),
        hserved.access.toFinset_of_full hmiss hfull hsteady.rep.nodup hlt⟩
      rw [h.printed, List.getElem?_map, ← hcount, ← hold]
      rfl

theorem fifo_counter_roundRobin :
    ∃ (m m' : MainState 3 4 numAddresses) (row : Row),
      runFor .fifo 3 4 1024 roundRobin.addr 9 = some m ∧
      runFor .fifo 3 4 1024 roundRobin.addr 10 = some m' ∧
      m'.rows = m.rows ++ [row] ∧ m.loads.length = m.pageFaults ∧
      (row.pageFaultChar ≠ 'H' → row.frameNum = (m.pageFaults % 3 : ℕ)) := by
  obtain ⟨m, m', row, hm, hm', hrows, -, hloads, -, hfault⟩ :=
    fifo_counter (F := 3) (by decide) roundRobin ⟨9, by decide⟩
  exact ⟨m, m', row, hm, hm', hrows, hloads, fun h => (hfault h).2.1⟩

end OS2023.Paging
