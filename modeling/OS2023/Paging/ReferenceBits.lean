import OS2023.Paging.Demand
import OS2023.Paging.Refinement

/-!
# What a reference bit means

`replacePageSC` writes reference bits in four places: a hit sets the bit of its
page, a cold start and an installation clear it, and the victim search clears
the bit of every page whose frame it puts back. Eviction does not touch it.
`sc_referenceBit` says what one reference does to all bits at once; along a run
a bit is 1 exactly while a hit lies after the last load and the last second
chance of the page.
-/

namespace OS2023.Paging

open OS2023.Lib

variable {F P N : ℕ} {pageSize : Int} {A : References P N pageSize} {c : Fin N}
  {s s' : Sim F P N} {ps ps' : List (Fin P)} {k : Clock F (Fin P)}

/-! ## Second chances -/

/-- The frames to which the victim search of reference `c` gives a second
chance. There is a search on a fault without a free frame only. -/
def requeued (s : Sim F P N) (c : Fin N) : List Int :=
  match hitFrame s c, freeFrame s with
  | none, none => Option.getD (do
      let (first, s) ← s.dequeue
      let (_, _, _, given) ← victimLoop ((F + 1) * P) 0 s first []
      some given) []
  | _, _ => []

theorem requeued_of_hit {i : Fin F} (h : hitFrame s c = some i) : requeued s c = [] := by
  unfold requeued
  rw [h]

theorem requeued_of_free {i : Fin F} (h : freeFrame s = some i) : requeued s c = [] := by
  unfold requeued
  rw [h]
  cases hitFrame s c <;> rfl

/-- The search gives a second chance to the frames that the sweep passes over. -/
theorem ClockRep.requeued (hk : ClockRep s ps k) (hrep : Rep s ps) (hfull : ps.length = F)
    (miss : hitFrame s c = none) :
    requeued s c = (swept k.bits k.hand).map fun i : Fin F => ((i : ℕ) : Int) := by
  obtain ⟨q, s', hdeq, -, hsearched⟩ := hk.search hrep hfull
  have hfuel : (setBits k.bits + 1) * P ≤ (F + 1) * P :=
    Nat.mul_le_mul_right P (Nat.succ_le_succ (setBits_le k.bits))
  unfold Paging.requeued
  rw [miss, hrep.freeFrame_of_full hfull]
  simp only [hdeq, Option.bind_eq_bind, Option.bind_some, hsearched.loop _ [] hfuel,
    List.nil_append, Option.getD_some]

/-- In a full memory a frame number in the page table tells who owns the frame. -/
theorem Rep.frameNum_mem_iff (hrep : Rep s ps) (hfull : ps.length = F) {l : List (Fin F)}
    {j : Fin P} : (s.pageTable j).frameNum ∈ l.map (fun i : Fin F => ((i : ℕ) : Int)) ↔
      ∃ i ∈ l, ps[(i : ℕ)]? = some j := by
  rw [List.mem_map]
  refine exists_congr fun i => and_congr_right fun _ => ?_
  have hi : (i : ℕ) < ps.length := hfull.symm ▸ i.isLt
  rw [eq_comm, hrep.maps.frameNum_eq_iff hrep.nodup hi, List.getElem?_eq_getElem hi,
    Option.some.injEq, eq_comm]

/-! ## One reference -/

theorem Sim.enqueue_pageTable {v : Int} (h : s.enqueue v = some s') :
    s'.pageTable = s.pageTable := by
  simp only [Sim.enqueue, Option.bind_eq_bind, Option.bind_eq_some_iff,
    Option.some.injEq] at h
  obtain ⟨-, -, rfl⟩ := h
  rfl

/-- **What one reference does to the bits.** The page referenced gets the result
as its bit, pages whose frames were put back get 0, all others keep theirs. -/
theorem sc_referenceBit (hA : Loaded A s) (hrep : Rep s ps) (hk : ClockRep s ps k) {r : Int}
    (hrun : replacePageSC s c pageSize = some (r, s')) (j : Fin P) :
    (s'.pageTable j).referenceBit =
      if j = A.page c then r
      else if (s.pageTable j).frameNum ∈ requeued s c then 0
      else (s.pageTable j).referenceBit := by
  by_cases hmem : A.page c ∈ ps
  · obtain ⟨i, hi, hit⟩ := hrep.hitFrame_of_mem (hA.pageNum c) hmem
    have hget := getElem?_idxOf hmem
    rw [← hi] at hget
    rw [replacePageSC_of_hit hA hrep hit hget, Option.some.injEq, Prod.mk.injEq] at hrun
    obtain ⟨rfl, rfl⟩ := hrun
    rw [requeued_of_hit hit]
    by_cases hj : j = A.page c
    · simp [hj, Sim.setReferenceBit]
    · simp [hj, Sim.setReferenceBit, Sim.touch]
  · have miss := hrep.hitFrame_of_notMem (hA.pageNum c) hmem
    rcases Nat.lt_or_ge ps.length F with hlt | hge
    · have free := hrep.freeFrame_of_lt hlt
      rw [replacePageSC_of_free hA miss free] at hrun
      obtain ⟨s₁, henq, heq⟩ := Option.bind_eq_some_iff.mp hrun
      obtain ⟨rfl, rfl⟩ := Prod.mk.inj (Option.some.inj heq)
      rw [Sim.enqueue_pageTable henq, requeued_of_free free]
      by_cases hj : j = A.page c
      · simp [hj, Sim.setReferenceBit]
      · simp [hj, Sim.setReferenceBit, Sim.install]
    · have hfull : ps.length = F := le_antisymm hrep.fits hge
      have free := hrep.freeFrame_of_full hfull
      obtain ⟨q, s₂, hdeq, hsearch, hsearched⟩ := hk.search hrep hfull
      rw [replacePageSC_of_full hA miss free hdeq hsearch] at hrun
      obtain ⟨s₃, henq, heq⟩ := Option.bind_eq_some_iff.mp hrun
      obtain ⟨rfl, rfl⟩ := Prod.mk.inj (Option.some.inj heq)
      rw [Sim.enqueue_pageTable henq, hk.requeued hrep hfull miss]
      by_cases hj : j = A.page c
      · simp [hj, Sim.setReferenceBit]
      · have hbit : (s₂.pageTable j).referenceBit =
            if (s.pageTable j).frameNum ∈
              (swept k.bits k.hand).map (fun i : Fin F => ((i : ℕ) : Int)) then 0
            else (s.pageTable j).referenceBit := by
          split
          · rename_i hmem
            obtain ⟨i, hi, hij⟩ := (hrep.frameNum_mem_iff hfull).mp hmem
            exact hsearched.cleared i hi j hij
          · rename_i hnot
            refine hsearched.kept j fun i hi hij => hnot ?_
            exact (hrep.frameNum_mem_iff hfull).mpr ⟨i, hi, hij⟩
        rw [if_neg hj, ← hbit]
        simp [hj, Sim.setReferenceBit, Sim.install]

/-- A page that gives up its frame ends with a bit that is not 1. -/
theorem sc_evicted_referenceBit (hA : Loaded A s) (hrep : Rep s ps) (hk : ClockRep s ps k)
    {hit : Bool} {f : Fin F}
    (hrun : replacePageSC s c pageSize = some (if hit then 1 else 0, s'))
    (hserved : Served A c s ps hit f s' ps')
    (hvictim : hit = false → ps.length = F → f = (sweep k.bits k.hand).2) {j : Fin P}
    (hj : j ∈ ps) (hgone : j ∉ ps') : (s'.pageTable j).referenceBit ≠ 1 := by
  have hne : j ≠ A.page c := fun heq => hgone (heq ▸ hserved.access.mem)
  rcases hserved.access.inv with ⟨-, -, -, rfl⟩ | ⟨-, -, -, -, rfl⟩ |
    ⟨fresh, rfl, full, -, rfl⟩
  · exact absurd hj hgone
  · exact absurd (List.mem_append_left _ hj) hgone
  · have hf : (f : ℕ) < ps.length := full.symm ▸ f.isLt
    have hget : ps[(f : ℕ)]? = some j := by
      by_contra hother
      refine hgone ((mem_set_iff hrep.nodup hf).mpr (Or.inr ⟨hj, fun heq => hother ?_⟩))
      rw [heq, List.getElem?_eq_getElem hf]
    have miss := hrep.hitFrame_of_notMem (hA.pageNum c) fresh
    rw [sc_referenceBit hA hrep hk hrun, if_neg hne, hk.requeued hrep full miss]
    split
    · decide
    · -- passed over by no turn of the search, the bit was 0 before it
      rename_i hkept
      have hstop := sweep_stops k.bits k.hand
      rw [← hvictim rfl full, ← Bool.not_eq_true, sweep_bits] at hstop
      intro hset
      refine hstop ⟨(hk.bits f j hget).mpr hset, fun hmem => hkept ?_⟩
      exact (hrep.frameNum_mem_iff full).mpr ⟨f, hmem, hget⟩

/-! ## Along a run -/

/-- The frame numbers to which reference `c` of the Second-Chance run gives a
second chance. -/
def requeuedAt (F : ℕ) (A : References P N pageSize) (c : Fin N) : List Int :=
  match runFor .sc F P pageSize A.addr c with
  | some m => requeued m.sim c
  | none => []

/-- Page `j`, which is now in frame `frameNum`, was hit after its last load and
after the last second chance of its frame. -/
def ReferencedSince (F : ℕ) (A : References P N pageSize) (k : ℕ) (j : Fin P)
    (frameNum : Int) : Prop :=
  Since (fun i => hitAt .sc F A i = some j)
    (fun i => loadAt .sc F A i = some j ∨ frameNum ∈ requeuedAt F A i) k

section Turn

variable {m : MainState F P N} {hit : Bool} {f : Fin F} {j : Fin P} {frameNum : Int}

theorem Turn.requeuedAt (h : Turn .sc A c m ps hit f s' ps') :
    requeuedAt F A c = requeued m.sim c := by
  rw [Paging.requeuedAt, h.runs]

/-- The page just referenced was hit since, or was just loaded. -/
theorem Turn.referencedSince_current (h : Turn .sc A c m ps hit f s' ps') :
    ReferencedSince F A (c + 1) (A.page c) frameNum ↔ hit = true := by
  cases hit with
  | true =>
      obtain ⟨i, -, hfound⟩ := h.steady.rep.hitFrame_of_mem (h.steady.loaded.pageNum c)
        (h.served.access.hit_iff.mp rfl)
      refine iff_of_true (since_of_event ?_ ?_) rfl
      · rw [h.hitAt]
        rfl
      · rw [h.loadAt, h.requeuedAt, requeued_of_hit hfound]
        simp
  | false =>
      refine iff_of_false (not_since_of_clear ?_) Bool.false_ne_true
      rw [h.loadAt]
      exact Or.inl rfl

/-- A second chance is taken back at the next search. -/
theorem Turn.not_referencedSince (h : Turn .sc A c m ps hit f s' ps')
    (hagain : frameNum ∈ requeued m.sim c) : ¬ ReferencedSince F A (c + 1) j frameNum := by
  apply not_since_of_clear
  rw [h.requeuedAt]
  exact Or.inr hagain

/-- Nothing else happens to the other pages. -/
theorem Turn.referencedSince_other (h : Turn .sc A c m ps hit f s' ps')
    (hj : j ≠ A.page c) (hkept : frameNum ∉ requeued m.sim c) :
    ReferencedSince F A (c + 1) j frameNum ↔ ReferencedSince F A c j frameNum := by
  apply since_succ_iff
  · rw [h.hitAt]
    cases hit <;> simp [hj.symm]
  · rw [h.loadAt, h.requeuedAt]
    cases hit <;> simp [hj.symm, hkept]

end Turn

/-- What the bits of `s` say after `k` references. -/
structure BitsMean (A : References P N pageSize) (k : ℕ) (s : Sim F P N) : Prop where
  binary : ∀ j, (s.pageTable j).referenceBit = 0 ∨ (s.pageTable j).referenceBit = 1
  meaning : ∀ j, (s.pageTable j).referenceBit = 1 ↔
    j ∈ residentPages s ∧ ReferencedSince F A k j (s.pageTable j).frameNum

theorem BitsMean.clear {n : ℕ} (h : BitsMean A n s) {j : Fin P} (hj : j ∉ residentPages s) :
    (s.pageTable j).referenceBit = 0 :=
  (h.binary j).resolve_right fun hset => hj ((h.meaning j).mp hset).1

theorem bitsMean_initialState (A : References P N pageSize) :
    BitsMean A 0 (initialState F P pageSize A.addr).sim where
  binary := fun _ => Or.inl rfl
  meaning := fun _ => iff_of_false (by simp [initialState, createPageTable])
    fun hand => not_since_zero hand.2

theorem Turn.bitsMean {m : MainState F P N} {hit : Bool} {f : Fin F}
    (h : Turn .sc A c m ps hit f s' ps') (hk : ClockRep m.sim ps k)
    (hvictim : hit = false → ps.length = F → f = (sweep k.bits k.hand).2)
    (hbits : BitsMean A c m.sim) : BitsMean A (c + 1) s' := by
  have hbit := sc_referenceBit h.steady.loaded h.steady.rep hk h.result
  refine ⟨fun j => ?_, fun j => ?_⟩
  · rw [hbit j]
    split_ifs
    · exact Or.inr rfl
    · exact Or.inl rfl
    · exact Or.inl rfl
    · exact hbits.binary j
  · rw [h.served.rep.mem_residentPages]
    by_cases hj : j = A.page c
    · subst hj
      rw [hbit, if_pos rfl, h.referencedSince_current]
      have hmem := h.served.access.mem
      cases hit <;> simp [hmem]
    · by_cases hin : j ∈ ps'
      · -- a page that stays keeps its frame
        have hmem : j ∈ ps := (List.mem_cons.mp (h.served.access.subset hin)).resolve_left hj
        have hframe : (s'.pageTable j).frameNum = (m.sim.pageTable j).frameNum := by
          rw [h.served.rep.maps.frameNum_of_mem hin, h.steady.rep.maps.frameNum_of_mem hmem,
            h.served.access.idxOf_eq_of_stay h.steady.rep.nodup hmem hin]
        rw [hbit, if_neg hj, hframe]
        by_cases hagain : (m.sim.pageTable j).frameNum ∈ requeued m.sim c
        · rw [if_pos hagain]
          exact iff_of_false (by decide) fun hand => h.not_referencedSince hagain hand.2
        · rw [if_neg hagain, hbits.meaning j, h.referencedSince_other hj hagain]
          exact and_congr (iff_of_true (h.steady.rep.mem_residentPages.mpr hmem) hin) Iff.rfl
      · refine iff_of_false ?_ fun hand => hin hand.1
        by_cases hmem : j ∈ ps
        · exact sc_evicted_referenceBit h.steady.loaded h.steady.rep hk h.result h.served
            hvictim hmem hin
        · have hclear := hbits.clear (h.steady.rep.mem_residentPages.not.mpr hmem)
          rw [hbit, if_neg hj, hclear, ite_self]
          decide

/-- Along the run the bits mean what they say. -/
theorem sc_bitsMean (hF : 0 < F) (A : References P N pageSize) : ∀ k ≤ N, ∃ m ps,
    runFor .sc F P pageSize A.addr k = some m ∧ Steady A k m ps ∧
      ClockRep m.sim ps (clockAt hF A k) ∧ BitsMean A k m.sim := by
  refine run_rule A
    (I := fun k m ps => ClockRep m.sim ps (clockAt hF A k) ∧ BitsMean A k m.sim)
    ⟨clockRep_initialState hF A, bitsMean_initialState A⟩ ?_
  rintro c m ps hrun hsteady ⟨hk, hbits⟩
  obtain ⟨s', ps', hpage, hserved, hk', -⟩ := sc_serves hsteady.loaded hsteady.rep hk c
  have h : Turn .sc A c m ps _ _ s' ps' := ⟨hrun, hsteady, hpage, hserved⟩
  rw [clockAt_succ]
  refine ⟨_, _, s', ps', hpage, hserved, hk', h.bitsMean hk (fun hmiss hfull => ?_) hbits⟩
  rw [hk.access_sweep (hserved.access.fresh_of_miss hmiss) hfull]

/-! ## The search in a reachable state -/

/-- The search ends at a page with bit 0. -/
theorem Searched.victim_referenceBit {bits : Fin F → Bool} {h : Fin F}
    (hs : Searched s ps bits h s')
    (binary : ∀ j, (s.pageTable j).referenceBit = 0 ∨ (s.pageTable j).referenceBit = 1)
    {p : Fin P} (hp : ps[((sweep bits h).2 : ℕ)]? = some p) :
    (s'.pageTable p).referenceBit = 0 := by
  by_cases hpassed : ∃ i ∈ swept bits h, ps[(i : ℕ)]? = some p
  · obtain ⟨i, hi, hip⟩ := hpassed
    exact hs.cleared i hi p hip
  · have hkept := hs.kept p fun i hi hip => hpassed ⟨i, hi, hip⟩
    have hclear : (s'.pageTable p).referenceBit ≠ 1 := by
      rw [ne_eq, ← hs.remaining _ p hp, sweep_stops]
      exact Bool.false_ne_true
    rw [hkept] at hclear ⊢
    exact (binary p).resolve_right hclear

/-- In a reachable state without a free frame the search ends by its `break`, in
the frame of a page with bit 0. -/
theorem sc_search (hF : 0 < F) (A : References P N pageSize) {k : ℕ} (hk : k ≤ N) :
    ∃ (m : MainState F P N) (ps : List (Fin P)), runFor .sc F P pageSize A.addr k = some m ∧
      Steady A k m ps ∧ BitsMean (F := F) A k m.sim ∧
      (ps.length = F → ∃ (first : Int) (s₁ s' : Sim F P N) (v : Fin F) (given : List Int)
        (q : Fin P), m.sim.dequeue = some (first, s₁) ∧
        (∀ fuel, (F + 1) * P ≤ fuel →
          victimLoop fuel 0 s₁ first [] = some (true, ((v : ℕ) : Int), s', given)) ∧
        victimSearch (P + 1) s₁ first = some (((v : ℕ) : Int), s') ∧ given.length ≤ F ∧
        Rep s' ps ∧ ps[(v : ℕ)]? = some q ∧ (s'.pageTable q).referenceBit = 0) := by
  obtain ⟨m, ps, hrun, hsteady, hclock, hbits⟩ := sc_bitsMean hF A k hk
  refine ⟨m, ps, hrun, hsteady, hbits, fun hfull => ?_⟩
  obtain ⟨q, s', hdeq, hsearch, hs⟩ := hclock.search hsteady.rep hfull
  generalize clockAt hF A k = clock at hdeq hsearch hs
  have hlt : ((sweep clock.bits clock.hand).2 : ℕ) < ps.length := hfull.symm ▸ Fin.isLt _
  have hp := List.getElem?_eq_getElem hlt
  refine ⟨_, _, s', _, _, _, hdeq, fun fuel hfuel => hs.loop fuel [] (le_trans ?_ hfuel),
    hsearch, ?_, hs.same.rep (hsteady.rep.of_tables rfl rfl), hp,
    hs.victim_referenceBit hbits.binary hp⟩
  · exact Nat.mul_le_mul_right P (Nat.succ_le_succ (setBits_le clock.bits))
  · rw [List.nil_append, List.length_map]
    exact (length_swept_le clock.bits clock.hand).trans (setBits_le clock.bits)

/-- **What a reference bit means.** In every state of a Second-Chance run a bit is
0 or 1, and it is 1 exactly when the page is resident and was hit after its last
load and the last second chance of its frame; so the bit of a page that is not
resident is 0. When a page is about to be unmapped, its bit is 0. -/
theorem referenceBit_meaning (hF : 0 < F) (A : Addresses P N pageSize) {k : ℕ} (hk : k ≤ N) :
    ∃ m : MainState F P N, runFor .sc F P pageSize A.addr k = some m ∧
      (∀ j, (m.sim.pageTable j).referenceBit = 0 ∨ (m.sim.pageTable j).referenceBit = 1) ∧
      (∀ j, (m.sim.pageTable j).referenceBit = 1 ↔ j ∈ residentPages m.sim ∧
        ReferencedSince F A.toReferences k j (m.sim.pageTable j).frameNum) ∧
      (∀ j, j ∉ residentPages m.sim → (m.sim.pageTable j).referenceBit = 0) ∧
      ((∀ i, (m.sim.frames i).isOccupied ≠ 0) → ∃ first s₁ v s₂,
        m.sim.dequeue = some (first, s₁) ∧ victimSearch (P + 1) s₁ first = some (v, s₂) ∧
        ∀ j, (s₂.pageTable j).frameNum = v → (s₂.pageTable j).referenceBit = 0) := by
  obtain ⟨m, ps, hrun, hsteady, hbits, hsearch⟩ := sc_search hF A.toReferences hk
  refine ⟨m, hrun, hbits.binary, hbits.meaning, fun j => hbits.clear, fun hall => ?_⟩
  obtain ⟨first, s₁, s', v, given, q, hdeq, -, hfound, -, hrep, hq, hzero⟩ :=
    hsearch (hsteady.rep.length_eq_of_occupied hall)
  refine ⟨first, s₁, _, s', hdeq, hfound, fun j hj => ?_⟩
  obtain ⟨hlt, rfl⟩ := List.getElem?_eq_some_iff.mp hq
  rw [(hrep.maps.frameNum_eq_iff hrep.nodup hlt).mp hj]
  exact hzero

theorem referenceBit_meaning_roundRobin :
    ∃ m : MainState 3 4 numAddresses, runFor .sc 3 4 1024 roundRobin.addr 5000 = some m ∧
      ∀ j, (m.sim.pageTable j).referenceBit = 1 ↔ j ∈ residentPages m.sim ∧
        ReferencedSince 3 roundRobin.toReferences 5000 j (m.sim.pageTable j).frameNum := by
  obtain ⟨m, hrun, -, hmeaning, -⟩ :=
    referenceBit_meaning (F := 3) (by decide) roundRobin (k := 5000) le_rfl
  exact ⟨m, hrun, hmeaning⟩

/-- **The victim search terminates.** In every state of a Second-Chance run with
all frames occupied, the loop that sets its counter back is left by its `break`
after at most `(F + 1) * P` turns and `F` second chances, and the frame that it
ends with belongs to a resident page with bit 0. -/
theorem victim_search_terminates (hF : 0 < F) (A : Addresses P N pageSize) {k : ℕ}
    (hk : k ≤ N) :
    ∃ m : MainState F P N, runFor .sc F P pageSize A.addr k = some m ∧
      ((∀ i, (m.sim.frames i).isOccupied ≠ 0) →
        ∃ (first : Int) (s₁ s' : Sim F P N) (v : Fin F) (given : List Int) (q : Fin P),
          m.sim.dequeue = some (first, s₁) ∧
          (∀ fuel, (F + 1) * P ≤ fuel →
            victimLoop fuel 0 s₁ first [] = some (true, ((v : ℕ) : Int), s', given)) ∧
          victimSearch (P + 1) s₁ first = some (((v : ℕ) : Int), s') ∧
          given.length ≤ F ∧ MapsTo s' q v ∧ (s'.pageTable q).referenceBit = 0) := by
  obtain ⟨m, ps, hrun, hsteady, -, hsearch⟩ := sc_search hF A.toReferences hk
  refine ⟨m, hrun, fun hall => ?_⟩
  obtain ⟨first, s₁, s', v, given, q, hdeq, hloop, hfound, hgiven, hrep, hq, hzero⟩ :=
    hsearch (hsteady.rep.length_eq_of_occupied hall)
  refine ⟨first, s₁, s', v, given, q, hdeq, hloop, hfound, hgiven, ?_, hzero⟩
  obtain ⟨hlt, rfl⟩ := List.getElem?_eq_some_iff.mp hq
  exact hrep.mapsTo (List.getElem_mem hlt) (hrep.nodup.idxOf_getElem _ hlt)

theorem victim_search_terminates_roundRobin :
    ∃ (m : MainState 3 4 numAddresses) (first : Int) (s₁ s' : Sim 3 4 numAddresses)
      (v : Fin 3) (given : List Int),
      runFor .sc 3 4 1024 roundRobin.addr 3 = some m ∧
      m.sim.dequeue = some (first, s₁) ∧
      victimLoop 16 0 s₁ first [] = some (true, ((v : ℕ) : Int), s', given) ∧
      given.length ≤ 3 := by
  obtain ⟨m, hrun, hsearch⟩ :=
    victim_search_terminates (F := 3) (by decide) roundRobin (k := 3) (by decide)
  obtain ⟨m₀, ps, hrun₀, hsteady, -⟩ :=
    sc_clockRep (F := 3) (by decide) roundRobin.toReferences 3 (by decide)
  obtain rfl : m₀ = m := Option.some.inj (hrun₀.symm.trans hrun)
  obtain ⟨first, s₁, s', v, given, q, hdeq, hloop, -, hgiven, -⟩ :=
    hsearch (hsteady.isOccupied roundRobin_referenced.1)
  exact ⟨m₀, first, s₁, s', v, given, hrun, hdeq, hloop 16 le_rfl, hgiven⟩

end OS2023.Paging
