import OS2023.Lib.Clock
import OS2023.Paging.Service

/-!
# Second-Chance, one reference

`replacePageSC` keeps a queue of frame numbers and a reference bit per page.
`ClockRep` relates its state to the one-handed clock of `OS2023.Lib.Clock`: the
bit of a frame is the bit of the page in it, and once memory is full the queue
lists the frames in the order in which the hand meets them. Taking a frame from
the queue and putting it back is the hand moving on.
-/

namespace OS2023.Paging

open OS2023.Lib

variable {F P N : ℕ} {pageSize : Int} {A : References P N pageSize} {c : Fin N}
  {s : Sim F P N} {ps : List (Fin P)}

/-! ## Reference bits -/

/-- The bit of every used frame is the bit of the page in it. -/
def BitsOf (s : Sim F P N) (ps : List (Fin P)) (bits : Fin F → Bool) : Prop :=
  ∀ i : Fin F, ∀ p, ps[(i : ℕ)]? = some p →
    (bits i = true ↔ (s.pageTable p).referenceBit = 1)

theorem getElem?_inj {l : List (Fin P)} (hnd : l.Nodup) {i j : ℕ} {p : Fin P}
    (hi : l[i]? = some p) (hj : l[j]? = some p) : i = j := by
  obtain ⟨hi', rfl⟩ := List.getElem?_eq_some_iff.mp hi
  obtain ⟨hj', heq⟩ := List.getElem?_eq_some_iff.mp hj
  exact (hnd.getElem_inj_iff.mp heq).symm

theorem getElem?_idxOf {l : List (Fin P)} {p : Fin P} (hp : p ∈ l) :
    l[l.idxOf p]? = some p := by
  rw [List.getElem?_eq_getElem (List.idxOf_lt_length_of_mem hp), List.getElem_idxOf]

/-- Writing the bit of one page writes the bit of its frame. -/
theorem BitsOf.setReferenceBit {bits : Fin F → Bool} (h : BitsOf s ps bits)
    (hnd : ps.Nodup) {i : Fin F} {p : Fin P} (hp : ps[(i : ℕ)]? = some p) (bit : Bool) :
    BitsOf (s.setReferenceBit p (if bit then 1 else 0)) ps (Function.update bits i bit) := by
  intro j q hq
  by_cases hji : j = i
  · subst hji
    obtain rfl : p = q := Option.some.inj (hp.symm.trans hq)
    cases bit <;> simp [Sim.setReferenceBit]
  · have hne : q ≠ p := by
      rintro rfl
      exact hji (Fin.ext (getElem?_inj hnd hq hp))
    rw [Function.update_of_ne hji]
    simp only [Sim.setReferenceBit, Function.update_of_ne hne]
    exact h j q hq

/-! ## The victim search is the sweep -/

/-- `s'` differs from `s` in queue and reference bits only. -/
structure SameTables (s s' : Sim F P N) : Prop where
  frames : s'.frames = s.frames
  addresses : s'.virtualAddressInfoArray = s.virtualAddressInfoArray
  stdout : s'.stdout = s.stdout
  entry : ∀ j, (s'.pageTable j).pageNum = (s.pageTable j).pageNum ∧
    (s'.pageTable j).frameNum = (s.pageTable j).frameNum

theorem SameTables.refl (s : Sim F P N) : SameTables s s :=
  ⟨rfl, rfl, rfl, fun _ => ⟨rfl, rfl⟩⟩

theorem SameTables.trans {s₁ s₂ s₃ : Sim F P N} (h : SameTables s₁ s₂)
    (h' : SameTables s₂ s₃) : SameTables s₁ s₃ :=
  { frames := h'.frames.trans h.frames
    addresses := h'.addresses.trans h.addresses
    stdout := h'.stdout.trans h.stdout
    entry := fun j => ⟨(h'.entry j).1.trans (h.entry j).1, (h'.entry j).2.trans (h.entry j).2⟩ }

theorem SameTables.withQueue (s : Sim F P N) (q : PageQueue F) :
    SameTables s { s with pageQueue := q } :=
  ⟨rfl, rfl, rfl, fun _ => ⟨rfl, rfl⟩⟩

theorem SameTables.setReferenceBit (s : Sim F P N) (p : Fin P) (bit : Int) :
    SameTables s (s.setReferenceBit p bit) := by
  refine ⟨rfl, rfl, rfl, fun j => ?_⟩
  by_cases hj : j = p
  · subst hj
    simp [Sim.setReferenceBit]
  · simp [Sim.setReferenceBit, Function.update_of_ne hj]

theorem SameTables.rep {s' : Sim F P N} (h : SameTables s s') (hrep : Rep s ps) :
    Rep s' ps :=
  { nodup := hrep.nodup
    fits := hrep.fits
    maps := fun j => by
      rw [(h.entry j).1, (h.entry j).2]
      exact hrep.maps j
    occupied := by rw [h.frames]; exact hrep.occupied
    numbered := by rw [h.frames]; exact hrep.numbered }

/-- A reference served after the search is served. -/
theorem SameTables.served {s₁ s' : Sim F P N} (h : SameTables s s₁)
    {ps' : List (Fin P)} {hit : Bool} {f : Fin F}
    (hserved : Served A c s₁ ps hit f s' ps') : Served A c s ps hit f s' ps' :=
  { access := hserved.access
    rep := hserved.rep
    addresses := hserved.addresses.trans h.addresses
    physical := hserved.physical
    others := fun i hi => (hserved.others i hi).trans (congrFun h.frames i)
    quiet := hserved.quiet.trans h.stdout }

/-- The search finds the page in the frame taken from the queue. -/
theorem Rep.victimEntry (hrep : Rep s ps) {h : Fin F} {p : Fin P}
    (hp : ps[(h : ℕ)]? = some p) :
    (firstWhere fun j => ((h : ℕ) : Int) == (s.pageTable j).frameNum) = some p ∧
      index P (s.pageTable p).pageNum = some p := by
  obtain ⟨hlt, rfl⟩ := List.getElem?_eq_some_iff.mp hp
  constructor
  · apply firstWhere_unique
    · rw [beq_iff_eq, eq_comm, hrep.maps.frameNum_eq_iff hrep.nodup hlt]
    · intro j hj
      rwa [beq_iff_eq, eq_comm, hrep.maps.frameNum_eq_iff hrep.nodup hlt] at hj
  · rw [hrep.maps.pageNum_of_mem (List.getElem_mem hlt), index_val]

/-- The counter of the loop walks up to the entry found. -/
theorem victimLoop_walk {v : Int} {p : Fin P} {given : List Int}
    (hfirst : (firstWhere fun j => v == (s.pageTable j).frameNum) = some p) (fuel : ℕ) :
    ∀ d j : ℕ, j + d = p → victimLoop (fuel + d) j s v given = victimLoop fuel p s v given := by
  intro d
  induction d with
  | zero =>
      rintro j rfl
      rfl
  | succ d ih =>
      intro j hj
      have hjp : j < p := by omega
      have hmiss := (firstWhere_eq_some.mp hfirst).2 ⟨j, hjp.trans p.isLt⟩ hjp
      rw [show fuel + (d + 1) = (fuel + d) + 1 from rfl, victimLoop,
        dif_pos (hjp.trans p.isLt), if_neg (by simpa using hmiss)]
      exact ih (j + 1) (by omega)

/-- What the search has done when it started with the frame under hand `h` taken
from the queue and ended in `s'`: the sweep, and the loop left by its `break`
after one second chance for every frame that the sweep passes over. -/
structure Searched (s : Sim F P N) (ps : List (Fin P)) (bits : Fin F → Bool) (h : Fin F)
    (s' : Sim F P N) : Prop where
  same : SameTables s s'
  remaining : BitsOf s' ps (sweep bits h).1
  queued : Queued s' (cycle F (sweep bits h).2).tail
  cleared : ∀ i ∈ swept bits h, ∀ p, ps[(i : ℕ)]? = some p →
    (s'.pageTable p).referenceBit = 0
  kept : ∀ p, (∀ i ∈ swept bits h, ps[(i : ℕ)]? ≠ some p) →
    (s'.pageTable p).referenceBit = (s.pageTable p).referenceBit
  loop : ∀ fuel given, (setBits bits + 1) * P ≤ fuel →
    victimLoop fuel 0 s ((h : ℕ) : Int) given =
      some (true, (((sweep bits h).2 : ℕ) : Int), s',
        given ++ (swept bits h).map fun i : Fin F => ((i : ℕ) : Int))

/-- The search stops at a frame whose page has bit 0. -/
theorem Searched.stop {bits : Fin F → Bool} {h : Fin F} {p : Fin P} {fuel : ℕ}
    {s : Sim F P N} (hrep : Rep s ps) (hbits : BitsOf s ps bits)
    (hq : Queued s (cycle F h).tail) (hp : ps[(h : ℕ)]? = some p) (hb : bits h = false) :
    victimSearch (fuel + 1) s ((h : ℕ) : Int) = some ((((sweep bits h).2 : ℕ) : Int), s) ∧
      Searched s ps bits h s := by
  obtain ⟨hfirst, hindex⟩ := hrep.victimEntry hp
  have hclear : (s.pageTable p).referenceBit ≠ 1 := by
    have hbit := hbits h p hp
    rw [hb] at hbit
    simpa using hbit
  have hframe : ((h : ℕ) : Int) = (s.pageTable p).frameNum := by
    simpa using (firstWhere_eq_some.mp hfirst).1
  rw [sweep_of_clear hb]
  refine ⟨?_, ?_⟩
  · rw [victimSearch, hfirst]
    simp only [hindex, Option.bind_eq_bind, Option.bind_some]
    rw [if_neg hclear]
  · refine
      { same := SameTables.refl s
        remaining := by rw [sweep_of_clear hb]; exact hbits
        queued := by rw [sweep_of_clear hb]; exact hq
        cleared := by
          intro i hi
          rw [swept_of_clear hb] at hi
          exact absurd hi List.not_mem_nil
        kept := fun _ _ => rfl
        loop := fun fuel given hfuel => ?_ }
    have hpP := p.isLt
    have hle : P ≤ fuel := le_trans (Nat.le_mul_of_pos_left P (Nat.succ_pos _)) hfuel
    obtain ⟨n, rfl⟩ : ∃ n, fuel = (n + 1) + p := ⟨fuel - 1 - p, by omega⟩
    rw [victimLoop_walk hfirst (n + 1) p 0 (Nat.zero_add _), victimLoop, dif_pos hpP,
      if_pos hframe]
    simp only [Fin.eta, hindex, Option.bind_eq_bind, Option.bind_some]
    rw [if_neg hclear, sweep_of_clear hb, swept_of_clear hb]
    simp

/-- A frame whose page has bit 1 loses it and goes back into the queue; what is
left of the search starts with the next frame. -/
theorem Searched.pass {bits : Fin F → Bool} {h : Fin F} {p : Fin P} {fuel : ℕ}
    {s : Sim F P N} (hrep : Rep s ps) (hbits : BitsOf s ps bits)
    (hq : Queued s (cycle F h).tail) (hp : ps[(h : ℕ)]? = some p) (hb : bits h = true)
    (rest : ∀ s₁ : Sim F P N, Rep s₁ ps → BitsOf s₁ ps (Function.update bits h false) →
      Queued s₁ (cycle F (next h)).tail → ∃ s', victimSearch fuel s₁ ((next h : ℕ) : Int) =
          some ((((sweep (Function.update bits h false) (next h)).2 : ℕ) : Int), s') ∧
        Searched s₁ ps (Function.update bits h false) (next h) s') :
    ∃ s', victimSearch (fuel + 1) s ((h : ℕ) : Int) =
        some ((((sweep bits h).2 : ℕ) : Int), s') ∧ Searched s ps bits h s' := by
  obtain ⟨hfirst, hindex⟩ := hrep.victimEntry hp
  have hset : (s.pageTable p).referenceBit = 1 := (hbits h p hp).mp hb
  have hframe : ((h : ℕ) : Int) = (s.pageTable p).frameNum := by
    simpa using (firstWhere_eq_some.mp hfirst).1
  -- clear the bit, put the frame back, take the next one
  have hbits₁ := hbits.setReferenceBit hrep.nodup hp false
  obtain ⟨q₁, henq, hq₁⟩ := Queued.enqueue
    (hq.of_pageQueue (t := s.setReferenceBit p 0) rfl) (length_cycle_tail_lt h) h
  rw [cycle_tail_append, cycle_eq_cons (next h)] at hq₁
  obtain ⟨q₂, hdeq, hq₂⟩ := hq₁.dequeue
  have hsame₁ : SameTables s { s.setReferenceBit p 0 with pageQueue := q₂ } :=
    (SameTables.setReferenceBit s _ 0).trans (SameTables.withQueue _ q₂)
  obtain ⟨s', hrun, hrest⟩ := rest { s.setReferenceBit p 0 with pageQueue := q₂ }
    (hsame₁.rep hrep) hbits₁ hq₂
  rw [sweep_of_set hb]
  refine ⟨s', ?_, ?_⟩
  · rw [victimSearch, hfirst]
    simp only [hindex, Option.bind_eq_bind, Option.bind_some]
    rw [if_pos hset, henq]
    simp only [Option.bind_some]
    rw [hdeq]
    exact hrun
  · refine
      { same := hsame₁.trans hrest.same
        remaining := by rw [sweep_of_set hb]; exact hrest.remaining
        queued := by rw [sweep_of_set hb]; exact hrest.queued
        cleared := fun i hi r hr => ?_
        kept := fun r hr => ?_
        loop := fun fuel given hfuel => ?_ }
    · rw [swept_of_set hb, List.mem_cons] at hi
      by_cases hi' : i ∈ swept (Function.update bits h false) (next h)
      · exact hrest.cleared i hi' r hr
      · obtain rfl := hi.resolve_right hi'
        obtain rfl : p = r := Option.some.inj (hp.symm.trans hr)
        rw [hrest.kept p fun k hk hkp => ?_]
        · simp [Sim.setReferenceBit]
        · exact hi' (Fin.ext (getElem?_inj hrep.nodup hkp hp) ▸ hk)
    · rw [swept_of_set hb] at hr
      have hne : r ≠ p := by
        rintro rfl
        exact hr h List.mem_cons_self hp
      rw [hrest.kept r fun k hk => hr k (List.mem_cons_of_mem _ hk)]
      simp [Sim.setReferenceBit, Function.update_of_ne hne]
    · have hpP := p.isLt
      have hless := setBits_clear_lt hb
      have hmul : (setBits (Function.update bits h false) + 1) * P + P ≤ fuel := by
        rw [← Nat.succ_mul]
        exact le_trans (Nat.mul_le_mul_right P (Nat.succ_le_succ hless)) hfuel
      obtain ⟨n, rfl⟩ : ∃ n, fuel = (n + 1) + p := ⟨fuel - 1 - p, by omega⟩
      rw [victimLoop_walk hfirst (n + 1) p 0 (Nat.zero_add _), victimLoop, dif_pos hpP,
        if_pos hframe]
      simp only [Fin.eta, hindex, Option.bind_eq_bind, Option.bind_some]
      rw [if_pos hset, henq]
      simp only [Option.bind_some]
      rw [hdeq, sweep_of_set hb, swept_of_set hb]
      simp only [Option.bind_some]
      rw [hrest.loop n _ (by omega)]
      simp

/-- **The search is the sweep.** With the frame under the hand taken from the
queue, the search ends at the frame where the sweep ends, having cleared the
same bits, and the queue holds the other frames in the order of the hand. -/
theorem victimSearch_eq_sweep (hfull : ps.length = F) :
    ∀ (fuel : ℕ) (s : Sim F P N) (bits : Fin F → Bool) (h : Fin F), Rep s ps →
      BitsOf s ps bits → Queued s (cycle F h).tail → setBits bits < fuel →
      ∃ s', victimSearch fuel s ((h : ℕ) : Int) =
          some ((((sweep bits h).2 : ℕ) : Int), s') ∧ Searched s ps bits h s' := by
  intro fuel
  induction fuel with
  | zero =>
      intro s bits h _ _ _ hfuel
      omega
  | succ fuel ih =>
      intro s bits h hrep hbits hq hfuel
      have hlt : (h : ℕ) < ps.length := hfull.symm ▸ h.isLt
      have hp : ps[(h : ℕ)]? = some ps[(h : ℕ)] := List.getElem?_eq_getElem hlt
      cases hb : bits h with
      | false => exact ⟨s, Searched.stop hrep hbits hq hp hb⟩
      | true =>
          have hless := setBits_clear_lt hb
          exact Searched.pass hrep hbits hq hp hb fun s₁ hrep₁ hbits₁ hq₁ =>
            ih s₁ _ (next h) hrep₁ hbits₁ hq₁ (by omega)

/-! ## The routine is the clock -/

/-- The state of the routine represents the clock `k`. -/
structure ClockRep (s : Sim F P N) (ps : List (Fin P)) (k : Clock F (Fin P)) : Prop where
  pages : ∀ i : Fin F, k.pages i = ps[(i : ℕ)]?
  bits : BitsOf s ps k.bits
  filling : ps.length < F → (k.hand : ℕ) = ps.length ∧ Queued s (List.range ps.length)
  turning : ps.length = F → Queued s (cycle F k.hand)

section ClockRep

variable {k : Clock F (Fin P)} {p : Fin P}

theorem ClockRep.access_hit (hk : ClockRep s ps k) (hnd : ps.Nodup) {i : Fin F}
    (hi : ps[(i : ℕ)]? = some p) :
    k.access p = (true, i, { k with bits := Function.update k.bits i true }) := by
  have hfirst : (firstWhere fun j => k.pages j == some p) = some i := by
    apply firstWhere_unique
    · rw [beq_iff_eq, hk.pages, hi]
    · intro j hj
      rw [beq_iff_eq, hk.pages] at hj
      exact Fin.ext (getElem?_inj hnd hj hi)
  rw [Clock.access, hfirst]

theorem ClockRep.firstWhere_none (hk : ClockRep s ps k) (fresh : p ∉ ps) :
    (firstWhere fun j => k.pages j == some p) = none := by
  apply firstWhere_eq_none.mpr
  intro j
  rw [beq_eq_false_iff_ne, hk.pages]
  intro hj
  exact fresh (List.mem_of_getElem? hj)

theorem ClockRep.access_load (hk : ClockRep s ps k) (fresh : p ∉ ps)
    (hlt : ps.length < F) :
    k.access p = (false, ⟨ps.length, hlt⟩, k.load p ⟨ps.length, hlt⟩) := by
  have hfree : (firstWhere fun j => k.pages j == none) = some ⟨ps.length, hlt⟩ := by
    apply firstWhere_eq_some.mpr
    constructor
    · rw [beq_iff_eq, hk.pages]
      simp
    · intro j hj
      rw [beq_eq_false_iff_ne, hk.pages, List.getElem?_eq_getElem hj]
      simp
  rw [Clock.access, hk.firstWhere_none fresh, hfree]

theorem ClockRep.access_sweep (hk : ClockRep s ps k) (fresh : p ∉ ps)
    (hfull : ps.length = F) :
    k.access p = (false, (sweep k.bits k.hand).2,
      { k with bits := (sweep k.bits k.hand).1 }.load p (sweep k.bits k.hand).2) := by
  have hfree : (firstWhere fun j => k.pages j == none) = none := by
    apply firstWhere_eq_none.mpr
    intro j
    have hj : (j : ℕ) < ps.length := hfull.symm ▸ j.isLt
    rw [beq_eq_false_iff_ne, hk.pages, List.getElem?_eq_getElem hj]
    simp
  rw [Clock.access, hk.firstWhere_none fresh, hfree]

/-- In a full memory the search starts at the hand and is the sweep. -/
theorem ClockRep.search (hk : ClockRep s ps k) (hrep : Rep s ps) (hfull : ps.length = F) :
    ∃ q s', s.dequeue = some (((k.hand : ℕ) : Int), { s with pageQueue := q }) ∧
      victimSearch (P + 1) { s with pageQueue := q } ((k.hand : ℕ) : Int) =
        some ((((sweep k.bits k.hand).2 : ℕ) : Int), s') ∧
      Searched { s with pageQueue := q } ps k.bits k.hand s' := by
  have hq := hk.turning hfull
  rw [cycle_eq_cons] at hq
  obtain ⟨q, hdeq, hq'⟩ := hq.dequeue
  -- more pages than frames, so the fuel covers a full turn
  have hfuel : setBits k.bits < P + 1 := by
    have hF := setBits_le k.bits
    have hP : ps.length ≤ P := by
      have := hrep.nodup.length_le_card
      simpa using this
    omega
  obtain ⟨s', hsearch, hsearched⟩ := victimSearch_eq_sweep hfull (P + 1)
    { s with pageQueue := q } k.bits k.hand (hrep.of_tables rfl rfl) hk.bits hq' hfuel
  exact ⟨q, s', hdeq, hsearch, hsearched⟩

end ClockRep

@[simp] theorem clearOthers_referenceBit (pageTable : Fin P → PageTable)
    (frameNum pageNum : Int) (j : Fin P) :
    (clearOthers pageTable frameNum pageNum j).referenceBit =
      (pageTable j).referenceBit := by
  unfold clearOthers
  split <;> rfl

/-- A page that enters with bit 0, in whichever frame. -/
theorem BitsOf.load {s' : Sim F P N} {ps' : List (Fin P)} {bits : Fin F → Bool} {f : Fin F}
    {p : Fin P} (h : BitsOf s ps bits) (fresh : p ∉ ps) (hf : ps'[(f : ℕ)]? = some p)
    (hother : ∀ i : Fin F, i ≠ f → ps'[(i : ℕ)]? = ps[(i : ℕ)]?)
    (hbit : (s'.pageTable p).referenceBit = 0)
    (hkeep : ∀ q, q ≠ p →
      (s'.pageTable q).referenceBit = (s.pageTable q).referenceBit) :
    BitsOf s' ps' (Function.update bits f false) := by
  intro i q hq
  by_cases hi : i = f
  · subst hi
    obtain rfl : p = q := Option.some.inj (hf.symm.trans hq)
    simp [hbit]
  · rw [hother i hi] at hq
    have hne : q ≠ p := by
      rintro rfl
      exact fresh (List.mem_of_getElem? hq)
    rw [Function.update_of_ne hi, hkeep q hne]
    exact h i q hq


/-- The bits after the assignments of a fault. -/
theorem install_referenceBit (s : Sim F P N) (c : Fin N) (p : Fin P) (f : Fin F) (a : Int) :
    (((s.install c p f a).setReferenceBit p 0).pageTable p).referenceBit = 0 ∧
      ∀ q, q ≠ p → (((s.install c p f a).setReferenceBit p 0).pageTable q).referenceBit =
        (s.pageTable q).referenceBit := by
  refine ⟨by simp [Sim.setReferenceBit], fun q hq => ?_⟩
  simp [Sim.setReferenceBit, Sim.install, Function.update_of_ne hq]

/-! ### The three branches -/

theorem replacePageSC_of_hit (hA : Loaded A s) (hrep : Rep s ps) {i : Fin F}
    (hfound : hitFrame s c = some i) (hget : ps[(i : ℕ)]? = some (A.page c)) :
    replacePageSC s c pageSize = some (1,
      (s.touch i ((i : ℕ) * pageSize + A.offset c)).setReferenceBit (A.page c) 1) := by
  obtain ⟨hlt, hpage⟩ := List.getElem?_eq_some_iff.mp hget
  simp only [replacePageSC, hA.virtualAddress, A.tdiv_eq_page, A.tmod_eq_offset,
    index_val, Option.bind_eq_bind, Option.bind_some, hfound, hrep.frameNum_of_lt hlt,
    hrep.pageNumFromFrame hlt, hpage]

theorem replacePageSC_of_free (hA : Loaded A s) {i : Fin F} (miss : hitFrame s c = none)
    (free : freeFrame s = some i) :
    replacePageSC s c pageSize =
      (Sim.enqueue ((s.install c (A.page c) i
        ((i : ℕ) * pageSize + A.offset c)).setReferenceBit (A.page c) 0) (i : ℕ)).bind
        fun s' => some (0, s') := by
  simp only [replacePageSC, hA.virtualAddress, A.tdiv_eq_page, A.tmod_eq_offset,
    index_val, Option.bind_eq_bind, Option.bind_some, miss, free]

theorem replacePageSC_of_full (hA : Loaded A s) (miss : hitFrame s c = none)
    (free : freeFrame s = none) {first : Int} {s₁ s₂ : Sim F P N} {f : Fin F}
    (hdeq : s.dequeue = some (first, s₁))
    (hsearch : victimSearch (P + 1) s₁ first = some (((f : ℕ) : Int), s₂)) :
    replacePageSC s c pageSize =
      (Sim.enqueue ((Sim.install
        { s₂ with
          pageTable := clearOthers s₂.pageTable ((f : ℕ) : Int) ((A.page c : ℕ) : Int) }
        c (A.page c) f ((f : ℕ) * pageSize + A.offset c)).setReferenceBit (A.page c) 0)
        (f : ℕ)).bind fun s' => some (0, s') := by
  simp only [replacePageSC, hA.virtualAddress, A.tdiv_eq_page, A.tmod_eq_offset,
    index_val, Option.bind_eq_bind, Option.bind_some, miss, free, hdeq, hsearch]

theorem sc_hit (hA : Loaded A s) (hrep : Rep s ps) {k : Clock F (Fin P)}
    (hk : ClockRep s ps k) (hmem : A.page c ∈ ps) :
    ∃ s', replacePageSC s c pageSize = some (1, s') ∧
      (k.access (A.page c)).1 = true ∧
      Served A c s ps true (k.access (A.page c)).2.1 s' ps ∧
      ClockRep s' ps (k.access (A.page c)).2.2 := by
  obtain ⟨i, hi, hit⟩ := hrep.hitFrame_of_mem (hA.pageNum c) hmem
  have hget := getElem?_idxOf hmem
  rw [← hi] at hget
  have hserved := served_hit (A := A) (c := c) hrep hmem hi
  rw [hk.access_hit hrep.nodup hget]
  refine ⟨_, replacePageSC_of_hit hA hrep hit hget, rfl,
    hserved.setReferenceBit (A.page c) 1, ?_⟩
  have hbits : BitsOf (s.touch i ((i : ℕ) * pageSize + A.offset c)) ps k.bits := hk.bits
  exact
    { pages := hk.pages
      bits := hbits.setReferenceBit hrep.nodup hget true
      filling := fun h => ⟨(hk.filling h).1, (hk.filling h).2.of_pageQueue rfl⟩
      turning := fun h => (hk.turning h).of_pageQueue rfl }

theorem sc_load (hA : Loaded A s) (hrep : Rep s ps) {k : Clock F (Fin P)}
    (hk : ClockRep s ps k) (fresh : A.page c ∉ ps) (hlt : ps.length < F) :
    ∃ s', replacePageSC s c pageSize = some (0, s') ∧
      (k.access (A.page c)).1 = false ∧
      Served A c s ps false (k.access (A.page c)).2.1 s' (ps ++ [A.page c]) ∧
      ClockRep s' (ps ++ [A.page c]) (k.access (A.page c)).2.2 := by
  have miss := hrep.hitFrame_of_notMem (hA.pageNum c) fresh
  have free := hrep.freeFrame_of_lt hlt
  obtain ⟨hhand, hq⟩ := hk.filling hlt
  let s₁ : Sim F P N := (s.install c (A.page c) ⟨ps.length, hlt⟩
    ((ps.length : ℕ) * pageSize + A.offset c)).setReferenceBit (A.page c) 0
  have hserved : Served A c s ps false ⟨ps.length, hlt⟩ s₁ (ps ++ [A.page c]) :=
    (served_load hA hrep fresh hlt).setReferenceBit _ _
  obtain ⟨q, hrun, hq'⟩ := Queued.enqueue (hq.of_pageQueue (t := s₁) rfl)
    (by simpa using hlt) ps.length
  rw [← List.range_succ] at hq'
  rw [hk.access_load fresh hlt]
  refine ⟨_, ?_, rfl, hserved.withQueue q, ?_⟩
  · rw [replacePageSC_of_free hA miss free, hrun]
    rfl
  · obtain ⟨hbit, hkeep⟩ := install_referenceBit s c (A.page c) ⟨ps.length, hlt⟩
      ((ps.length : ℕ) * pageSize + A.offset c)
    have hnew : (ps ++ [A.page c])[ps.length]? = some (A.page c) := by simp
    have hother : ∀ i : Fin F, i ≠ ⟨ps.length, hlt⟩ →
        (ps ++ [A.page c])[(i : ℕ)]? = ps[(i : ℕ)]? := by
      intro i hi
      have hne : (i : ℕ) ≠ ps.length := fun heq => hi (Fin.ext heq)
      rcases Nat.lt_or_ge i ps.length with h | h
      · rw [List.getElem?_append_left h]
      · rw [List.getElem?_eq_none h, List.getElem?_eq_none (by simp; omega)]
    refine
      { pages := Clock.load_pages hk.pages hnew hother
        bits := hk.bits.load fresh hnew hother hbit hkeep
        filling := fun h => ?_
        turning := fun h => ?_ }
    · rw [List.length_append, List.length_singleton] at h ⊢
      refine ⟨?_, hq'⟩
      show (ps.length + 1) % F = ps.length + 1
      exact Nat.mod_eq_of_lt h
    · rw [List.length_append, List.length_singleton] at h
      have hzero : ((next ⟨ps.length, hlt⟩ : Fin F) : ℕ) = 0 := by
        show (ps.length + 1) % F = 0
        rw [h, Nat.mod_self]
      show Queued _ (cycle F (next ⟨ps.length, hlt⟩ : Fin F))
      have hrange : List.range (ps.length + 1) = List.range F := congrArg List.range h
      rw [hzero, cycle_zero, ← hrange]
      exact hq'

theorem sc_replace (hA : Loaded A s) (hrep : Rep s ps) {k : Clock F (Fin P)}
    (hk : ClockRep s ps k) (fresh : A.page c ∉ ps) (hfull : ps.length = F) :
    ∃ s', replacePageSC s c pageSize = some (0, s') ∧
      (k.access (A.page c)).1 = false ∧
      Served A c s ps false (k.access (A.page c)).2.1 s'
        (ps.set (k.access (A.page c)).2.1 (A.page c)) ∧
      ClockRep s' (ps.set (k.access (A.page c)).2.1 (A.page c))
        (k.access (A.page c)).2.2 ∧
      victimFrameNum .sc s c = some (((k.access (A.page c)).2.1 : ℕ) : Int) := by
  have miss := hrep.hitFrame_of_notMem (hA.pageNum c) fresh
  have free := hrep.freeFrame_of_full hfull
  obtain ⟨q₁, s₂, hdeq, hsearch, hsearched⟩ := hk.search hrep hfull
  have hsame := hsearched.same
  have hbits₂ := hsearched.remaining
  have hq₂ := hsearched.queued
  rw [hk.access_sweep fresh hfull]
  generalize hsweep : sweep k.bits k.hand = r at hsearch hbits₂ hq₂ ⊢
  obtain ⟨bits', f⟩ := r
  simp only at hsearch hbits₂ hq₂ ⊢
  have hf : (f : ℕ) < ps.length := hfull.symm ▸ f.isLt
  have hrep₂ : Rep s₂ ps := hsame.rep (hrep.of_tables rfl rfl)
  have hA₂ : Loaded A s₂ := hsame.addresses.trans hA
  let s₃ : Sim F P N := Sim.install
    { s₂ with
      pageTable := clearOthers s₂.pageTable ((f : ℕ) : Int) ((A.page c : ℕ) : Int) }
    c (A.page c) f ((f : ℕ) * pageSize + A.offset c)
  have hserved₃ : Served A c s₂ ps false f s₃ (ps.set f (A.page c)) := by
    refine served_replace hrep₂ fresh hfull hf ?_ rfl ?_ rfl
    · exact hrep₂.maps.clear_install hrep₂.nodup hf fresh
    · exact hA₂.install c f ((f : ℕ) * pageSize + A.offset c)
  have hserved := ((SameTables.withQueue s q₁).trans hsame).served
    (hserved₃.setReferenceBit (A.page c) 0)
  obtain ⟨q₄, hrun, hq₄⟩ := Queued.enqueue
    (hq₂.of_pageQueue (t := s₃.setReferenceBit (A.page c) 0) rfl) (length_cycle_tail_lt f) f
  rw [cycle_tail_append] at hq₄
  refine ⟨_, ?_, trivial, hserved.withQueue q₄, ?_, ?_⟩
  · rw [replacePageSC_of_full hA miss free hdeq hsearch, hrun]
    rfl
  · obtain ⟨hbit, hkeep⟩ := install_referenceBit
      { s₂ with
        pageTable := clearOthers s₂.pageTable ((f : ℕ) : Int) ((A.page c : ℕ) : Int) }
      c (A.page c) f ((f : ℕ) * pageSize + A.offset c)
    have hnew : (ps.set f (A.page c))[(f : ℕ)]? = some (A.page c) := by simp [hf]
    have hother : ∀ i : Fin F, i ≠ f →
        (ps.set f (A.page c))[(i : ℕ)]? = ps[(i : ℕ)]? := fun i hi =>
      List.getElem?_set_ne fun heq => hi (Fin.ext heq.symm)
    refine
      { pages := Clock.load_pages hk.pages hnew hother
        bits := hbits₂.load fresh hnew hother hbit fun q hq => ?_
        filling := fun h => ?_
        turning := fun _ => hq₄ }
    · rw [← clearOthers_referenceBit s₂.pageTable ((f : ℕ) : Int) ((A.page c : ℕ) : Int) q]
      exact hkeep q hq
    · rw [List.length_set] at h
      omega
  · simp only [victimFrameNum, hdeq, Option.bind_eq_bind, Option.bind_some, hsearch]

/-- **Second-Chance serves every reference as the clock does**: same hit or
fault, same frame, and the state afterwards represents the clock afterwards. -/
theorem sc_serves (hA : Loaded A s) (hrep : Rep s ps) {k : Clock F (Fin P)}
    (hk : ClockRep s ps k) (c : Fin N) :
    ∃ s' ps', replacePageSC s c pageSize =
        some (if (k.access (A.page c)).1 then 1 else 0, s') ∧
      Served A c s ps (k.access (A.page c)).1 (k.access (A.page c)).2.1 s' ps' ∧
      ClockRep s' ps' (k.access (A.page c)).2.2 ∧
      ((k.access (A.page c)).1 = false → ps.length = F →
        victimFrameNum .sc s c = some (((k.access (A.page c)).2.1 : ℕ) : Int)) := by
  by_cases hmem : A.page c ∈ ps
  · obtain ⟨s', hrun, hhit, hserved, hk'⟩ := sc_hit hA hrep hk hmem
    rw [hhit]
    exact ⟨s', ps, hrun, hserved, hk', by simp⟩
  · rcases Nat.lt_or_ge ps.length F with hlt | hge
    · obtain ⟨s', hrun, hhit, hserved, hk'⟩ := sc_load hA hrep hk hmem hlt
      rw [hhit]
      refine ⟨s', _, hrun, hserved, hk', fun _ hfull => ?_⟩
      omega
    · have hfull : ps.length = F := le_antisymm hrep.fits hge
      obtain ⟨s', hrun, hhit, hserved, hk', hvictim⟩ := sc_replace hA hrep hk hmem hfull
      rw [hhit]
      exact ⟨s', _, hrun, hserved, hk', fun _ _ => hvictim⟩

end OS2023.Paging
