import OS2023.Paging.Inclusion
import OS2023.Paging.ReferenceBits
import Mathlib.Data.List.Forall2

/-!
# Two runs in step

Three properties compare two runs: a policy does not look at the names of the
pages, FIFO, LRU and Second-Chance do not look ahead, and Second-Chance is FIFO
when its bits do not tell the pages apart. Each follows from a relation between
the two states that every reference keeps: `lockstep_rule` is the run rule for
pairs of runs, and `Served.inStep` says that demand paging leaves the two runs
no choice but the frame they give up.
-/

namespace OS2023.Paging

open OS2023.Lib

variable {F P N : ℕ} {pageSize : Int} {A B : References P N pageSize} {c : Fin N}

/-! ## The rule for pairs of runs -/

/-- Two runs, of which the second sees the pages of the first under the names
`g`, serve a reference alike if they give up the same frame. -/
theorem Served.inStep {s s' t t' : Sim F P N} {ps ps' qs' : List (Fin P)} {hit hit' : Bool}
    {f f' : Fin F} {g : Fin P → Fin P} (hg : Function.Injective g)
    (hpage : B.page c = g (A.page c)) (h : Served A c s ps hit f s' ps')
    (h' : Served B c t (ps.map g) hit' f' t' qs')
    (hvictim : hit = false → hit' = false → ps.length = F → f' = f) :
    hit' = hit ∧ f' = f ∧ qs' = ps'.map g := by
  have hacc := h'.access
  rw [hpage] at hacc
  obtain ⟨hhit, hf, hps⟩ := h.access.rename hg hacc fun hmiss hmiss' hfull =>
    congrArg Fin.val (hvictim hmiss hmiss' hfull)
  exact ⟨hhit, Fin.ext hf, hps⟩

/-- **The lockstep rule.** Two runs that serve each of the first `n` references
alike, keeping `I` between their states, print rows that are related as the rows
of a reference are, and count the same faults. -/
theorem lockstep_rule (alg alg' : Algorithm) {n : ℕ} (hn : n ≤ N) {R : Row → Row → Prop}
    (hR : ∀ (c : Fin N) hit (f : ℕ), (c : ℕ) < n → R (A.row c hit f) (B.row c hit f))
    {I : Sim F P N → List (Fin P) → Sim F P N → List (Fin P) → Prop}
    (start : I (initialState F P pageSize A.addr).sim []
      (initialState F P pageSize B.addr).sim [])
    (turn : ∀ (c : Fin N) m ps m' qs, (c : ℕ) < n →
      runFor alg F P pageSize A.addr c = some m → Steady A c m ps → Steady B c m' qs →
      I m.sim ps m'.sim qs → ∃ hit f s' ps' t' qs',
        replacePage alg m.sim c pageSize = some (if hit then 1 else 0, s') ∧
        replacePage alg' m'.sim c pageSize = some (if hit then 1 else 0, t') ∧
        Served A c m.sim ps hit f s' ps' ∧ Served B c m'.sim qs hit f t' qs' ∧
        I s' ps' t' qs') :
    ∀ k ≤ n, ∃ m ps m' qs, runFor alg F P pageSize A.addr k = some m ∧
      runFor alg' F P pageSize B.addr k = some m' ∧ Steady A k m ps ∧ Steady B k m' qs ∧
      I m.sim ps m'.sim qs ∧ List.Forall₂ R m.rows m'.rows ∧
      m.pageFaults = m'.pageFaults := by
  intro k
  induction k with
  | zero =>
      exact fun _ => ⟨_, [], _, [], rfl, rfl, steady_initialState A, steady_initialState B,
        start, List.Forall₂.nil, rfl⟩
  | succ k ih =>
      intro hk
      obtain ⟨m, ps, m', qs, hrun, hrun', hsteady, hsteady', hI, hrows, hcount⟩ :=
        ih (Nat.le_of_succ_le hk)
      let c : Fin N := ⟨k, Nat.lt_of_lt_of_le hk hn⟩
      obtain ⟨hit, f, s', ps', t', qs', hpage, hpage', hserved, hserved', hI'⟩ :=
        turn c m ps m' qs hk hrun hsteady hsteady' hI
      have hturn : Turn alg A c m ps hit f s' ps' := ⟨hrun, hsteady, hpage, hserved⟩
      have hturn' : Turn alg' B c m' qs hit f t' qs' := ⟨hrun', hsteady', hpage', hserved'⟩
      refine ⟨_, ps', _, qs', hturn.next, hturn'.next, hsteady.turn hserved,
        hsteady'.turn hserved', hI', ?_, ?_⟩
      · exact List.rel_append hrows (List.Forall₂.cons (hR c hit f hk) List.Forall₂.nil)
      · simp only [MainState.record, hcount]

/-! ## One policy under two names -/

/-- The two runs of a policy keep the same queue, or the same clock up to the
names of the pages. -/
def SameView (g : Fin P → Fin P) : Algorithm → Sim F P N → List (Fin P) → Sim F P N →
    List (Fin P) → Prop
  | .optimal, s, ps, t, _ => ∃ l, l.Perm (List.range ps.length) ∧ Unrotated s l ∧ Unrotated t l
  | .fifo, s, ps, t, _ => ∃ l, l.Perm (List.range ps.length) ∧ Queued s l ∧ Queued t l
  | .lru, _, _, _, _ => True
  | .sc, s, ps, t, qs => ∃ k, ClockRep s ps k ∧ ClockRep t qs (k.rename g)

theorem sameView_initialState (hF : 0 < F) (g : Fin P → Fin P) (A B : References P N pageSize)
    (alg : Algorithm) : SameView g alg (initialState F P pageSize A.addr).sim []
      (initialState F P pageSize B.addr).sim [] := by
  cases alg with
  | optimal => exact ⟨[], List.Perm.nil, unrotated_initialState A, unrotated_initialState B⟩
  | fifo => exact ⟨[], List.Perm.nil, queued_initialState A, queued_initialState B⟩
  | lru => trivial
  | sc => exact ⟨Clock.start hF, clockRep_initialState hF A, clockRep_initialState hF B⟩

/-- Both runs serve reference `c` alike and keep their view. -/
def InStep (g : Fin P → Fin P) (A B : References P N pageSize) (c : Fin N) (alg : Algorithm)
    (s : Sim F P N) (ps : List (Fin P)) (t : Sim F P N) : Prop :=
  ∃ hit f s' ps' t', replacePage alg s c pageSize = some (if hit then 1 else 0, s') ∧
    replacePage alg t c pageSize = some (if hit then 1 else 0, t') ∧
    Served A c s ps hit f s' ps' ∧ Served B c t (ps.map g) hit f t' (ps'.map g) ∧
    SameView g alg s' ps' t' (ps'.map g)

section Renamed

variable {s t : Sim F P N} {ps : List (Fin P)} {g : Fin P → Fin P}

theorem fifo_inStep (hF : 0 < F) (hg : Function.Injective g) (hpage : B.page c = g (A.page c))
    (hA : Loaded A s) (hrep : Rep s ps) (hB : Loaded B t) (hrep' : Rep t (ps.map g))
    (hview : SameView g .fifo s ps t (ps.map g)) :
    InStep g A B c .fifo s ps t := by
  obtain ⟨l, hl, hq, hq'⟩ := hview
  have hl' : l.Perm (List.range (ps.map g).length) := by rwa [List.length_map]
  obtain ⟨hit, f, s', ps', hrun, hserved, hqs, hv⟩ := fifo_serves hF hA hrep hq hl c
  obtain ⟨hit', f', t', qs', hrun', hserved', hqt, hv'⟩ := fifo_serves hF hB hrep' hq' hl' c
  obtain ⟨rfl, rfl, rfl⟩ := hserved.inStep hg hpage hserved' fun hmiss hmiss' hfull => by
    have hhead := (hv hmiss hfull).1
    rw [(hv' hmiss' (by rwa [List.length_map])).1, Option.some.injEq] at hhead
    exact Fin.ext hhead
  exact ⟨_, _, s', ps', t', hrun, hrun', hserved, hserved',
    _, hserved.access.queue_perm hl, hqs, hqt⟩

theorem optimal_inStep (hF : 3 ≤ F) (hN : N ≤ 5000) (hg : Function.Injective g)
    (hw : ∀ i, B.page i = g (A.page i))
    (hA : Loaded A s) (hrep : Rep s ps) (hB : Loaded B t) (hrep' : Rep t (ps.map g))
    (hview : SameView g .optimal s ps t (ps.map g)) :
    InStep g A B c .optimal s ps t := by
  obtain ⟨l, hl, hq, hq'⟩ := hview
  have hpos : 0 < F := Nat.lt_of_lt_of_le (by decide) hF
  have hl' : l.Perm (List.range (ps.map g).length) := by rwa [List.length_map]
  obtain ⟨hit, f, s', ps', hrun, hserved, hqs, hv⟩ := optimal_serves hF hN hA hrep hq hl c
  obtain ⟨hit', f', t', qs', hrun', hserved', hqt, hv'⟩ :=
    optimal_serves hF hN hB hrep' hq' hl' c
  obtain ⟨rfl, rfl, rfl⟩ := hserved.inStep hg (hw c) hserved' fun hmiss hmiss' hfull => by
    have hfull' : (ps.map g).length = F := by rwa [List.length_map]
    have hsame := optimalVictim_congr hpos hN hA hB hrep hrep' hfull hfull' hq hq'
      (hfull ▸ hl) (c := c) fun i => by
        have hi : (i : ℕ) < ps.length := hfull.symm ▸ i.isLt
        rw [dist_eq hA hrep hi, dist_eq hB hrep' (by rwa [List.length_map]),
          List.getElem_map, nextUse_rename hg hw]
    rw [hv hmiss hfull, hv' hmiss' hfull', Option.some.injEq, Int.natCast_inj] at hsame
    exact Fin.ext hsame
  exact ⟨_, _, s', ps', t', hrun, hrun', hserved, hserved',
    _, hserved.access.queue_perm hl, hqs, hqt⟩

theorem lru_inStep (hF : 0 < F) (hg : Function.Injective g)
    (hw : ∀ i : Fin N, i ≤ c → B.page i = g (A.page i)) (hA : Loaded A s) (hrep : Rep s ps)
    (hseen : Seen A c ps) (hB : Loaded B t) (hrep' : Rep t (ps.map g))
    (hseen' : Seen B c (ps.map g)) :
    InStep g A B c .lru s ps t := by
  obtain ⟨hit, f, s', ps', hrun, hserved, hv⟩ := lru_serves hF hA hrep c hseen
  obtain ⟨hit', f', t', qs', hrun', hserved', hv'⟩ := lru_serves hF hB hrep' c hseen'
  obtain ⟨rfl, rfl, rfl⟩ := hserved.inStep hg (hw c le_rfl) hserved'
    fun hmiss hmiss' hfull => by
      have hold' := (hv' hmiss' (by rwa [List.length_map])).2
      have hold := hold'.of_rename hg fun i hi => hw i (Fin.le_def.mpr hi.le)
      exact Fin.ext (hold.unique hrep.nodup (hv hmiss hfull).2)
  exact ⟨_, _, s', ps', t', hrun, hrun', hserved, hserved', trivial⟩

theorem sc_inStep (hg : Function.Injective g) (hpage : B.page c = g (A.page c))
    (hA : Loaded A s) (hrep : Rep s ps) (hB : Loaded B t) (hrep' : Rep t (ps.map g))
    (hview : SameView g .sc s ps t (ps.map g)) :
    InStep g A B c .sc s ps t := by
  obtain ⟨k, hk, hk'⟩ := hview
  obtain ⟨s', ps', hrun, hserved, hks, -⟩ := sc_serves hA hrep hk c
  obtain ⟨t', qs', hrun', hserved', hkt, -⟩ := sc_serves hB hrep' hk' c
  rw [hpage, Clock.access_rename hg] at hrun' hserved' hkt
  obtain ⟨-, -, rfl⟩ := hserved.inStep hg hpage hserved' fun _ _ _ => rfl
  exact ⟨_, _, s', ps', t', hrun, hrun', hserved, hserved', _, hks, hkt⟩

/-- **Every policy serves renamed references alike.** Optimal looks at the whole
array and needs the names of all pages, the others those of the pages so far. -/
theorem replacePage_inStep (hF : 0 < F) {n : ℕ} (hg : Function.Injective g)
    (hw : ∀ i : Fin N, (i : ℕ) < n → B.page i = g (A.page i)) {alg : Algorithm}
    (hahead : alg = .optimal → 3 ≤ F ∧ N ≤ 5000 ∧ N ≤ n) (hc : (c : ℕ) < n)
    {m m' : MainState F P N} (h : Steady A c m ps) (h' : Steady B c m' (ps.map g))
    (hview : SameView g alg m.sim ps m'.sim (ps.map g)) :
    InStep g A B c alg m.sim ps m'.sim := by
  cases alg with
  | optimal =>
      obtain ⟨hF₃, hN, hNn⟩ := hahead rfl
      exact optimal_inStep hF₃ hN hg (fun i => hw i (lt_of_lt_of_le i.isLt hNn)) h.loaded
        h.rep h'.loaded h'.rep hview
  | fifo => exact fifo_inStep hF hg (hw c hc) h.loaded h.rep h'.loaded h'.rep hview
  | lru =>
      exact lru_inStep hF hg (fun i hi => hw i (lt_of_le_of_lt (Fin.le_def.mp hi) hc)) h.loaded
        h.rep h.seen h'.loaded h'.rep h'.seen
  | sc => exact sc_inStep hg (hw c hc) h.loaded h.rep h'.loaded h'.rep hview

theorem renamed_runs (hF : 0 < F) {n : ℕ} (hn : n ≤ N) (hg : Function.Injective g)
    (hw : ∀ i : Fin N, (i : ℕ) < n → B.page i = g (A.page i)) (alg : Algorithm)
    (hahead : alg = .optimal → 3 ≤ F ∧ N ≤ 5000 ∧ N ≤ n) {R : Row → Row → Prop}
    (hR : ∀ (c : Fin N) hit (f : ℕ), (c : ℕ) < n → R (A.row c hit f) (B.row c hit f)) :
    ∃ (m m' : MainState F P N), runFor alg F P pageSize A.addr n = some m ∧
      runFor alg F P pageSize B.addr n = some m' ∧ List.Forall₂ R m.rows m'.rows ∧
      m.pageFaults = m'.pageFaults := by
  obtain ⟨m, ps, m', qs, hrun, hrun', -, -, -, hrows, hcount⟩ :=
    lockstep_rule (F := F) alg alg hn hR
      (I := fun s ps t qs => qs = ps.map g ∧ SameView g alg s ps t qs)
      ⟨rfl, sameView_initialState hF g A B alg⟩ (by
        rintro c m ps m' _ hc - h h' ⟨rfl, hview⟩
        obtain ⟨hit, f, s', ps', t', hrun, hrun', hserved, hserved', hview'⟩ :=
          replacePage_inStep hF hg hw hahead hc h h' hview
        exact ⟨hit, f, s', ps', t', _, hrun, hrun', hserved, hserved', rfl, hview'⟩) n le_rfl
  exact ⟨m, m', hrun, hrun', hrows, hcount⟩

end Renamed

/-- **Only the pattern of repeated pages matters.** If the pages of `B` are those of
`A` under a permutation, every policy gives both the same hits and faults and
the same frames, step by step, and hence the same total. -/
theorem renaming_invariant (hF : 3 ≤ F) (π : Equiv.Perm (Fin P))
    (A B : Addresses P numAddresses pageSize) (hπ : ∀ i, B.page i = π (A.page i))
    (alg : Algorithm) :
    ∃ (mA mB : MainState F P numAddresses) (total : ℕ),
      simulate alg F P pageSize A.addr = some mA ∧
      simulate alg F P pageSize B.addr = some mB ∧
      mA.rows.length = numAddresses ∧
      List.Forall₂ (fun a b => a.pageFaultChar = b.pageFaultChar ∧ a.frameNum = b.frameNum)
        mA.rows mB.rows ∧
      mA.total = some total ∧ mB.total = some total := by
  obtain ⟨mA, mB, hrunA, hrunB, hrows, hcount⟩ := renamed_runs (F := F) (by omega) le_rfl
    π.injective (fun i _ => hπ i) alg (fun _ => ⟨hF, numAddresses_le, le_rfl⟩)
    (R := fun a b => a.pageFaultChar = b.pageFaultChar ∧ a.frameNum = b.frameNum)
    fun c hit f _ => ⟨rfl, rfl⟩
  obtain ⟨m₁, hrun₁, htotal₁, -⟩ :=
    total_of_turns (run_turns hF numAddresses_le A.toReferences alg)
  obtain ⟨m₂, hrun₂, htotal₂, -⟩ :=
    total_of_turns (run_turns hF numAddresses_le B.toReferences alg)
  obtain rfl : m₁ = mA := Option.some.inj (hrun₁.symm.trans hrunA)
  obtain rfl : m₂ = mB := Option.some.inj (hrun₂.symm.trans hrunB)
  refine ⟨m₁, m₂, _, hrunA, hrunB, ?_, hrows, htotal₁, by rw [htotal₂, hcount]⟩
  exact length_rows le_rfl hrunA

/-- The walk of `roundRobin` with its pages counted downwards. -/
def roundRobinDown : Addresses 4 numAddresses 1024 :=
  Addresses.ofInRange (fun i => (3 - (i : ℕ) % 4 : ℕ) * 1024 + 5) fun i => by
    omega

theorem renaming_invariant_roundRobin :
    ∃ (mA mB : MainState 3 4 numAddresses) (total : ℕ),
      simulate .sc 3 4 1024 roundRobin.addr = some mA ∧
      simulate .sc 3 4 1024 roundRobinDown.addr = some mB ∧
      mA.total = some total ∧ mB.total = some total := by
  have hrev : ∀ i, roundRobinDown.page i = Fin.revPerm (roundRobin.page i) := by
    intro i
    have hup := roundRobin_page i
    have hdown := roundRobinDown.tdiv_eq_page i
    rw [Int.tdiv_eq_ediv_of_nonneg (roundRobinDown.inRange i).1,
      show roundRobinDown.addr i = ((3 - (i : ℕ) % 4 : ℕ) : Int) * 1024 + 5 from rfl] at hdown
    apply Fin.ext
    rw [Fin.revPerm_apply, Fin.val_rev]
    omega
  obtain ⟨mA, mB, total, hA, hB, -, -, htotal⟩ :=
    renaming_invariant (F := 3) le_rfl Fin.revPerm roundRobin roundRobinDown hrev .sc
  exact ⟨mA, mB, total, hA, hB, htotal⟩

/-! ## Policies that do not look ahead -/

theorem exists_run (hF : 0 < F) {alg : Algorithm} (halg : alg ≠ .optimal)
    (A : References P N pageSize) {k : ℕ} (hk : k ≤ N) :
    ∃ m : MainState F P N, runFor alg F P pageSize A.addr k = some m := by
  cases alg with
  | optimal => exact absurd rfl halg
  | fifo =>
      obtain ⟨m, -, hrun, -⟩ := fifo_inv hF A k hk
      exact ⟨m, hrun⟩
  | lru =>
      obtain ⟨m, -, hrun, -⟩ := lru_recent hF A k hk
      exact ⟨m, hrun⟩
  | sc =>
      obtain ⟨m, -, hrun, -⟩ := sc_clockRep hF A k hk
      exact ⟨m, hrun⟩

/-- A row shows nothing of an array but one address. -/
theorem References.row_congr (h : A.addr c = B.addr c) (hit : Bool) (f : ℕ) :
    A.row c hit f = B.row c hit f := by
  have hpage : A.page c = B.page c := by
    apply Fin.ext
    rw [← Int.natCast_inj, ← A.tdiv_eq_page, ← B.tdiv_eq_page, h]
  simp only [References.row, h, hpage, References.offset]

/-- **FIFO, LRU and Second-Chance are online.** On two arrays that agree on their
first `n` addresses the first `n` rows are the same. -/
theorem online (hF : 0 < F) {alg : Algorithm} (halg : alg ≠ .optimal)
    (A B : Addresses P N pageSize) {n : ℕ}
    (hagree : ∀ i : Fin N, (i : ℕ) < n → A.addr i = B.addr i) :
    ∃ mA mB : MainState F P N, simulate alg F P pageSize A.addr = some mA ∧
      simulate alg F P pageSize B.addr = some mB ∧ mA.rows.take n = mB.rows.take n := by
  obtain ⟨mA, hrunA⟩ := exists_run hF halg A.toReferences le_rfl
  obtain ⟨mB, hrunB⟩ := exists_run hF halg B.toReferences le_rfl
  refine ⟨mA, mB, hrunA, hrunB, ?_⟩
  have hmin : ∀ i : Fin N, (i : ℕ) < min n N → A.addr i = B.addr i := fun i hi =>
    hagree i (lt_of_lt_of_le hi (min_le_left n N))
  have hpage : ∀ i : Fin N, (i : ℕ) < min n N → B.page i = id (A.page i) := by
    intro i hi
    apply Fin.ext
    rw [← Int.natCast_inj, id_eq, ← A.tdiv_eq_page, ← B.tdiv_eq_page, hmin i hi]
  obtain ⟨m, m', hrun, hrun', hrows, -⟩ := renamed_runs (F := F) hF (min_le_right n N)
    Function.injective_id hpage alg (fun h => absurd h halg) (R := Eq)
    fun c hit f hc => References.row_congr (hmin c hc) hit f
  have hlenA := length_rows le_rfl hrunA
  have hlenB := length_rows le_rfl hrunB
  calc mA.rows.take n = mA.rows.take (min n N) := by
        conv_lhs => rw [List.take_eq_take_min, hlenA]
    _ = m.rows := take_rows (min_le_right n N) le_rfl hrun hrunA
    _ = m'.rows := List.forall₂_eq_eq_eq ▸ hrows
    _ = mB.rows.take (min n N) := (take_rows (min_le_right n N) le_rfl hrun' hrunB).symm
    _ = mB.rows.take n := by
        conv_rhs => rw [List.take_eq_take_min, hlenB]

/-- `roundRobin` with its second half spent on page 3. -/
def roundRobinHalf : Addresses 4 numAddresses 1024 :=
  Addresses.ofInRange
    (fun i => (if (i : ℕ) < 2500 then (i : ℕ) % 4 else 3 : ℕ) * 1024 + 2) fun i => by
      split <;> omega

theorem online_roundRobin :
    ∃ mA mB : MainState 3 4 numAddresses, simulate .lru 3 4 1024 roundRobin.addr = some mA ∧
      simulate .lru 3 4 1024 roundRobinHalf.addr = some mB ∧
      mA.rows.take 2500 = mB.rows.take 2500 := by
  refine online (F := 3) (by decide) (by decide) roundRobin roundRobinHalf fun i hi => ?_
  show (((i : ℕ) % 4 : ℕ) : Int) * 1024 + 2 =
    ((if (i : ℕ) < 2500 then (i : ℕ) % 4 else 3 : ℕ) : Int) * 1024 + 2
  rw [if_pos hi]

/-! ## Second-Chance without information -/

/-- A sweep over equal bits stops where it started. -/
theorem ClockRep.sweep_of_uniform {s : Sim F P N} {ps : List (Fin P)} {k : Clock F (Fin P)}
    (hk : ClockRep s ps k) (hrep : Rep s ps) (hfull : ps.length = F)
    (huniform : (∀ q ∈ residentPages s, (s.pageTable q).referenceBit = 0) ∨
      ∀ q ∈ residentPages s, (s.pageTable q).referenceBit = 1) :
    (sweep k.bits k.hand).2 = k.hand := by
  rcases huniform with hzero | hone
  · have hclear : k.bits k.hand = false := by
      obtain ⟨q, hq, hp⟩ := hrep.exists_resident hfull k.hand
      rw [← Bool.not_eq_true, hk.bits k.hand q hp, hzero q hq]
      decide
    rw [sweep_of_clear hclear]
  · have hset : ∀ i, k.bits i = true := by
      intro i
      obtain ⟨q, hq, hp⟩ := hrep.exists_resident hfull i
      exact (hk.bits i q hp).mpr (hone q hq)
    rw [sweep_of_all_set hset]

/-- With equal bits a fault of Second-Chance takes the frame that is the turn of
FIFO: frame `n % F` after `n` loads. -/
theorem ClockRep.frame_of_uniform {s s' : Sim F P N} {ps ps' : List (Fin P)}
    {k : Clock F (Fin P)} {n : ℕ} (hk : ClockRep s ps k) (hA : Loaded A s) (hrep : Rep s ps)
    (hlen : ps.length = min F n) (hhand : (k.hand : ℕ) = n % F)
    (huniform : hitFrame s c = none → freeFrame s = none →
      (∀ q ∈ residentPages s, (s.pageTable q).referenceBit = 0) ∨
        ∀ q ∈ residentPages s, (s.pageTable q).referenceBit = 1)
    (hserved : Served A c s ps (k.access (A.page c)).1 (k.access (A.page c)).2.1 s' ps')
    (hmiss : (k.access (A.page c)).1 = false) :
    ((k.access (A.page c)).2.1 : ℕ) = n % F := by
  have fresh := hserved.access.fresh_of_miss hmiss
  rcases hserved.access.inv_of_miss hmiss with ⟨room, hf, -⟩ | ⟨full, -⟩
  · have hn : ps.length = n := by omega
    rw [hf, hn, Nat.mod_eq_of_lt (hn ▸ room)]
  · have hstop := hk.sweep_of_uniform hrep full (huniform
      (hrep.hitFrame_of_notMem (hA.pageNum c) fresh) (hrep.freeFrame_of_full full))
    rw [hk.access_sweep fresh full]
    show ((sweep k.bits k.hand).2 : ℕ) = n % F
    rw [hstop, hhand]

/-- A Second-Chance state and a FIFO state after `n` loads each: the hand stands
where the next load of FIFO goes. -/
def SameTurn (s : Sim F P N) (ps : List (Fin P)) (t : Sim F P N) (qs : List (Fin P)) : Prop :=
  qs = ps ∧ ∃ k n, ClockRep s ps k ∧ ps.length = min F n ∧ (k.hand : ℕ) = n % F ∧
    Queued t (rotation F n)

/-- A fault on frame `n % F` in both keeps them in step. -/
theorem SameTurn.fault {s t : Sim F P N} {ps : List (Fin P)} {k : Clock F (Fin P)} {n : ℕ}
    (hF : 0 < F) (hk : ClockRep s ps k) (hlen : ps.length = min F (n + 1))
    (hhand : (k.hand : ℕ) = (n % F + 1) % F)
    (hq : Queued t ((rotation F n).erase (n % F) ++ [n % F])) : SameTurn s ps t ps := by
  refine ⟨rfl, k, n + 1, hk, hlen, ?_, ?_⟩
  · rw [hhand, Nat.mod_add_mod]
  · rw [← rotation_succ hF]
    exact hq

theorem sc_fifo_inStep (hF : 0 < F) {m m' : MainState F P N} {ps : List (Fin P)}
    (h : Steady A c m ps) (h' : Steady A c m' ps) (hsame : SameTurn m.sim ps m'.sim ps)
    (huniform : hitFrame m.sim c = none → freeFrame m.sim = none →
      (∀ q ∈ residentPages m.sim, (m.sim.pageTable q).referenceBit = 0) ∨
        ∀ q ∈ residentPages m.sim, (m.sim.pageTable q).referenceBit = 1) :
    ∃ hit f s' ps' t' qs',
      replacePage .sc m.sim c pageSize = some (if hit then 1 else 0, s') ∧
      replacePage .fifo m'.sim c pageSize = some (if hit then 1 else 0, t') ∧
      Served A c m.sim ps hit f s' ps' ∧ Served A c m'.sim ps hit f t' qs' ∧
      SameTurn s' ps' t' qs' := by
  obtain ⟨-, k, n, hk, hlen, hhand, hq⟩ := hsame
  have hperm : (rotation F n).Perm (List.range ps.length) := by
    rw [hlen]
    exact rotation_perm hF n
  obtain ⟨s', ps', hrun, hserved, hks, -⟩ := sc_serves h.loaded h.rep hk c
  obtain ⟨hit', f', t', qs', hrun', hserved', hqt, hv'⟩ :=
    fifo_serves hF h'.loaded h'.rep hq hperm c
  have hmoved := k.access_hand (A.page c)
  have hframe := hk.frame_of_uniform h.loaded h.rep hlen hhand huniform hserved
  have hqs : ps.map id = ps := List.map_id ps
  obtain ⟨rfl, rfl, rfl⟩ := hserved.inStep (g := id) Function.injective_id rfl (hqs ▸ hserved')
    fun hmiss hmiss' hfull => by
      have hhead := (hv' hmiss' hfull).1
      rw [rotation_head hF (by omega), Option.some.injEq] at hhead
      exact Fin.ext (hhead.symm.trans (hframe hmiss).symm)
  rw [List.map_id] at hserved'
  refine ⟨_, _, s', ps', t', _, hrun, hrun', hserved, hserved', ?_⟩
  cases hhit : (k.access (A.page c)).1 with
  | true =>
      obtain rfl := hserved.access.eq_of_hit hhit
      rw [hhit] at hqt hmoved
      exact ⟨rfl, _, n, hks, hlen, (congrArg Fin.val hmoved).trans hhand, hqt⟩
  | false =>
      have hlen' := hserved.access.length_of_miss hhit
      rw [hhit] at hqt hmoved
      rw [hframe hhit] at hqt
      refine SameTurn.fault hF hks (by omega) ?_ hqt
      rw [hmoved, ← hframe hhit]
      rfl

/-- **Second-Chance degenerates to FIFO.** If at every replacement fault of the
Second-Chance run the bits of the resident pages are all 0 or all 1, the rows of
the two runs are the same. -/
theorem sc_eq_fifo (hF : 0 < F) (A : Addresses P N pageSize)
    (huniform : ∀ (c : Fin N) (m : MainState F P N),
      runFor .sc F P pageSize A.addr c = some m → hitFrame m.sim c = none →
      freeFrame m.sim = none →
      (∀ q ∈ residentPages m.sim, (m.sim.pageTable q).referenceBit = 0) ∨
        ∀ q ∈ residentPages m.sim, (m.sim.pageTable q).referenceBit = 1) :
    ∃ m m' : MainState F P N, simulate .sc F P pageSize A.addr = some m ∧
      simulate .fifo F P pageSize A.addr = some m' ∧ m.rows = m'.rows := by
  have start : SameTurn (initialState F P pageSize A.addr).sim []
      (initialState F P pageSize A.addr).sim [] := by
    refine ⟨rfl, Clock.start hF, 0, clockRep_initialState hF A.toReferences, by simp,
      (Nat.zero_mod F).symm, ?_⟩
    rw [Lib.rotation, if_pos hF]
    exact queued_initialState A.toReferences
  obtain ⟨m, ps, m', qs, hrun, hrun', -, -, -, hrows, -⟩ :=
    lockstep_rule (A := A.toReferences) (B := A.toReferences) .sc .fifo (R := Eq) le_rfl
      (fun c hit f _ => rfl) start (by
        intro c m ps m' qs _ hrun h h' hsame
        obtain rfl := hsame.1
        exact sc_fifo_inStep hF h h' hsame (huniform c m hrun)) N le_rfl
  exact ⟨m, m', hrun, hrun', List.forall₂_eq_eq_eq ▸ hrows⟩

/-- A walk that comes to no page twice. -/
def straightOn : Addresses numAddresses numAddresses 1024 :=
  Addresses.ofInRange (fun i => ((i : ℕ) : Int) * 1024) fun i => by
    have := i.isLt
    omega

theorem straightOn_page (i : Fin numAddresses) : straightOn.page i = i := by
  have hpage := straightOn.tdiv_eq_page i
  rw [Int.tdiv_eq_ediv_of_nonneg (straightOn.inRange i).1,
    show straightOn.addr i = ((i : ℕ) : Int) * 1024 from rfl] at hpage
  apply Fin.ext
  omega

/-- Nothing is hit, so that no bit is ever set. -/
theorem straightOn_hitAt (j i : Fin numAddresses) :
    hitAt .sc 3 straightOn.toReferences i ≠ some j := by
  obtain ⟨m, ps, hit, f, s', ps', h⟩ :=
    run_turns (F := 3) le_rfl numAddresses_le straightOn.toReferences .sc i
  have hnew : straightOn.page i ∉ straightOn.referenced i := by
    intro hmem
    obtain ⟨l, hl, heq⟩ := straightOn.mem_referenced.mp hmem
    rw [straightOn_page, straightOn_page] at heq
    exact hl.ne (congrArg Fin.val heq)
  rw [hitAt, h.resultAt_of_new hnew]
  simp

/-- Every fault of Second-Chance on the walk finds three bits that are 0. -/
theorem sc_eq_fifo_straightOn :
    ∃ m m' : MainState 3 numAddresses numAddresses,
      simulate .sc 3 numAddresses 1024 straightOn.addr = some m ∧
      simulate .fifo 3 numAddresses 1024 straightOn.addr = some m' ∧ m.rows = m'.rows := by
  refine sc_eq_fifo (F := 3) (by decide) straightOn fun c m hrun _ _ => .inl fun q _ => ?_
  obtain ⟨m₀, ps, hrun₀, hsteady, hbits, -⟩ :=
    sc_search (F := 3) (by decide) straightOn.toReferences c.isLt.le
  obtain rfl : m₀ = m := Option.some.inj (hrun₀.symm.trans hrun)
  refine (hbits.binary q).resolve_right fun hset => ?_
  obtain ⟨i, -, hhit, -⟩ := ((hbits.meaning q).mp hset).2
  exact straightOn_hitAt q i hhit

end OS2023.Paging
