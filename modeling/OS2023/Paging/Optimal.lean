import OS2023.Lib.Belady
import OS2023.Paging.Fifo
import Mathlib.Algebra.BigOperators.Fin
import Mathlib.Algebra.Order.BigOperators.Group.Finset

/-!
# Optimal, one reference

`replacePageOptimal` serves a reference under demand paging and gives up a
frame whose page is not needed before all the other resident pages are.

The distance of a frame is the distance to its page's next use, or 5000 when
there is none: larger than every real distance in an array of at most 5000
addresses. The queue is never rotated, so a slot of the array is a position in
the queue and the tie-break among the pages without a next use is first in,
first out. Removal from the middle of the queue needs three elements, hence
`3 ≤ F`.
-/

namespace OS2023.Paging

open OS2023.Lib

variable {F P N : ℕ} {pageSize : Int} {A : References P N pageSize} {c : Fin N}
  {s : Sim F P N} {ps : List (Fin P)} {l : List ℕ}

/-! ## Distances -/

/-- What the look-ahead returns for the next use found, if any. -/
def distanceOf (c : Fin N) (k : ℕ) : Option (Fin N) → Int × ℕ
  | some j => (((j : ℕ) : Int) - (c : ℕ), k)
  | none => (5000, k + 1)

theorem nextUseScan_drop (hA : Loaded A s) (q : Fin P) :
    ∀ (r m k : ℕ) (d : Int), m + r + 1 = N →
      nextUseScan s c ((q : ℕ) : Int) ((List.finRange N).drop m) (d, k) =
        distanceOf c k (nextUse A.page m q) := by
  intro r
  induction r with
  | zero =>
      intro m k d hm
      have hmN : m < N := by omega
      rw [drop_finRange hmN, List.drop_of_length_le (by simp; omega), nextUseScan,
        hA.pageNum]
      by_cases hq : A.page ⟨m, hmN⟩ = q
      · rw [if_pos (by rw [hq]), nextUse_of_eq hmN hq]
        rfl
      · have hq' : ((A.page ⟨m, hmN⟩ : ℕ) : Int) ≠ ((q : ℕ) : Int) := fun heq =>
          hq (Fin.ext (Int.natCast_inj.mp heq))
        have hlast : m + 1 = N := by omega
        rw [if_neg hq', if_pos hlast, nextUse_of_ne hmN hq, hlast, nextUse_end]
        rfl
  | succ r ih =>
      intro m k d hm
      have hmN : m < N := by omega
      rw [drop_finRange hmN, nextUseScan, hA.pageNum]
      by_cases hq : A.page ⟨m, hmN⟩ = q
      · rw [if_pos (by rw [hq]), nextUse_of_eq hmN hq]
        rfl
      · have hq' : ((A.page ⟨m, hmN⟩ : ℕ) : Int) ≠ ((q : ℕ) : Int) := fun heq =>
          hq (Fin.ext (Int.natCast_inj.mp heq))
        have hnot : ¬ m + 1 = N := by omega
        rw [if_neg hq', if_neg hnot, nextUse_of_ne hmN hq]
        exact ih (m + 1) k d (by omega)

theorem optimalDistance_eq (hA : Loaded A s) (hrep : Rep s ps) {i : Fin F}
    (hi : (i : ℕ) < ps.length) :
    optimalDistance s c i = distanceOf c 0 (nextUse A.page c ps[(i : ℕ)]) := by
  have hc := c.isLt
  rw [optimalDistance, hrep.frameNum_of_lt hi, hrep.pageNumforSearch hi]
  exact nextUseScan_drop hA _ (N - c - 1) c 0 0 (by omega)

theorem distanceOf_nonneg (c : Fin N) (q : Fin P) :
    0 ≤ (distanceOf c 0 (nextUse A.page c q)).1 := by
  cases h : nextUse A.page c q with
  | none => simp [distanceOf]
  | some j =>
      have := le_of_nextUse h
      simp only [distanceOf]
      omega

/-- The distance of frame `i` as the routine stores it. -/
abbrev dist (s : Sim F P N) (c : Fin N) (i : Fin F) : Int := (optimalDistance s c i).1

/-! ## The tie-break -/

/-- The queue holds `l` from slot 0 on, or is empty. -/
def Unrotated (s : Sim F P N) (l : List ℕ) : Prop :=
  (l = [] ∧ s.pageQueue.front = -1 ∧ s.pageQueue.rear = -1) ∨
    HoldsFrom 0 s.pageQueue (l.map fun i : ℕ => (i : Int))

theorem Unrotated.queued (h : Unrotated s l) : Queued s l := by
  rcases h with ⟨rfl, hf, hr⟩ | h
  · exact Or.inl ⟨rfl, hf, hr⟩
  · exact h.holds

theorem Unrotated.of_pageQueue {t : Sim F P N} (h : Unrotated s l)
    (hq : t.pageQueue = s.pageQueue) : Unrotated t l := by
  unfold Unrotated
  rw [hq]
  exact h

theorem Unrotated.holdsFrom (h : Unrotated s l) (hl : l ≠ []) :
    HoldsFrom 0 s.pageQueue (l.map fun i : ℕ => (i : Int)) :=
  h.resolve_left fun hnil => hl hnil.1

theorem Unrotated.enqueue (h : Unrotated s l) (hlt : l.length < F) (v : ℕ) :
    ∃ q, s.enqueue (v : Int) = some { s with pageQueue := q } ∧
      Unrotated { s with pageQueue := q } (l ++ [v]) := by
  rcases h with ⟨rfl, hf, hr⟩ | h
  · obtain ⟨q, hq, hholds⟩ := enqueue_of_empty (by omega) hf hr (v : Int)
    exact ⟨q, by simp [Sim.enqueue, hq], Or.inr hholds⟩
  · obtain ⟨q, hq, hholds⟩ := h.enqueue (by simpa using hlt) (v : Int)
    exact ⟨q, by simp [Sim.enqueue, hq], Or.inr (by simpa using hholds)⟩

/-- In an unrotated queue the slot found is the position in the queue. -/
theorem Unrotated.findPositionInQueue (h : Unrotated s l) {k : ℕ} (hk : k ∈ l) :
    Paging.findPositionInQueue s.pageQueue (k : Int) = some ((l.idxOf k : ℕ) : Int) := by
  have hholds := h.holdsFrom (List.ne_nil_of_mem hk)
  have hmem : (k : Int) ∈ l.map fun i : ℕ => (i : Int) := List.mem_map.mpr ⟨k, hk, rfl⟩
  have hidx : (l.map fun i : ℕ => (i : Int)).idxOf (k : Int) = l.idxOf k :=
    idxOf_map (g := fun i : ℕ => (i : Int)) Int.ofNat_injective k l
  have hlt : l.idxOf k < F := by
    have := hholds.fits
    rw [List.length_map] at this
    exact lt_of_lt_of_le (List.idxOf_lt_length_of_mem hk) this
  rw [hholds.findPositionInQueue, if_pos hmem, hidx, slot, Nat.zero_add,
    Nat.mod_eq_of_lt hlt]

/-- State of the tie-break after the frames `seen`: nothing found yet, or the
frame first in the queue among those that are not used again. -/
def FirstOut (l : List ℕ) (d : Fin F → Int) (seen : List (Fin F)) (acc : Int × Int) :
    Prop :=
  (acc = (-1, -1) ∧ ∀ k ∈ seen, d k ≠ 5000) ∨
    ∃ f ∈ seen, d f = 5000 ∧
      acc = (((l.idxOf (f : ℕ) : ℕ) : Int), ((f : ℕ) : Int)) ∧
      ∀ k ∈ seen, d k = 5000 → l.idxOf (f : ℕ) ≤ l.idxOf (k : ℕ)

theorem firstOutTurn_spec (h : Unrotated s l) (hl : l.Perm (List.range F))
    {d : Fin F → Int} {seen : List (Fin F)} {acc : Int × Int} (hacc : FirstOut l d seen acc)
    (k : Fin F) :
    ∃ acc', firstOutTurn s.pageQueue d acc k = some acc' ∧
      FirstOut l d (seen ++ [k]) acc' := by
  have hk : (k : ℕ) ∈ l := by
    rw [hl.mem_iff, List.mem_range]
    exact k.isLt
  by_cases hd : d k = 5000
  · have hpos : ((l.idxOf (k : ℕ) : ℕ) : Int) ≠ -1 := by omega
    simp only [firstOutTurn, if_pos hd, h.findPositionInQueue hk, Option.bind_eq_bind,
      Option.bind_some, if_neg hpos]
    refine ⟨_, rfl, Or.inr ?_⟩
    rcases hacc with ⟨rfl, hnone⟩ | ⟨f, hf, hdf, rfl, hmin⟩
    · refine ⟨k, by simp, hd, by simp, ?_⟩
      intro j hj hdj
      rcases List.mem_append.mp hj with hj | hj
      · exact absurd hdj (hnone j hj)
      · rw [List.mem_singleton.mp hj]
    · have hne : ((l.idxOf (f : ℕ) : ℕ) : Int) ≠ -1 := by omega
      simp only [if_neg hne]
      by_cases hlt : l.idxOf (k : ℕ) < l.idxOf (f : ℕ)
      · rw [if_pos (Int.ofNat_lt.mpr hlt)]
        refine ⟨k, by simp, hd, rfl, ?_⟩
        intro j hj hdj
        rcases List.mem_append.mp hj with hj | hj
        · exact le_trans hlt.le (hmin j hj hdj)
        · rw [List.mem_singleton.mp hj]
      · rw [if_neg (fun hc => hlt (Int.ofNat_lt.mp hc))]
        refine ⟨f, by simp [hf], hdf, rfl, ?_⟩
        intro j hj hdj
        rcases List.mem_append.mp hj with hj | hj
        · exact hmin j hj hdj
        · rw [List.mem_singleton.mp hj]
          exact Nat.le_of_not_lt hlt
  · refine ⟨acc, by rw [firstOutTurn, if_neg hd], ?_⟩
    rcases hacc with ⟨rfl, hnone⟩ | ⟨f, hf, hdf, hval, hmin⟩
    · refine Or.inl ⟨rfl, ?_⟩
      intro j hj
      rcases List.mem_append.mp hj with hj | hj
      · exact hnone j hj
      · rw [List.mem_singleton.mp hj]
        exact hd
    · refine Or.inr ⟨f, by simp [hf], hdf, hval, ?_⟩
      intro j hj hdj
      rcases List.mem_append.mp hj with hj | hj
      · exact hmin j hj hdj
      · rw [List.mem_singleton.mp hj] at hdj
        exact absurd hdj hd

theorem foldlM_firstOutTurn (h : Unrotated s l) (hl : l.Perm (List.range F))
    {d : Fin F → Int} :
    ∀ (is seen : List (Fin F)) (acc : Int × Int), FirstOut l d seen acc →
      ∃ acc', is.foldlM (firstOutTurn s.pageQueue d) acc = some acc' ∧
        FirstOut l d (seen ++ is) acc' := by
  intro is
  induction is with
  | nil => exact fun seen acc hacc => ⟨acc, rfl, by simpa using hacc⟩
  | cons i is ih =>
      intro seen acc hacc
      obtain ⟨acc₁, hturn, hacc₁⟩ := firstOutTurn_spec h hl hacc i
      obtain ⟨acc₂, hrest, hacc₂⟩ := ih _ acc₁ hacc₁
      refine ⟨acc₂, ?_, by simpa using hacc₂⟩
      rw [List.foldlM_cons, hturn]
      exact hrest

/-- The tie-break returns the frame first in the queue among those that are
not used again, provided there is one. -/
theorem firstOut_spec (h : Unrotated s l) (hl : l.Perm (List.range F)) {d : Fin F → Int}
    (hsome : ∃ k, d k = 5000) :
    ∃ f : Fin F, ((List.finRange F).foldlM (firstOutTurn s.pageQueue d) (-1, -1)).map
        Prod.snd = some ((f : ℕ) : Int) ∧ d f = 5000 ∧
      ∀ k, d k = 5000 → l.idxOf (f : ℕ) ≤ l.idxOf (k : ℕ) := by
  obtain ⟨acc, hrun, hacc⟩ := foldlM_firstOutTurn h hl (List.finRange F) [] (-1, -1)
    (Or.inl ⟨rfl, by simp⟩)
  rcases hacc with ⟨-, hnone⟩ | ⟨f, -, hdf, rfl, hmin⟩
  · obtain ⟨k, hk⟩ := hsome
    exact absurd hk (hnone k (by simp))
  · exact ⟨f, by simp [hrun], hdf, fun k hk => hmin k (by simp) hk⟩

/-! ## The victim -/

theorem dist_eq (hA : Loaded A s) (hrep : Rep s ps) {i : Fin F} (hi : (i : ℕ) < ps.length) :
    dist s c i = (distanceOf c 0 (nextUse A.page c ps[(i : ℕ)])).1 := by
  rw [dist, optimalDistance_eq hA hrep hi]

theorem dist_le (hN : N ≤ 5000) (hA : Loaded A s) (hrep : Rep s ps) {i : Fin F}
    (hi : (i : ℕ) < ps.length) : dist s c i ≤ 5000 := by
  rw [dist_eq hA hrep hi]
  cases nextUse A.page c ps[(i : ℕ)] with
  | none => simp [distanceOf]
  | some j =>
      have := j.isLt
      simp only [distanceOf]
      omega

/-- **The victim.** Its distance is the largest; when two frames are not used
again, it is the first of those in the queue. -/
theorem optimalVictim_spec (hF : 0 < F) (hN : N ≤ 5000) (hA : Loaded A s)
    (hrep : Rep s ps) (hfull : ps.length = F) (hq : Unrotated s l)
    (hl : l.Perm (List.range F)) (c : Fin N) :
    ∃ f : Fin F, optimalVictim s c = some ((f : ℕ) : Int) ∧
      (∀ i, dist s c i ≤ dist s c f) ∧
      (∀ i j, i ≠ j → dist s c i = 5000 → dist s c j = 5000 →
        ∀ k, dist s c k = 5000 → l.idxOf (f : ℕ) ≤ l.idxOf (k : ℕ)) := by
  have hbound : ∀ i : Fin F, (i : ℕ) < ps.length := fun i => hfull ▸ i.isLt
  have hcount : (List.finRange F).foldl (fun n i => n + (optimalDistance s c i).2) 0 =
      ∑ i, (optimalDistance s c i).2 := by
    rw [Fin.sum_univ_def, List.sum_eq_foldl, List.foldl_map]
  have hunused : ∀ i, (optimalDistance s c i).2 = if dist s c i = 5000 then 1 else 0 := by
    intro i
    rw [dist, optimalDistance_eq hA hrep (hbound i)]
    cases nextUse A.page c ps[(i : ℕ)] with
    | none => simp [distanceOf]
    | some j =>
        have := j.isLt
        have hne : ((j : ℕ) : Int) - ((c : ℕ) : Int) ≠ 5000 := by omega
        simp [distanceOf, hne]
  by_cases hmany : ∑ i, (optimalDistance s c i).2 > 1
  · have hsome : ∃ k, dist s c k = 5000 := by
      by_contra hnone
      have hzero : ∑ i, (optimalDistance s c i).2 = 0 := by
        refine Finset.sum_eq_zero fun i _ => ?_
        rw [hunused, if_neg (fun h => hnone ⟨i, h⟩)]
      omega
    obtain ⟨f, hrun, hdf, hmin⟩ := firstOut_spec hq hl hsome
    refine ⟨f, ?_, fun i => ?_, fun _ _ _ _ _ => hmin⟩
    · rw [optimalVictim]
      simp only [hcount, if_pos hmany]
      exact hrun
    · rw [hdf]
      exact dist_le hN hA hrep (hbound i)
  · obtain ⟨f, hscan, hmax⟩ := scanMax_spec hF (dist s c) (fun i => by
      rw [dist_eq hA hrep (hbound i)]
      exact distanceOf_nonneg c _)
    refine ⟨f, ?_, hmax, fun i j hij hi hj => absurd ?_ hmany⟩
    · rw [optimalVictim]
      simp only [hcount, if_neg hmany]
      exact congrArg (fun r : Int × Int => some r.2) hscan
    · calc 1 < ∑ k ∈ ({i, j} : Finset (Fin F)), (optimalDistance s c k).2 := by
            rw [Finset.sum_pair hij, hunused, hunused, if_pos hi, if_pos hj]
            omega
        _ ≤ ∑ k, (optimalDistance s c k).2 :=
            Finset.sum_le_sum_of_subset (Finset.subset_univ _)

/-- The rule of `optimalVictim_spec` leaves no choice: pages with a next use have
different ones, and the queue lists every frame once. -/
theorem optimalVictim_unique (hA : Loaded A s) (hrep : Rep s ps) (hfull : ps.length = F)
    (hl : l.Perm (List.range F)) {f g : Fin F} (hmax : ∀ i, dist s c i ≤ dist s c f)
    (hmax' : ∀ i, dist s c i ≤ dist s c g)
    (hfirst : ∀ i j, i ≠ j → dist s c i = 5000 → dist s c j = 5000 →
      ∀ k, dist s c k = 5000 → l.idxOf (f : ℕ) ≤ l.idxOf (k : ℕ))
    (hfirst' : ∀ i j, i ≠ j → dist s c i = 5000 → dist s c j = 5000 →
      ∀ k, dist s c k = 5000 → l.idxOf (g : ℕ) ≤ l.idxOf (k : ℕ)) : f = g := by
  by_contra hne
  have hbound : ∀ i : Fin F, (i : ℕ) < ps.length := fun i => hfull ▸ i.isLt
  have hdist : dist s c f = dist s c g := le_antisymm (hmax' f) (hmax g)
  by_cases hf : dist s c f = 5000
  · have hg : dist s c g = 5000 := hdist.symm.trans hf
    have heq := le_antisymm (hfirst f g hne hf hg g hg) (hfirst' f g hne hf hg f hf)
    have hmem : (f : ℕ) ∈ l := hl.mem_iff.mpr (List.mem_range.mpr f.isLt)
    exact hne (Fin.ext ((List.idxOf_inj hmem).mp heq))
  · rw [dist_eq hA hrep (hbound f), dist_eq hA hrep (hbound g)] at hdist
    rw [dist_eq hA hrep (hbound f)] at hf
    cases hi : nextUse A.page c ps[(f : ℕ)] with
    | none => exact hf (by rw [hi]; rfl)
    | some i =>
        cases hj : nextUse A.page c ps[(g : ℕ)] with
        | none =>
            rw [hi, hj] at hdist
            exact hf (by rw [hi]; exact hdist)
        | some j =>
            simp only [hi, hj, distanceOf] at hdist
            have hij : i = j := Fin.ext (by omega)
            have hpage : ps[(f : ℕ)] = ps[(g : ℕ)] := by
              rw [← eq_of_nextUse hi, ← eq_of_nextUse hj, hij]
            exact hne (Fin.ext (hrep.nodup.getElem_inj_iff.mp hpage))

/-- Two searches over the same distances and the same queue find the same frame. -/
theorem optimalVictim_congr (hF : 0 < F) (hN : N ≤ 5000) {B : References P N pageSize}
    {t : Sim F P N} {qs : List (Fin P)} (hA : Loaded A s) (hB : Loaded B t) (hrep : Rep s ps)
    (hrep' : Rep t qs) (hfull : ps.length = F) (hfull' : qs.length = F) (hq : Unrotated s l)
    (hq' : Unrotated t l) (hl : l.Perm (List.range F))
    (hdist : ∀ i : Fin F, dist t c i = dist s c i) :
    optimalVictim t c = optimalVictim s c := by
  obtain ⟨f, hf, hmax, hfirst⟩ := optimalVictim_spec hF hN hA hrep hfull hq hl c
  obtain ⟨g, hg, hmax', hfirst'⟩ := optimalVictim_spec hF hN hB hrep' hfull' hq' hl c
  simp only [hdist] at hmax' hfirst'
  rw [hf, hg, optimalVictim_unique hA hrep hfull hl hmax hmax' hfirst hfirst']

/-- A page of largest distance is not needed before all others are. -/
theorem farthest_of_dist (hN : N ≤ 5000) (hA : Loaded A s) (hrep : Rep s ps)
    (hfull : ps.length = F) (fresh : A.page c ∉ ps) {f : Fin F}
    (hf : (f : ℕ) < ps.length) (hmax : ∀ i, dist s c i ≤ dist s c f) (t : ℕ)
    (hused : ps[(f : ℕ)] ∈ upcoming A.page (c + 1) t) :
    ∀ q ∈ ps, q ∈ upcoming A.page (c + 1) t := by
  have hnext : ∀ q ∈ ps, nextUse A.page c q = nextUse A.page (c + 1) q := fun q hq =>
    nextUse_of_ne c.isLt (fun heq => fresh (heq ▸ hq))
  obtain ⟨jf, huse, hjt⟩ := mem_upcoming_iff_nextUse.mp hused
  intro q hq
  obtain ⟨i, hi, rfl⟩ := List.getElem_of_mem hq
  have hle := hmax ⟨i, by omega⟩
  rw [dist_eq hA hrep hi, dist_eq hA hrep hf, hnext _ (List.getElem_mem hi),
    hnext _ (List.getElem_mem hf), huse] at hle
  rw [mem_upcoming_iff_nextUse]
  cases hi' : nextUse A.page (c + 1) ps[i] with
  | none =>
      have := jf.isLt
      simp only [hi', distanceOf] at hle
      omega
  | some j =>
      simp only [hi', distanceOf] at hle
      exact ⟨j, rfl, by omega⟩

/-! ## The routine -/

theorem optimal_hit (hA : Loaded A s) (hrep : Rep s ps) (hmem : A.page c ∈ ps) :
    ∃ f s', replacePageOptimal s c pageSize = some (1, s') ∧
      Served A c s ps true f s' ps ∧ s'.pageQueue = s.pageQueue := by
  obtain ⟨i, hi, hit⟩ := hrep.hitFrame_of_mem (hA.pageNum c) hmem
  refine ⟨i, _, ?_, served_hit hrep hmem hi, rfl⟩
  simp only [replacePageOptimal, hA.virtualAddress, A.tdiv_eq_page, A.tmod_eq_offset,
    index_val, Option.bind_eq_bind, Option.bind_some, hit]

theorem optimal_load (hA : Loaded A s) (hrep : Rep s ps) (hq : Unrotated s l)
    (hl : l.length = ps.length) (fresh : A.page c ∉ ps) (hlt : ps.length < F) :
    ∃ s', replacePageOptimal s c pageSize = some (0, s') ∧
      Served A c s ps false ⟨ps.length, hlt⟩ s' (ps ++ [A.page c]) ∧
      Unrotated s' (l ++ [ps.length]) := by
  have miss := hrep.hitFrame_of_notMem (hA.pageNum c) fresh
  have free := hrep.freeFrame_of_lt hlt
  have hserved := served_load hA hrep fresh hlt
  obtain ⟨q, hrun, hq'⟩ := Unrotated.enqueue (hq.of_pageQueue (t := s.install c (A.page c)
    ⟨ps.length, hlt⟩ ((ps.length : ℕ) * pageSize + A.offset c)) rfl) (by omega) ps.length
  refine ⟨_, ?_, hserved.withQueue q, hq'⟩
  simp only [replacePageOptimal, hA.virtualAddress, A.tdiv_eq_page, A.tmod_eq_offset,
    index_val, Option.bind_eq_bind, Option.bind_some, miss, free, hrun]

/-- Removing a frame from the queue and appending it again. -/
theorem Unrotated.requeue (hF : 3 ≤ F) (h : Unrotated s l) (hl : l.length = F) {v : ℕ}
    (hv : v ∈ l) :
    ∃ q q', s.removeFrameFromQueue (v : Int) = some { s with pageQueue := q } ∧
      Sim.enqueue { s with pageQueue := q } (v : Int) = some { s with pageQueue := q' } ∧
      Unrotated { s with pageQueue := q' } (l.erase v ++ [v]) := by
  have hholds := h.holdsFrom (List.ne_nil_of_mem hv)
  obtain ⟨q, hrem, hq⟩ := hholds.removeFrameFromQueue (v := (v : Int))
    (List.mem_map.mpr ⟨v, hv, rfl⟩) (by rw [List.length_map]; omega)
  rw [← List.map_erase (f := fun i : ℕ => (i : Int)) Int.ofNat_injective] at hq
  have hun : Unrotated { s with pageQueue := q } (l.erase v) := Or.inr hq
  have hlen : (l.erase v).length < F := by
    rw [List.length_erase_of_mem hv]
    omega
  obtain ⟨q', hrun, hq'⟩ := hun.enqueue hlen v
  exact ⟨q, q', by simp [Sim.removeFrameFromQueue, hrem], hrun, hq'⟩

theorem optimal_replace (hF : 3 ≤ F) (hN : N ≤ 5000) (hA : Loaded A s) (hrep : Rep s ps)
    (hq : Unrotated s l) (hl : l.Perm (List.range F)) (fresh : A.page c ∉ ps)
    (hfull : ps.length = F) :
    ∃ f s', replacePageOptimal s c pageSize = some (0, s') ∧
      Served A c s ps false f s' (ps.set f (A.page c)) ∧
      Unrotated s' (l.erase f ++ [(f : ℕ)]) ∧
      optimalVictim s c = some ((f : ℕ) : Int) := by
  have miss := hrep.hitFrame_of_notMem (hA.pageNum c) fresh
  have free := hrep.freeFrame_of_full hfull
  obtain ⟨f, hvictim, -, -⟩ := optimalVictim_spec (by omega) hN hA hrep hfull hq hl c
  have hf : (f : ℕ) < ps.length := hfull ▸ f.isLt
  have hfl : (f : ℕ) ∈ l := by
    rw [hl.mem_iff, List.mem_range]
    exact f.isLt
  -- the state between the table writes and the queue update
  let s₁ : Sim F P N := s.install c (A.page c) f ((f : ℕ) * pageSize + A.offset c)
  obtain ⟨q, q', hrem, henq, hq'⟩ := Unrotated.requeue hF
    (hq.of_pageQueue (t := s₁) rfl) (by simpa using hl.length_eq) hfl
  let s₂ : Sim F P N :=
    { s₁ with
      pageQueue := q'
      pageTable := clearOthers s₁.pageTable (s₁.frames f).frameNum ((A.page c : ℕ) : Int) }
  have hserved : Served A c s ps false f s₂ (ps.set f (A.page c)) :=
    served_install_clear hA hrep fresh hfull hf rfl q'
  refine ⟨f, s₂, ?_, hserved, hq', hvictim⟩
  simp only [replacePageOptimal, hA.virtualAddress, A.tdiv_eq_page, A.tmod_eq_offset,
    index_val, Option.bind_eq_bind, Option.bind_some, miss, free, hvictim]
  rw [hrem]
  simp only [Option.bind_some]
  rw [henq]
  rfl

/-- **Optimal serves every reference**, and on a fault without a free frame
gives up a page that is not needed before all the others are. -/
theorem optimal_serves (hF : 3 ≤ F) (hN : N ≤ 5000) (hA : Loaded A s) (hrep : Rep s ps)
    (hq : Unrotated s l) (hl : l.Perm (List.range ps.length)) (c : Fin N) :
    ∃ hit f s' ps', replacePageOptimal s c pageSize = some (if hit then 1 else 0, s') ∧
      Served A c s ps hit f s' ps' ∧
      Unrotated s' (if hit then l else l.erase f ++ [(f : ℕ)]) ∧
      (hit = false → ps.length = F → optimalVictim s c = some ((f : ℕ) : Int)) := by
  have hlen : l.length = ps.length := by simpa using hl.length_eq
  by_cases hmem : A.page c ∈ ps
  · obtain ⟨f, s', hrun, hserved, hq'⟩ := optimal_hit hA hrep hmem
    exact ⟨true, f, s', ps, hrun, hserved, hq.of_pageQueue hq', by simp⟩
  · rcases Nat.lt_or_ge ps.length F with hlt | hge
    · obtain ⟨s', hrun, hserved, hq'⟩ := optimal_load hA hrep hq hlen hmem hlt
      have hnot : ps.length ∉ l := by
        rw [hl.mem_iff]
        simp
      refine ⟨false, _, s', _, hrun, hserved, ?_, fun _ hfull => ?_⟩
      · simpa [List.erase_of_not_mem hnot] using hq'
      · omega
    · have hfull : ps.length = F := le_antisymm hrep.fits hge
      rw [hfull] at hl
      obtain ⟨f, s', hrun, hserved, hq', hvictim⟩ :=
        optimal_replace hF hN hA hrep hq hl hmem hfull
      exact ⟨false, f, s', _, hrun, hserved, hq', fun _ _ => hvictim⟩

end OS2023.Paging
