import OS2023.Paging.Demand
import OS2023.Paging.Inclusion
import OS2023.Paging.Optimality

/-!
# Which page a policy gives up

The victim rules of Optimal and LRU, stated in terms of the reference string: of
the resident pages, Optimal gives up one that is not needed again for the
longest time, and LRU the one not used for the longest time.
-/

namespace OS2023.Paging

open OS2023.Lib

variable {F P N : ℕ} {pageSize : Int} {A : References P N pageSize} {c : Fin N}
  {alg : Algorithm} {m : MainState F P N} {s s' : Sim F P N} {ps ps' : List (Fin P)}
  {hit : Bool} {f : Fin F}

/-- A fault with all frames occupied replaces the page in its frame. -/
theorem Turn.replaces (h : Turn alg A c m ps hit f s' ps')
    (hfault : Paging.resultAt alg F P pageSize A.addr c = some 0)
    (hall : ∀ i, (m.sim.frames i).isOccupied ≠ 0) :
    hit = false ∧ ps.length = F ∧ ∃ v, ps[(f : ℕ)]? = some v ∧
      residentPages s' = insert (A.page c) ((residentPages m.sim).erase v) := by
  have hmiss : hit = false := by
    rw [h.resultAt_eq_zero_iff, ← h.served.access.hit_iff] at hfault
    exact Bool.eq_false_iff.mpr hfault
  have hfull := h.steady.rep.length_eq_of_occupied hall
  have hlt : (f : ℕ) < ps.length := hfull.symm ▸ f.isLt
  refine ⟨hmiss, hfull, ps[(f : ℕ)], List.getElem?_eq_getElem hlt, ?_⟩
  rw [h.steady.rep.residentPages, h.served.rep.residentPages]
  exact h.served.access.toFinset_of_full hmiss hfull h.steady.rep.nodup hlt

/-! ## Optimal -/

/-- The sentinel stands for a page that is not used again. -/
theorem dist_eq_sentinel_iff (hN : N ≤ 5000) (hA : Loaded A s) (hrep : Rep s ps) {i : Fin F}
    {q : Fin P} (hq : ps[(i : ℕ)]? = some q) (fresh : A.page c ∉ ps) :
    dist s c i = 5000 ↔ nextUse A.page (c + 1) q = none := by
  obtain ⟨hi, rfl⟩ := List.getElem?_eq_some_iff.mp hq
  have hne : A.page c ≠ ps[(i : ℕ)] := fun heq => fresh (heq ▸ List.getElem_mem hi)
  rw [dist_eq hA hrep hi, nextUse_of_ne c.isLt hne]
  cases nextUse A.page (c + 1) ps[(i : ℕ)] with
  | none => simp [distanceOf]
  | some j =>
      have := j.isLt
      simp only [distanceOf, reduceCtorEq, iff_false]
      omega

/-- **Optimal's victim.** On a fault with all frames occupied the page given up is
one whose next reference is farthest: if it has one, every resident page has one
that is not later. If two resident pages are not referenced again, the page
given up is the one loaded earliest among those that are not. -/
theorem optimal_victim (hF : 3 ≤ F) (A : Addresses P numAddresses pageSize)
    (c : Fin numAddresses) :
    ∃ m m' : MainState F P numAddresses, runFor .optimal F P pageSize A.addr c = some m ∧
      runFor .optimal F P pageSize A.addr (c + 1) = some m' ∧
      (resultAt .optimal F P pageSize A.addr c = some 0 →
        (∀ i, (m.sim.frames i).isOccupied ≠ 0) →
        ∃ v ∈ residentPages m.sim,
          residentPages m'.sim = insert (A.page c) ((residentPages m.sim).erase v) ∧
          (∀ j, nextUse A.page (c + 1) v = some j → ∀ q ∈ residentPages m.sim,
            ∃ i, nextUse A.page (c + 1) q = some i ∧ i ≤ j) ∧
          (∀ p ∈ residentPages m.sim, ∀ q ∈ residentPages m.sim, p ≠ q →
            nextUse A.page (c + 1) p = none → nextUse A.page (c + 1) q = none →
            nextUse A.page (c + 1) v = none ∧
            ∃ jv, LastUse (loadAt .optimal F A.toReferences) c (some v) jv ∧
              ∀ r ∈ residentPages m.sim, r ≠ v → nextUse A.page (c + 1) r = none →
                ∃ j, LastUse (loadAt .optimal F A.toReferences) c (some r) j ∧ jv < j)) := by
  obtain ⟨m, ps, hit, f, s', ps', l, h, horder, hvictim⟩ :=
    optimal_turn hF numAddresses_le A.toReferences c
  refine ⟨m, _, h.runs, h.next, fun hfault hall => ?_⟩
  obtain ⟨hmiss, hfull, v, hv, hres⟩ := h.replaces hfault hall
  obtain ⟨hl, hmax, hfirst⟩ := hvictim hmiss hfull
  have fresh := h.served.access.fresh_of_miss hmiss
  have hsentinel : ∀ {i : Fin F} {q : Fin P}, ps[(i : ℕ)]? = some q →
      (dist m.sim c i = 5000 ↔ nextUse A.page (c + 1) q = none) := fun hq =>
    dist_eq_sentinel_iff numAddresses_le h.steady.loaded h.steady.rep hq fresh
  refine ⟨v, h.steady.rep.mem_residentPages.mpr (List.mem_of_getElem? hv), hres,
    fun j hj q hq => ?_, fun p hp q hq hpq hpnone hqnone => ?_⟩
  · obtain ⟨hlt, rfl⟩ := List.getElem?_eq_some_iff.mp hv
    have hsoon := farthest_of_dist numAddresses_le h.steady.loaded h.steady.rep hfull fresh hlt
      hmax (j + 1) (mem_upcoming_iff_nextUse.mpr ⟨j, hj, Nat.lt_succ_self _⟩) q
      (h.steady.rep.mem_residentPages.mp hq)
    obtain ⟨i, hi, hij⟩ := mem_upcoming_iff_nextUse.mp hsoon
    exact ⟨i, hi, Fin.le_def.mpr (Nat.le_of_lt_succ hij)⟩
  · obtain ⟨a, ha⟩ := h.steady.rep.exists_frame hp
    obtain ⟨b, hb⟩ := h.steady.rep.exists_frame hq
    have hab : a ≠ b := by
      rintro rfl
      exact hpq (Option.some.inj (ha.symm.trans hb))
    have htie := hfirst a b hab ((hsentinel ha).mpr hpnone) ((hsentinel hb).mpr hqnone)
    have hlast : dist m.sim c f = 5000 := by
      refine le_antisymm (dist_le numAddresses_le h.steady.loaded h.steady.rep
        (hfull.symm ▸ f.isLt)) ?_
      rw [← (hsentinel ha).mpr hpnone]
      exact hmax a
    obtain ⟨jv, hjv⟩ := horder.loaded v (List.mem_of_getElem? hv)
    refine ⟨(hsentinel hv).mp hlast, jv, hjv, fun r hr hrv hrnone => ?_⟩
    obtain ⟨k, hk⟩ := h.steady.rep.exists_frame hr
    obtain ⟨j, hj⟩ := horder.loaded r (List.mem_of_getElem? hk)
    have hkl : (k : ℕ) ∈ l := hl.mem_iff.mpr (List.mem_range.mpr k.isLt)
    have hfl : (f : ℕ) ∈ l := hl.mem_iff.mpr (List.mem_range.mpr f.isLt)
    exact ⟨j, hj, horder.lt_of_idxOf_le hfl hkl (htie k ((hsentinel hk).mpr hrnone)) hv hk
      hrv.symm hjv hj⟩

theorem optimal_victim_roundRobin :
    ∃ (m m' : MainState 3 4 numAddresses) (v : Fin 4),
      runFor .optimal 3 4 1024 roundRobin.addr 3 = some m ∧
      runFor .optimal 3 4 1024 roundRobin.addr 4 = some m' ∧ v ∈ residentPages m.sim ∧
      residentPages m'.sim =
        insert (roundRobin.page ⟨3, by decide⟩) ((residentPages m.sim).erase v) := by
  obtain ⟨m, m', hm, hm', hvictim⟩ := optimal_victim (F := 3) le_rfl roundRobin ⟨3, by decide⟩
  obtain ⟨m₀, ps, hit, f, s', ps', h⟩ :=
    run_turns (F := 3) le_rfl numAddresses_le roundRobin.toReferences .optimal ⟨3, by decide⟩
  obtain rfl : m₀ = m := Option.some.inj (h.runs.symm.trans hm)
  obtain ⟨v, hv, hres, -⟩ := hvictim (h.resultAt_of_new roundRobin_referenced.2)
    (h.steady.isOccupied roundRobin_referenced.1)
  exact ⟨m₀, m', v, hm, hm', hv, hres⟩

/-! ## LRU -/

/-- Pages in different frames have different last uses, hence different distances. -/
theorem lruDistance_injective (hA : Loaded A s) (hrep : Rep s ps) (hseen : Seen A c ps)
    (fresh : A.page c ∉ ps) (hfull : ps.length = F) :
    Function.Injective (lruDistance s c) := by
  intro i j hij
  have hi : (i : ℕ) < ps.length := hfull.symm ▸ i.isLt
  have hj : (j : ℕ) < ps.length := hfull.symm ▸ j.isLt
  obtain ⟨a, ha, hda⟩ := lruDistance_eq hA hrep hseen fresh hi
  obtain ⟨b, hb, hdb⟩ := lruDistance_eq hA hrep hseen fresh hj
  have hab : a = b := Fin.ext (by omega)
  have hpage : ps[(i : ℕ)] = ps[(j : ℕ)] := by
    rw [← ha.eq, ← hb.eq, hab]
  exact Fin.ext (hrep.nodup.getElem_inj_iff.mp hpage)

/-- **LRU's victim.** On a fault with all frames occupied every resident page has
been referenced before, the distances of the frames are different and measure
the time since the latest reference, and the page given up is the one resident
page whose latest reference is oldest. -/
theorem lru_victim (hF : 0 < F) (A : Addresses P N pageSize) (c : Fin N) :
    ∃ m m' : MainState F P N, runFor .lru F P pageSize A.addr c = some m ∧
      runFor .lru F P pageSize A.addr (c + 1) = some m' ∧
      (resultAt .lru F P pageSize A.addr c = some 0 →
        (∀ i, (m.sim.frames i).isOccupied ≠ 0) →
        (∀ q ∈ residentPages m.sim, ∃ j : Fin N, j < c ∧ A.page j = q) ∧
        Function.Injective (lruDistance m.sim c) ∧
        (∀ i, ∃ q j, MapsTo m.sim q i ∧ LastUse A.page c q j ∧
          lruDistance m.sim c i = ((c : ℕ) : Int) - (j : ℕ)) ∧
        ∃ v jv, v ∈ residentPages m.sim ∧
          residentPages m'.sim = insert (A.page c) ((residentPages m.sim).erase v) ∧
          LastUse A.page c v jv ∧
          ∀ q ∈ residentPages m.sim, q ≠ v → ∀ j, LastUse A.page c q j → jv < j) := by
  obtain ⟨m, ps, hrun, hsteady, -⟩ := lru_recent hF A.toReferences c c.isLt.le
  obtain ⟨hit, f, s', ps', hpage, hserved, hvictim⟩ :=
    lru_serves hF hsteady.loaded hsteady.rep c hsteady.seen
  have h : Turn .lru A.toReferences c m ps hit f s' ps' := ⟨hrun, hsteady, hpage, hserved⟩
  refine ⟨m, _, h.runs, h.next, fun hfault hall => ?_⟩
  obtain ⟨hmiss, hfull, v, hv, hres⟩ := h.replaces hfault hall
  have fresh := hserved.access.fresh_of_miss hmiss
  refine ⟨fun q hq => hsteady.seen q (hsteady.rep.mem_residentPages.mp hq),
    lruDistance_injective hsteady.loaded hsteady.rep hsteady.seen fresh hfull, fun i => ?_, ?_⟩
  · have hi : (i : ℕ) < ps.length := hfull.symm ▸ i.isLt
    obtain ⟨j, hj, hdist⟩ :=
      lruDistance_eq hsteady.loaded hsteady.rep hsteady.seen fresh hi
    refine ⟨ps[(i : ℕ)], j, ?_, hj, hdist⟩
    exact hsteady.rep.mapsTo (List.getElem_mem hi) (hsteady.rep.nodup.idxOf_getElem _ hi)
  · obtain ⟨-, v', jv, hv', hjv, hold⟩ := hvictim hmiss hfull
    obtain rfl : v = v' := Option.some.inj (hv.symm.trans hv')
    refine ⟨v, jv, hsteady.rep.mem_residentPages.mpr (List.mem_of_getElem? hv), hres, hjv,
      fun q hq hne j hj => ?_⟩
    refine lt_of_le_of_ne (hold q (hsteady.rep.mem_residentPages.mp hq) j hj) ?_
    rintro rfl
    exact hne (hj.eq.symm.trans hjv.eq)

theorem lru_victim_roundRobin :
    ∃ (m m' : MainState 3 4 numAddresses) (v : Fin 4),
      runFor .lru 3 4 1024 roundRobin.addr 3 = some m ∧
      runFor .lru 3 4 1024 roundRobin.addr 4 = some m' ∧
      Function.Injective (lruDistance m.sim ⟨3, by decide⟩) ∧ v ∈ residentPages m.sim ∧
      residentPages m'.sim =
        insert (roundRobin.page ⟨3, by decide⟩) ((residentPages m.sim).erase v) := by
  obtain ⟨m, m', hm, hm', hvictim⟩ := lru_victim (F := 3) (by decide) roundRobin ⟨3, by decide⟩
  obtain ⟨m₀, ps, hit, f, s', ps', h⟩ :=
    lru_turn (F := 3) (by decide) roundRobin.toReferences ⟨3, by decide⟩
  obtain rfl : m₀ = m := Option.some.inj (h.runs.symm.trans hm)
  obtain ⟨-, hdistinct, -, v, -, hv, hres, -⟩ :=
    hvictim (h.resultAt_of_new roundRobin_referenced.2)
      (h.steady.isOccupied roundRobin_referenced.1)
  exact ⟨m₀, m', v, hm, hm', hdistinct, hv, hres⟩

end OS2023.Paging
