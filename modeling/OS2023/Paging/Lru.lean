import OS2023.Lib.Recency
import OS2023.Paging.Service

/-!
# LRU, one reference

`replacePageLRU` serves a reference under demand paging and gives up the frame
whose page was used longest ago. It keeps no history of its own: it looks back
through the address array. What makes this right is a fact about runs, that
every resident page has been referenced before; the routine is stated here
under that fact. The write of 5000 at index 4999 is always overwritten.
-/

namespace OS2023.Paging

open OS2023.Lib

variable {F P N : ℕ} {pageSize : Int} {A : References P N pageSize} {c : Fin N}
  {s : Sim F P N} {ps : List (Fin P)}

/-- Every resident page occurs among the first `k` references. -/
def Seen (A : References P N pageSize) (k : ℕ) (ps : List (Fin P)) : Prop :=
  ∀ q ∈ ps, ∃ j : Fin N, (j : ℕ) < k ∧ A.page j = q

/-- The look-back over the first `m` addresses ends at the last use. -/
theorem lastUseScan_take (hA : Loaded A s) (q : Fin P) :
    ∀ m ≤ N, ∀ d : Int, (∃ j : Fin N, (j : ℕ) < m ∧ A.page j = q) →
      ∃ j, LastUse A.page m q j ∧
        lastUseScan s c ((q : ℕ) : Int) ((List.finRange N).take m).reverse d =
          ((c : ℕ) : Int) - (j : ℕ) := by
  intro m
  induction m with
  | zero =>
      rintro - d ⟨j, hj, -⟩
      omega
  | succ m ih =>
      rintro hm d ⟨j, hj, hjq⟩
      rw [take_succ_finRange hm, List.reverse_append, List.reverse_singleton,
        List.singleton_append, lastUseScan, hA.pageNum]
      by_cases hq : A.page ⟨m, hm⟩ = q
      · refine ⟨⟨m, hm⟩, ⟨Nat.lt_succ_self m, hq, fun i hi him => ?_⟩, ?_⟩
        · have := Fin.lt_def.mp hi
          simp only at this
          omega
        · rw [if_pos (by rw [hq])]
      · have hq' : ((A.page ⟨m, hm⟩ : ℕ) : Int) ≠ ((q : ℕ) : Int) := fun heq =>
          hq (Fin.ext (Int.natCast_inj.mp heq))
        have hjm : (j : ℕ) < m := by
          rcases Nat.lt_or_ge j m with h | h
          · exact h
          · have hjm' : j = ⟨m, hm⟩ := Fin.ext (by show (j : ℕ) = m; omega)
            exact absurd (hjm' ▸ hjq) hq
        rw [if_neg hq']
        split
        · obtain ⟨k, hk, hrun⟩ := ih (by omega) 5000 ⟨j, hjm, hjq⟩
          exact ⟨k, hk.succ hm hq, hrun⟩
        · obtain ⟨k, hk, hrun⟩ := ih (by omega) d ⟨j, hjm, hjq⟩
          exact ⟨k, hk.succ hm hq, hrun⟩

/-- The distance stored for a frame is measured to the last use of its page. -/
theorem lruDistance_eq (hA : Loaded A s) (hrep : Rep s ps) (hseen : Seen A c ps)
    (fresh : A.page c ∉ ps) {i : Fin F} (hi : (i : ℕ) < ps.length) :
    ∃ j, LastUse A.page c ps[(i : ℕ)] j ∧
      lruDistance s c i = ((c : ℕ) : Int) - (j : ℕ) := by
  have hmem := List.getElem_mem hi
  obtain ⟨j, hj, hjq⟩ := hseen _ hmem
  obtain ⟨k, hk, hrun⟩ := lastUseScan_take (c := c) hA ps[(i : ℕ)] (c + 1) c.isLt 0
    ⟨j, by omega, hjq⟩
  refine ⟨k, hk.of_succ c.isLt (fun heq => fresh (heq ▸ hmem)), ?_⟩
  rw [lruDistance, hrep.frameNum_of_lt hi, hrep.pageNumforSearch hi]
  exact hrun

/-- **The victim.** The frame of largest distance holds the page whose last use
lies furthest back. -/
theorem lruVictim_spec (hF : 0 < F) (hA : Loaded A s) (hrep : Rep s ps)
    (hseen : Seen A c ps) (fresh : A.page c ∉ ps) (hfull : ps.length = F) :
    ∃ f : Fin F, (scanMax (lruDistance s c)).2 = ((f : ℕ) : Int) ∧
      OldestFrame A.page c ps f := by
  have hbound : ∀ i : Fin F, (i : ℕ) < ps.length := fun i => hfull.symm ▸ i.isLt
  obtain ⟨f, hscan, hmax⟩ := scanMax_spec hF (lruDistance s c) (fun i => by
    obtain ⟨k, hk, hrun⟩ := lruDistance_eq hA hrep hseen fresh (hbound i)
    have := hk.lt
    omega)
  obtain ⟨jf, hjf, hdf⟩ := lruDistance_eq hA hrep hseen fresh (hbound f)
  refine ⟨f, by rw [hscan], ps[(f : ℕ)], jf, List.getElem?_eq_getElem (hbound f), hjf, ?_⟩
  intro q hq j hj
  obtain ⟨i, hi, rfl⟩ := List.getElem_of_mem hq
  obtain ⟨k, hk, hdk⟩ := lruDistance_eq (i := ⟨i, by omega⟩) hA hrep hseen fresh hi
  have hle := hmax ⟨i, by omega⟩
  rw [hdk, hdf] at hle
  rw [hj.unique hk]
  exact Fin.le_def.mpr (by omega)

/-! ## The routine -/

theorem lru_hit (hA : Loaded A s) (hrep : Rep s ps) (hmem : A.page c ∈ ps) :
    ∃ f s', replacePageLRU s c pageSize = some (1, s') ∧
      Served A c s ps true f s' ps := by
  obtain ⟨i, hi, hit⟩ := hrep.hitFrame_of_mem (hA.pageNum c) hmem
  refine ⟨i, _, ?_, served_hit hrep hmem hi⟩
  simp only [replacePageLRU, hA.virtualAddress, A.tdiv_eq_page, A.tmod_eq_offset,
    index_val, Option.bind_eq_bind, Option.bind_some, hit]

theorem lru_load (hA : Loaded A s) (hrep : Rep s ps) (fresh : A.page c ∉ ps)
    (hlt : ps.length < F) :
    ∃ s', replacePageLRU s c pageSize = some (0, s') ∧
      Served A c s ps false ⟨ps.length, hlt⟩ s' (ps ++ [A.page c]) := by
  have miss := hrep.hitFrame_of_notMem (hA.pageNum c) fresh
  have free := hrep.freeFrame_of_lt hlt
  refine ⟨_, ?_, served_load hA hrep fresh hlt⟩
  simp only [replacePageLRU, hA.virtualAddress, A.tdiv_eq_page, A.tmod_eq_offset,
    index_val, Option.bind_eq_bind, Option.bind_some, miss, free]

theorem lru_replace (hF : 0 < F) (hA : Loaded A s) (hrep : Rep s ps)
    (hseen : Seen A c ps) (fresh : A.page c ∉ ps) (hfull : ps.length = F) :
    ∃ f s', replacePageLRU s c pageSize = some (0, s') ∧
      Served A c s ps false f s' (ps.set f (A.page c)) ∧
      victimFrameNum .lru s c = some ((f : ℕ) : Int) ∧ OldestFrame A.page c ps f := by
  have miss := hrep.hitFrame_of_notMem (hA.pageNum c) fresh
  have free := hrep.freeFrame_of_full hfull
  obtain ⟨f, hscan, holdest⟩ := lruVictim_spec hF hA hrep hseen fresh hfull
  have hf : (f : ℕ) < ps.length := hfull.symm ▸ f.isLt
  let s₁ : Sim F P N := s.install c (A.page c) f ((f : ℕ) * pageSize + A.offset c)
  let s₂ : Sim F P N :=
    { s₁ with
      pageTable := clearOthers s₁.pageTable (s₁.frames f).frameNum ((A.page c : ℕ) : Int) }
  have hserved : Served A c s ps false f s₂ (ps.set f (A.page c)) :=
    served_install_clear hA hrep fresh hfull hf rfl s₁.pageQueue
  refine ⟨f, s₂, ?_, hserved, congrArg some hscan, holdest⟩
  simp only [replacePageLRU, hA.virtualAddress, A.tdiv_eq_page, A.tmod_eq_offset,
    index_val, Option.bind_eq_bind, Option.bind_some, miss, free, hscan]
  rfl

/-- **LRU serves every reference**, and on a fault without a free frame gives
up the page used longest ago. -/
theorem lru_serves (hF : 0 < F) (hA : Loaded A s) (hrep : Rep s ps) (c : Fin N)
    (hseen : Seen A c ps) :
    ∃ hit f s' ps', replacePageLRU s c pageSize = some (if hit then 1 else 0, s') ∧
      Served A c s ps hit f s' ps' ∧
      (hit = false → ps.length = F → victimFrameNum .lru s c = some ((f : ℕ) : Int) ∧
        OldestFrame A.page c ps f) := by
  by_cases hmem : A.page c ∈ ps
  · obtain ⟨f, s', hrun, hserved⟩ := lru_hit hA hrep hmem
    exact ⟨true, f, s', ps, hrun, hserved, by simp⟩
  · rcases Nat.lt_or_ge ps.length F with hlt | hge
    · obtain ⟨s', hrun, hserved⟩ := lru_load hA hrep hmem hlt
      refine ⟨false, _, s', _, hrun, hserved, fun _ hfull => ?_⟩
      omega
    · have hfull : ps.length = F := le_antisymm hrep.fits hge
      obtain ⟨f, s', hrun, hserved, hvictim⟩ := lru_replace hF hA hrep hseen hmem hfull
      exact ⟨false, f, s', _, hrun, hserved, fun _ _ => hvictim⟩

/-- The page referenced joins the pages seen. -/
theorem Seen.access {hit : Bool} {f : ℕ} {ps' : List (Fin P)} (h : Seen A c ps)
    (hacc : Access F (A.page c) ps hit f ps') : Seen A (c + 1) ps' := by
  intro q hq
  rcases List.mem_cons.mp (hacc.subset hq) with rfl | hq
  · exact ⟨c, Nat.lt_succ_self _, rfl⟩
  · obtain ⟨j, hj, hjq⟩ := h q hq
    exact ⟨j, by omega, hjq⟩

end OS2023.Paging
