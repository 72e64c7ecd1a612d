import OS2023.Paging.Service

/-!
# FIFO, one reference

`replacePageFIFO` serves a reference under demand paging, gives up the frame at
the head of the queue and moves the frame it loads to the end.
-/

namespace OS2023.Paging

open OS2023.Lib

variable {F P N : ℕ} {pageSize : Int} {A : References P N pageSize} {c : Fin N}
  {s : Sim F P N} {ps : List (Fin P)} {l : List ℕ}

theorem fifo_hit (hA : Loaded A s) (hrep : Rep s ps) (hmem : A.page c ∈ ps) :
    ∃ f s', replacePageFIFO s c pageSize = some (1, s') ∧
      Served A c s ps true f s' ps ∧ s'.pageQueue = s.pageQueue := by
  obtain ⟨i, hi, hit⟩ := hrep.hitFrame_of_mem (hA.pageNum c) hmem
  refine ⟨i, _, ?_, served_hit hrep hmem hi, rfl⟩
  simp only [replacePageFIFO, hA.virtualAddress, A.tdiv_eq_page, A.tmod_eq_offset, index_val,
    Option.bind_eq_bind, Option.bind_some, hit]

theorem fifo_load (hA : Loaded A s) (hrep : Rep s ps) (hq : Queued s l)
    (hl : l.length = ps.length) (fresh : A.page c ∉ ps) (hlt : ps.length < F) :
    ∃ s', replacePageFIFO s c pageSize = some (0, s') ∧
      Served A c s ps false ⟨ps.length, hlt⟩ s' (ps ++ [A.page c]) ∧
      Queued s' (l ++ [ps.length]) := by
  have miss := hrep.hitFrame_of_notMem (hA.pageNum c) fresh
  have free := hrep.freeFrame_of_lt hlt
  have hserved := served_load hA hrep fresh hlt
  obtain ⟨q, hrun, hq'⟩ := Queued.enqueue (hq.of_pageQueue (t := s.install c (A.page c)
    ⟨ps.length, hlt⟩ ((ps.length : ℕ) * pageSize + A.offset c)) rfl) (by omega) ps.length
  refine ⟨_, ?_, hserved.withQueue q, hq'⟩
  simp only [replacePageFIFO, hA.virtualAddress, A.tdiv_eq_page, A.tmod_eq_offset, index_val,
    Option.bind_eq_bind, Option.bind_some, miss, free, hrun]

theorem fifo_replace (hA : Loaded A s) (hrep : Rep s ps) {v : Fin F}
    (hq : Queued s ((v : ℕ) :: l)) (hl : l.length < F) (fresh : A.page c ∉ ps)
    (hfull : ps.length = F) :
    ∃ s', replacePageFIFO s c pageSize = some (0, s') ∧
      Served A c s ps false v s' (ps.set v (A.page c)) ∧ Queued s' (l ++ [(v : ℕ)]) := by
  have miss := hrep.hitFrame_of_notMem (hA.pageNum c) fresh
  have free := hrep.freeFrame_of_full hfull
  have hv : (v : ℕ) < ps.length := hfull ▸ v.isLt
  obtain ⟨q₁, hdeq, hq₁⟩ := hq.dequeue
  have hunmap := hrep.maps.unmap hrep.nodup hv fresh
  -- the state in front of the last enqueue
  let s₂ : Sim F P N := Sim.install
    { s with
      pageQueue := q₁
      pageTable := clearOthers s.pageTable ((v : ℕ) : Int) ((A.page c : ℕ) : Int) }
    c (A.page c) v ((v : ℕ) * pageSize + A.offset c)
  have hserved : Served A c s ps false v s₂ (ps.set v (A.page c)) := by
    refine served_replace hrep fresh hfull hv ?_ rfl ?_ rfl
    · exact hrep.maps.clear_install hrep.nodup hv fresh
    · exact hA.install c v ((v : ℕ) * pageSize + A.offset c)
  obtain ⟨q₂, hrun, hq₂⟩ := Queued.enqueue (hq₁.of_pageQueue (t := s₂) rfl) hl v
  refine ⟨_, ?_, hserved.withQueue q₂, hq₂⟩
  simp only [replacePageFIFO, hA.virtualAddress, A.tdiv_eq_page, A.tmod_eq_offset, index_val,
    Option.bind_eq_bind, Option.bind_some, miss, free, hdeq, hunmap]
  rw [hrun]
  rfl

/-- **FIFO serves every reference.** On a fault without a free frame the head
of the queue is given up. -/
theorem fifo_serves (hF : 0 < F) (hA : Loaded A s) (hrep : Rep s ps) (hq : Queued s l)
    (hl : l.Perm (List.range ps.length)) (c : Fin N) :
    ∃ hit f s' ps', replacePageFIFO s c pageSize = some (if hit then 1 else 0, s') ∧
      Served A c s ps hit f s' ps' ∧
      Queued s' (if hit then l else l.erase f ++ [(f : ℕ)]) ∧
      (hit = false → ps.length = F →
        l.head? = some (f : ℕ) ∧ victimFrameNum .fifo s c = some ((f : ℕ) : Int)) := by
  have hlen : l.length = ps.length := by simpa using hl.length_eq
  by_cases hmem : A.page c ∈ ps
  · obtain ⟨f, s', hrun, hserved, hq'⟩ := fifo_hit hA hrep hmem
    exact ⟨true, f, s', ps, hrun, hserved, hq.of_pageQueue hq', by simp⟩
  · rcases Nat.lt_or_ge ps.length F with hlt | hge
    · obtain ⟨s', hrun, hserved, hq'⟩ := fifo_load hA hrep hq hlen hmem hlt
      have hnot : ps.length ∉ l := by
        rw [hl.mem_iff]
        simp
      refine ⟨false, _, s', _, hrun, hserved, ?_, fun _ hfull => ?_⟩
      · simpa [List.erase_of_not_mem hnot] using hq'
      · omega
    · have hfull : ps.length = F := le_antisymm hrep.fits hge
      cases l with
      | nil => simp at hlen; omega
      | cons v l =>
          have hv : v < F := by
            have := hl.mem_iff.mp List.mem_cons_self
            rw [List.mem_range] at this
            omega
          rw [List.length_cons] at hlen
          obtain ⟨s', hrun, hserved, hq'⟩ := fifo_replace (v := ⟨v, hv⟩) hA hrep hq
            (by omega) hmem hfull
          obtain ⟨q, hdeq, -⟩ := hq.dequeue
          refine ⟨false, _, s', _, hrun, hserved, ?_, fun _ _ => ⟨rfl, ?_⟩⟩
          · simpa using hq'
          · rw [victimFrameNum, hdeq]
            rfl

end OS2023.Paging
