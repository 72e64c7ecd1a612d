import OS2023.Paging.Consistency

/-!
# LRU has the inclusion property

After `k` references an LRU memory of `F` frames holds the first `F` entries of
the recency list, a list that does not depend on `F`. A larger memory therefore
holds every page of a smaller one at every moment, hits whenever it does, and
never reports more faults.
-/

namespace OS2023.Paging

open OS2023.Lib

variable {F P N : ℕ} {pageSize : Int}

/-- **The LRU memory is an initial part of the recency list.** -/
theorem lru_recent (hF : 0 < F) (A : References P N pageSize) : ∀ k ≤ N, ∃ m ps,
    runFor .lru F P pageSize A.addr k = some m ∧ Steady A k m ps ∧
      Recent F A.page k ps := by
  refine run_rule A (I := fun k _ ps => Recent F A.page k ps) (by simp [Recent]) ?_
  intro c m ps _ hsteady hrecent
  obtain ⟨hit, f, s', ps', hrun, hserved, hvictim⟩ :=
    lru_serves hF hsteady.loaded hsteady.rep c hsteady.seen
  refine ⟨hit, f, s', ps', hrun, hserved, ?_⟩
  exact hrecent.access c.isLt hF hsteady.rep.nodup hserved.access
    fun hmiss hfull => (hvictim hmiss hfull).2

theorem lru_turn (hF : 0 < F) (A : References P N pageSize) (c : Fin N) :
    ∃ m ps hit f s' ps', Turn (F := F) .lru A c m ps hit f s' ps' := by
  obtain ⟨m, ps, hrun, hsteady, -⟩ := lru_recent hF A c c.isLt.le
  obtain ⟨hit, f, s', ps', hpage, hserved, -⟩ :=
    lru_serves hF hsteady.loaded hsteady.rep c hsteady.seen
  exact ⟨m, ps, hit, f, s', ps', hrun, hsteady, hpage, hserved⟩

theorem lru_residentAt (hF : 0 < F) (A : References P N pageSize) {k : ℕ} (hk : k ≤ N) :
    residentAt .lru F P pageSize A.addr k = ((recency A.page k).take F).toFinset := by
  obtain ⟨m, ps, hrun, hsteady, hrecent⟩ := lru_recent hF A k hk
  rw [residentAt_eq hrun hsteady.rep]
  ext q
  rw [List.mem_toFinset, List.mem_toFinset]
  exact hrecent q

theorem lru_residentAt_subset {F₁ F₂ : ℕ} (h₀ : 0 < F₁) (hle : F₁ ≤ F₂)
    (A : References P N pageSize) {k : ℕ} (hk : k ≤ N) :
    residentAt .lru F₁ P pageSize A.addr k ⊆ residentAt .lru F₂ P pageSize A.addr k := by
  rw [lru_residentAt h₀ A hk, lru_residentAt (lt_of_lt_of_le h₀ hle) A hk]
  intro q hq
  rw [List.mem_toFinset] at hq ⊢
  exact List.take_subset_take_left _ hle hq

/-- **No Belady anomaly for LRU.** Right after every reference the pages of the
smaller memory are resident in the larger one, every hit of the smaller memory
is a hit of the larger one, and the total reported for the larger memory is not
above the total reported for the smaller. -/
theorem lru_inclusion {F₁ F₂ : ℕ} (h₀ : 0 < F₁) (hle : F₁ ≤ F₂)
    (A : Addresses P numAddresses pageSize) :
    (∀ c : Fin numAddresses, ∃ (m₁ m₁' : MainState F₁ P numAddresses)
        (m₂ m₂' : MainState F₂ P numAddresses) (row₁ row₂ : Row),
      runFor .lru F₁ P pageSize A.addr c = some m₁ ∧
      runFor .lru F₁ P pageSize A.addr (c + 1) = some m₁' ∧
      m₁'.rows = m₁.rows ++ [row₁] ∧
      runFor .lru F₂ P pageSize A.addr c = some m₂ ∧
      runFor .lru F₂ P pageSize A.addr (c + 1) = some m₂' ∧
      m₂'.rows = m₂.rows ++ [row₂] ∧
      residentPages m₁'.sim ⊆ residentPages m₂'.sim ∧
      (row₁.pageFaultChar = 'H' → row₂.pageFaultChar = 'H')) ∧
    ∃ (m₁ : MainState F₁ P numAddresses) (m₂ : MainState F₂ P numAddresses) (t₁ t₂ : ℕ),
      simulate .lru F₁ P pageSize A.addr = some m₁ ∧
      simulate .lru F₂ P pageSize A.addr = some m₂ ∧
      m₁.total = some t₁ ∧ m₂.total = some t₂ ∧ t₂ ≤ t₁ := by
  have h₂ : 0 < F₂ := lt_of_lt_of_le h₀ hle
  constructor
  · intro c
    obtain ⟨m₁, ps₁, hit₁, f₁, s₁, ps₁', t₁⟩ := lru_turn h₀ A.toReferences c
    obtain ⟨m₂, ps₂, hit₂, f₂, s₂, ps₂', t₂⟩ := lru_turn h₂ A.toReferences c
    refine ⟨m₁, _, m₂, _, A.row c hit₁ f₁, A.row c hit₂ f₂, t₁.runs, t₁.next, rfl,
      t₂.runs, t₂.next, rfl, ?_, ?_⟩
    · have hsub := lru_residentAt_subset h₀ hle A.toReferences (k := c + 1) c.isLt
      rw [t₁.resident_next, t₂.resident_next] at hsub
      show residentPages s₁ ⊆ residentPages s₂
      rw [t₁.served.rep.residentPages, t₂.served.rep.residentPages]
      exact hsub
    · intro hchar
      have hhit : hit₁ = true := by
        cases hit₁ with
        | true => rfl
        | false =>
            change 'F' = 'H' at hchar
            exact absurd hchar (by decide)
      have hsub := lru_residentAt_subset h₀ hle A.toReferences (k := c) c.isLt.le
      rw [t₁.resident, t₂.resident] at hsub
      have hmem := List.mem_toFinset.mpr (t₁.served.access.hit_iff.mp hhit)
      have hhit₂ := t₂.served.access.hit_iff.mpr (List.mem_toFinset.mp (hsub hmem))
      rw [hhit₂]
      rfl
  · obtain ⟨m₁, hrun₁, htotal₁, hcount₁⟩ := total_of_turns (lru_turn h₀ A.toReferences)
    obtain ⟨m₂, hrun₂, htotal₂, hcount₂⟩ := total_of_turns (lru_turn h₂ A.toReferences)
    refine ⟨m₁, m₂, _, _, hrun₁, hrun₂, htotal₁, htotal₂, ?_⟩
    rw [hcount₁, hcount₂]
    exact faults_anti A.page (fun j => lru_residentAt_subset h₀ hle A.toReferences j.isLt.le) _

theorem lru_inclusion_roundRobin :
    ∃ (m₁ : MainState 3 4 numAddresses) (m₂ : MainState 4 4 numAddresses) (t₁ t₂ : ℕ),
      simulate .lru 3 4 1024 roundRobin.addr = some m₁ ∧
      simulate .lru 4 4 1024 roundRobin.addr = some m₂ ∧
      m₁.total = some t₁ ∧ m₂.total = some t₂ ∧ t₂ ≤ t₁ :=
  (lru_inclusion (by decide) (by decide) roundRobin).2

end OS2023.Paging
