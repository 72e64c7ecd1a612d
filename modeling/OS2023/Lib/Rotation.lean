import OS2023.Lib.Clock
import OS2023.Lib.FrameList

/-!
# First-in first-out replacement as a counter

`loads` lists the pages in the order in which they were brought in. Load number
`j` goes to frame `j % F`, so the frames hold the last `F` loads, and the queue
of frames is the circle read from the next frame to be used. `Rotating` relates
a frame list to the loads behind it.
-/

namespace OS2023.Lib

variable {F : ℕ} {α : Type*} {loads ps : List α}

/-- The frame list `ps` holds the last `F` of `loads`, number `j` in frame
`j % F`. -/
structure Rotating (F : ℕ) (loads ps : List α) : Prop where
  length : ps.length = min F loads.length
  frame : ∀ j, loads.length ≤ j + F → j < loads.length → ps[j % F]? = loads[j]?

theorem Rotating.nil : Rotating F ([] : List α) [] :=
  ⟨by simp, fun j _ hj => by simp at hj⟩

/-- Every frame in use holds one of the last `F` loads. -/
theorem Rotating.exists_load (h : Rotating F loads ps) {i : ℕ} (hi : i < ps.length) :
    ∃ j, loads.length ≤ j + F ∧ j < loads.length ∧ j % F = i := by
  have hlen := h.length
  have hiF : i < F := lt_of_lt_of_le (hlen ▸ hi) (min_le_left _ _)
  have hil : i < loads.length := lt_of_lt_of_le (hlen ▸ hi) (min_le_right _ _)
  -- the largest number below `loads.length` in the class of `i`
  have hdiv := Nat.div_add_mod (loads.length - 1 - i) F
  have hmod := Nat.mod_lt (loads.length - 1 - i) (Nat.lt_of_le_of_lt (Nat.zero_le i) hiF)
  refine ⟨i + F * ((loads.length - 1 - i) / F), by omega, by omega, ?_⟩
  rw [Nat.add_mul_mod_self_left, Nat.mod_eq_of_lt hiF]

/-- **Resident pages are the last `F` loads.** -/
theorem Rotating.mem_iff (h : Rotating F loads ps) {q : α} :
    q ∈ ps ↔ q ∈ loads.drop (loads.length - F) := by
  rw [List.mem_iff_getElem?, List.mem_drop_iff_getElem]
  constructor
  · rintro ⟨i, hi⟩
    obtain ⟨hlt, -⟩ := List.getElem?_eq_some_iff.mp hi
    obtain ⟨j, hjF, hj, rfl⟩ := h.exists_load hlt
    rw [h.frame j hjF hj, List.getElem?_eq_some_iff] at hi
    obtain ⟨hj', hq⟩ := hi
    refine ⟨j - (loads.length - F), by omega, ?_⟩
    rw [← hq]
    congr 1
    omega
  · rintro ⟨i, hi, rfl⟩
    refine ⟨(loads.length - F + i) % F, ?_⟩
    rw [h.frame _ (by omega) (by omega), List.getElem?_eq_getElem (by omega)]

/-- The frame that the next load reuses holds the load `F` before it. -/
theorem Rotating.oldest (h : Rotating F loads ps) (hfull : F ≤ loads.length)
    (hF : 0 < F) : ps[loads.length % F]? = loads[loads.length - F]? := by
  have hmod : loads.length % F = (loads.length - F) % F :=
    Nat.mod_eq_sub_mod hfull
  rw [hmod]
  exact h.frame _ (by omega) (by omega)

theorem Rotating.load (h : Rotating F loads ps) (hroom : ps.length < F) (p : α) :
    Rotating F (loads ++ [p]) (ps ++ [p]) := by
  have hlen := h.length
  have hsame : loads.length = ps.length := by omega
  refine ⟨by simp; omega, fun j hjF hj => ?_⟩
  rw [List.length_append, List.length_singleton] at hj
  rw [Nat.mod_eq_of_lt (by omega)]
  rcases Nat.lt_or_eq_of_le (Nat.le_of_lt_succ hj) with hlt | rfl
  · have hframe := h.frame j (by omega) hlt
    rw [Nat.mod_eq_of_lt (by omega)] at hframe
    rw [List.getElem?_append_left hlt, List.getElem?_append_left (by omega), hframe]
  · rw [List.getElem?_concat_length, hsame, List.getElem?_concat_length]

theorem Rotating.replace (h : Rotating F loads ps) (hfull : ps.length = F) (hF : 0 < F)
    (p : α) : Rotating F (loads ++ [p]) (ps.set (loads.length % F) p) := by
  have hlen := h.length
  refine ⟨by simp; omega, fun j hjF hj => ?_⟩
  rw [List.length_append, List.length_singleton] at hj hjF
  rcases Nat.lt_or_eq_of_le (Nat.le_of_lt_succ hj) with hlt | rfl
  · -- two numbers less than `F` apart are in different classes
    have hne : loads.length % F ≠ j % F := by
      intro heq
      have hdvd : F ∣ loads.length - j := (Nat.modEq_iff_dvd' hlt.le).mp heq.symm
      have := Nat.le_of_dvd (by omega) hdvd
      omega
    rw [List.getElem?_set_ne hne, List.getElem?_append_left hlt]
    exact h.frame j (by omega) hlt
  · rw [List.getElem?_concat_length, List.getElem?_set_self]
    rw [hfull]
    exact Nat.mod_lt _ hF

/-! ## The loads of a reference string -/

/-- The pages loaded by the first `k` references when the last `F` loads are
resident, oldest first. -/
def fifoLoads [DecidableEq α] {N : ℕ} (F : ℕ) (w : Fin N → α) (k : ℕ) : List α :=
  ((List.finRange N).take k).foldl
    (fun l i => if w i ∈ l.drop (l.length - F) then l else l ++ [w i]) []

theorem fifoLoads_succ [DecidableEq α] {N : ℕ} (F : ℕ) (w : Fin N → α) {k : ℕ} (hk : k < N) :
    fifoLoads F w (k + 1) =
      if w ⟨k, hk⟩ ∈ (fifoLoads F w k).drop ((fifoLoads F w k).length - F) then fifoLoads F w k
      else fifoLoads F w k ++ [w ⟨k, hk⟩] := by
  rw [fifoLoads, take_succ_finRange hk, List.foldl_append]
  rfl

/-- A memory that holds the last `F` loads serves the next reference from them. -/
theorem Rotating.fifoLoads_succ [DecidableEq α] {N : ℕ} {w : Fin N → α} {c : Fin N}
    {ps' : List α} {hit : Bool} {f : ℕ} (h : Rotating F (fifoLoads F w c) ps)
    (hacc : Access F (w c) ps hit f ps') :
    fifoLoads F w (c + 1) = if hit then fifoLoads F w c else fifoLoads F w c ++ [w c] := by
  rw [Lib.fifoLoads_succ F w c.isLt]
  exact if_congr (h.mem_iff.symm.trans hacc.hit_iff.symm) rfl rfl

/-! ## The queue of frames -/

/-- The frames in the order of their reuse, after `k` loads. -/
def rotation (F k : ℕ) : List ℕ :=
  if k < F then List.range k else cycle F (k % F)

theorem rotation_perm (hF : 0 < F) (k : ℕ) : (rotation F k).Perm (List.range (min F k)) := by
  unfold rotation
  split
  · rename_i hk
    rw [min_eq_right hk.le]
  · rename_i hk
    rw [min_eq_left (Nat.le_of_not_lt hk)]
    exact cycle_perm ⟨k % F, Nat.mod_lt k hF⟩

theorem rotation_head (hF : 0 < F) {k : ℕ} (hk : F ≤ k) :
    (rotation F k).head? = some (k % F) := by
  rw [rotation, if_neg (Nat.not_lt.mpr hk),
    cycle_eq_cons (⟨k % F, Nat.mod_lt k hF⟩ : Fin F)]
  rfl

/-- A load takes its frame from wherever it is to the end of the queue. -/
theorem rotation_succ (hF : 0 < F) (k : ℕ) :
    (rotation F k).erase (k % F) ++ [k % F] = rotation F (k + 1) := by
  have hmod : (k + 1) % F = (k % F + 1) % F := by
    rw [Nat.mod_add_mod]
  rcases Nat.lt_or_ge k F with hk | hk
  · rw [rotation, if_pos hk, Nat.mod_eq_of_lt hk, List.erase_of_not_mem (by simp),
      ← List.range_succ]
    rcases Nat.lt_or_eq_of_le (Nat.succ_le_of_lt hk) with hk' | hk'
    · rw [rotation, if_pos hk']
    · rw [rotation, if_neg (by omega), ← hk', Nat.mod_self, cycle_zero]
  · have hturn := cycle_tail_append (⟨k % F, Nat.mod_lt k hF⟩ : Fin F)
    rw [rotation, if_neg (by omega), rotation, if_neg (by omega), hmod,
      cycle_eq_cons (⟨k % F, Nat.mod_lt k hF⟩ : Fin F), List.erase_cons_head]
    exact hturn

end OS2023.Lib
