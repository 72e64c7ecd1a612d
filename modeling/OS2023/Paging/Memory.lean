import OS2023.Lib.FrameList
import OS2023.Paging.Simulator
import Mathlib.Algebra.Order.Ring.Int

/-!
# The memory that page table and frame table represent

Both tables are views of one object, the frame list `ps` of
`OS2023.Lib.FrameList`: page `j` is mapped to frame `i` when `ps[i] = j`, and
frame `i` is occupied when `ps` has an entry `i`. `Rep s ps` states this; the
lemmas here say what the loops of the routines compute on a represented state
and which frame list their assignments represent afterwards.
-/

namespace OS2023.Paging

open OS2023.Lib

variable {F P N : ℕ}

/-! ## References -/

/-- An address array all of whose page numbers lie in a page table of `P`
entries. -/
structure References (P N : ℕ) (pageSize : Int) where
  addr : Fin N → Int
  inTable : ∀ i, 0 < pageSize ∧ 0 ≤ (addr i).tdiv pageSize ∧ (addr i).tdiv pageSize < P

namespace References

variable {pageSize : Int}

/-- The page of the `i`-th address. -/
def page (A : References P N pageSize) (i : Fin N) : Fin P :=
  ⟨((A.addr i).tdiv pageSize).toNat, by
    obtain ⟨-, h0, h1⟩ := A.inTable i
    omega⟩

theorem tdiv_eq_page (A : References P N pageSize) (i : Fin N) :
    (A.addr i).tdiv pageSize = ((A.page i : ℕ) : Int) :=
  (Int.toNat_of_nonneg (A.inTable i).2.1).symm

/-- The offset of the `i`-th address, as C computes it. -/
def offset (A : References P N pageSize) (i : Fin N) : Int :=
  (A.addr i).tmod pageSize

theorem tmod_eq_offset (A : References P N pageSize) (i : Fin N) :
    (A.addr i).tmod pageSize = A.offset i :=
  rfl

end References

/-- An address array all of whose entries lie inside the virtual memory of `P`
pages, as the range check of `main` ensures for every address it reads. -/
structure Addresses (P N : ℕ) (pageSize : Int) extends References P N pageSize where
  inRange : ∀ i, 0 ≤ addr i ∧ addr i < P * pageSize

namespace Addresses

variable {pageSize : Int}

theorem tdiv_bounds {a : Int} (h0 : 0 ≤ a) (h1 : a < P * pageSize) :
    0 < pageSize ∧ 0 ≤ a.tdiv pageSize ∧ a.tdiv pageSize < P := by
  have hprod : 0 < (P : Int) * pageSize := lt_of_le_of_lt h0 h1
  have hpos : 0 < pageSize := pos_of_mul_pos_right hprod (Int.natCast_nonneg P)
  rw [Int.tdiv_eq_ediv_of_nonneg h0]
  exact ⟨hpos, Int.ediv_nonneg h0 hpos.le, Int.ediv_lt_of_lt_mul hpos h1⟩

/-- Being inside the virtual memory is all that is asked. -/
def ofInRange (addr : Fin N → Int) (h : ∀ i, 0 ≤ addr i ∧ addr i < P * pageSize) :
    Addresses P N pageSize where
  addr := addr
  inTable := fun i => tdiv_bounds (h i).1 (h i).2
  inRange := h

theorem offset_eq_emod (A : Addresses P N pageSize) (i : Fin N) :
    A.offset i = A.addr i % pageSize :=
  Int.tmod_eq_emod_of_nonneg (A.inRange i).1

end Addresses

/-! ## Page tables of a frame list -/

/-- Entry `j` carries page and frame number exactly when `j` is resident. -/
def Maps (pageTable : Fin P → PageTable) (ps : List (Fin P)) : Prop :=
  ∀ j, (pageTable j).pageNum = (if j ∈ ps then ((j : ℕ) : Int) else -1) ∧
    (pageTable j).frameNum = (if j ∈ ps then ((ps.idxOf j : ℕ) : Int) else -1)

section Maps

variable {pageTable : Fin P → PageTable} {ps : List (Fin P)}

theorem Maps.pageNum_of_mem (h : Maps pageTable ps) {j : Fin P} (hj : j ∈ ps) :
    (pageTable j).pageNum = (j : ℕ) := by
  rw [(h j).1, if_pos hj]

theorem Maps.frameNum_of_mem (h : Maps pageTable ps) {j : Fin P} (hj : j ∈ ps) :
    (pageTable j).frameNum = (ps.idxOf j : ℕ) := by
  rw [(h j).2, if_pos hj]

/-- Among all entries, only that of the page in frame `i` names frame `i`. -/
theorem Maps.frameNum_eq_iff (h : Maps pageTable ps) (hnd : ps.Nodup) {i : ℕ}
    (hi : i < ps.length) {j : Fin P} :
    (pageTable j).frameNum = (i : Int) ↔ j = ps[i] := by
  rw [(h j).2]
  constructor
  · intro heq
    split at heq
    · rename_i hj
      have hidx : ps.idxOf j = i := by omega
      subst hidx
      exact (List.getElem_idxOf hi).symm
    · omega
  · rintro rfl
    rw [if_pos (List.getElem_mem hi), hnd.idxOf_getElem i hi]

theorem Maps.pageNum_eq_iff (h : Maps pageTable ps) {j k : Fin P} :
    (pageTable j).pageNum = ((k : ℕ) : Int) ↔ j = k ∧ j ∈ ps := by
  rw [(h j).1]
  split
  · rename_i hj
    simp only [hj, and_true, Int.natCast_inj, Fin.ext_iff]
  · rename_i hj
    simp only [hj, and_false, iff_false]
    omega

/-- A page that two frame lists hold in the same frame has the same entry. -/
theorem Maps.entry_congr (h : Maps pageTable ps) {pageTable' : Fin P → PageTable}
    {ps' : List (Fin P)} (h' : Maps pageTable' ps') {j : Fin P} (hmem : j ∈ ps' ↔ j ∈ ps)
    (hidx : j ∈ ps → ps'.idxOf j = ps.idxOf j) :
    (pageTable' j).pageNum = (pageTable j).pageNum ∧
      (pageTable' j).frameNum = (pageTable j).frameNum := by
  rw [(h j).1, (h j).2, (h' j).1, (h' j).2]
  by_cases hj : j ∈ ps
  · rw [if_pos hj, if_pos hj, if_pos (hmem.mpr hj), if_pos (hmem.mpr hj), hidx hj]
    exact ⟨rfl, rfl⟩
  · have hj' : j ∉ ps' := fun h => hj (hmem.mp h)
    rw [if_neg hj, if_neg hj, if_neg hj', if_neg hj']
    exact ⟨rfl, rfl⟩

/-- Replacement, entry by entry: `page` gets frame `f`, `q` loses its own. -/
def swapEntries (pageTable : Fin P → PageTable) (q page : Fin P) (f : Int) :
    Fin P → PageTable := fun j =>
  if j = page then { pageTable j with pageNum := ((page : ℕ) : Int), frameNum := f }
  else if j = q then { pageTable j with pageNum := -1, frameNum := -1 }
  else pageTable j

/-- Clearing meets the victim's page and no other. -/
theorem Maps.clearOthers_apply (h : Maps pageTable ps) (hnd : ps.Nodup) {v : ℕ}
    (hv : v < ps.length) {page : Fin P} (fresh : page ∉ ps) (j : Fin P) :
    clearOthers pageTable (v : Int) ((page : ℕ) : Int) j =
      if j = ps[v] then { pageTable j with pageNum := -1, frameNum := -1 }
      else pageTable j := by
  unfold clearOthers
  have hframe := h.frameNum_eq_iff hnd hv (j := j)
  by_cases hj : j = ps[v]
  · have hmem : j ∈ ps := hj ▸ List.getElem_mem hv
    have hpage : ((page : ℕ) : Int) ≠ (pageTable j).pageNum := by
      rw [h.pageNum_of_mem hmem]
      intro heq
      exact fresh (Fin.ext (Int.natCast_inj.mp heq) ▸ hmem)
    rw [if_pos ⟨(hframe.mpr hj).symm, hpage⟩, if_pos hj]
  · rw [if_neg (fun hc => hj (hframe.mp hc.1.symm)), if_neg hj]

/-- Second-Chance and FIFO clear before they install. -/
theorem Maps.clear_install (h : Maps pageTable ps) (hnd : ps.Nodup) {v : ℕ}
    (hv : v < ps.length) {page : Fin P} (fresh : page ∉ ps) :
    Function.update (clearOthers pageTable (v : Int) ((page : ℕ) : Int)) page
        { clearOthers pageTable (v : Int) ((page : ℕ) : Int) page with
          pageNum := ((page : ℕ) : Int), frameNum := (v : Int) } =
      swapEntries pageTable ps[v] page v := by
  have hne : page ≠ ps[v] := fun heq => fresh (heq ▸ List.getElem_mem hv)
  funext j
  by_cases hj : j = page
  · subst hj
    simp [swapEntries, h.clearOthers_apply hnd hv fresh, hne]
  · rw [Function.update_of_ne hj, h.clearOthers_apply hnd hv fresh]
    simp [swapEntries, hj]

/-- Optimal and LRU install before they clear. -/
theorem Maps.install_clear (h : Maps pageTable ps) (hnd : ps.Nodup) {v : ℕ}
    (hv : v < ps.length) {page : Fin P} (fresh : page ∉ ps) :
    clearOthers (Function.update pageTable page
        { pageTable page with pageNum := ((page : ℕ) : Int), frameNum := (v : Int) })
        (v : Int) ((page : ℕ) : Int) =
      swapEntries pageTable ps[v] page v := by
  funext j
  by_cases hj : j = page
  · subst hj
    simp [swapEntries, clearOthers]
  · have hold := h.clearOthers_apply hnd hv fresh j
    unfold clearOthers at hold ⊢
    rw [Function.update_of_ne hj, hold]
    simp [swapEntries, hj]

theorem foldlM_unmapTurn_of_forall {victimFrameNum pageNum : Int} (l : List (Fin P))
    (pt : Fin P → PageTable) (h : ∀ j ∈ l, victimFrameNum ≠ (pt j).frameNum) :
    l.foldlM (unmapTurn victimFrameNum pageNum) pt = some pt := by
  induction l with
  | nil => rfl
  | cons j l ih =>
      have hj : unmapTurn victimFrameNum pageNum pt j = some pt := by
        rw [unmapTurn, if_neg (fun hc => h j List.mem_cons_self hc.1)]
      rw [List.foldlM_cons, hj]
      exact ih fun k hk => h k (List.mem_cons_of_mem _ hk)

/-- FIFO's loop, which writes through the entry's page number, clears the same
entry as the other routines do. -/
theorem Maps.unmap (h : Maps pageTable ps) (hnd : ps.Nodup) {v : ℕ}
    (hv : v < ps.length) {page : Fin P} (fresh : page ∉ ps) :
    (List.finRange P).foldlM (unmapTurn (v : Int) ((page : ℕ) : Int)) pageTable =
      some (clearOthers pageTable (v : Int) ((page : ℕ) : Int)) := by
  have hmem : ps[v] ∈ ps := List.getElem_mem hv
  obtain ⟨pre, post, hsplit⟩ := List.append_of_mem (List.mem_finRange ps[v])
  have hnodup : (pre ++ ps[v] :: post).Nodup := hsplit ▸ List.nodup_finRange P
  have hnot : ps[v] ∉ pre ∧ ps[v] ∉ post := by
    rw [List.nodup_middle, List.nodup_cons, List.mem_append, not_or] at hnodup
    exact hnodup.1
  have hother : ∀ j, j ≠ ps[v] → (v : Int) ≠ (pageTable j).frameNum :=
    fun j hj heq => hj ((h.frameNum_eq_iff hnd hv).mp heq.symm)
  have hpage : (pageTable ps[v]).pageNum ≠ ((page : ℕ) : Int) := by
    rw [h.pageNum_of_mem hmem]
    intro heq
    exact fresh (Fin.ext (Int.natCast_inj.mp heq) ▸ hmem)
  have hturn : unmapTurn (v : Int) ((page : ℕ) : Int) pageTable ps[v] =
      some (Function.update pageTable ps[v]
        { pageTable ps[v] with frameNum := -1, pageNum := -1 }) := by
    rw [unmapTurn, if_pos ⟨((h.frameNum_eq_iff hnd hv).mpr rfl).symm, hpage⟩,
      h.pageNum_of_mem hmem, index_val]
    rfl
  have hcleared : Function.update pageTable ps[v]
      { pageTable ps[v] with frameNum := -1, pageNum := -1 } =
      clearOthers pageTable (v : Int) ((page : ℕ) : Int) := by
    funext j
    rw [h.clearOthers_apply hnd hv fresh]
    by_cases hj : j = ps[v]
    · subst hj
      simp
    · rw [Function.update_of_ne hj, if_neg hj]
  rw [hsplit, List.foldlM_append,
    foldlM_unmapTurn_of_forall pre pageTable
      (fun j hj => hother j (fun heq => hnot.1 (heq ▸ hj)))]
  simp only [Option.bind_eq_bind, Option.bind_some, List.foldlM_cons, hturn]
  rw [foldlM_unmapTurn_of_forall post _ ?_, hcleared]
  intro j hj
  have hne : j ≠ ps[v] := fun heq => hnot.2 (heq ▸ hj)
  rw [Function.update_of_ne hne]
  exact hother j hne

theorem Maps.load (h : Maps pageTable ps) {page : Fin P} (fresh : page ∉ ps) :
    Maps (Function.update pageTable page
      { pageTable page with pageNum := ((page : ℕ) : Int), frameNum := (ps.length : Int) })
      (ps ++ [page]) := by
  intro j
  by_cases hj : j = page
  · subst hj
    simp [List.idxOf_append_of_notMem fresh]
  · rw [Function.update_of_ne hj]
    have hmem : j ∈ ps ++ [page] ↔ j ∈ ps := by simp [hj]
    simp only [hmem]
    refine ⟨(h j).1, (h j).2.trans ?_⟩
    split
    · rename_i hjps
      rw [List.idxOf_append_of_mem hjps]
    · rfl

theorem Maps.replace (h : Maps pageTable ps) (hnd : ps.Nodup) {v : ℕ}
    (hv : v < ps.length) {page : Fin P} (fresh : page ∉ ps) :
    Maps (swapEntries pageTable ps[v] page v) (ps.set v page) := by
  intro j
  by_cases hj : j = page
  · subst hj
    simp [swapEntries, List.mem_set hv, idxOf_set_self hnd hv fresh]
  · have hmem := mem_set_iff hnd hv (a := page) (x := j)
    by_cases hq : j = ps[v]
    · have hnot : j ∉ ps.set v page := by
        rw [hmem, not_or, not_and_or, not_not]
        exact ⟨hj, Or.inr hq⟩
      simp only [swapEntries, if_neg hj, if_pos hq, if_neg hnot, and_self]
    · have hiff : j ∈ ps.set v page ↔ j ∈ ps := by
        rw [hmem]
        simp [hj, hq]
      simp only [swapEntries, if_neg hj, if_neg hq, hiff]
      refine ⟨(h j).1, (h j).2.trans ?_⟩
      split
      · rename_i hjps
        have hidx : ps.idxOf j ≠ v := by
          rintro rfl
          exact hq (List.getElem_idxOf hv).symm
        rw [idxOf_set_of_ne hnd fresh hjps hidx]
      · rfl

end Maps

/-! ## Represented states -/

/-- The tables of `s` are the two views of the frame list `ps`. -/
structure Rep (s : Sim F P N) (ps : List (Fin P)) : Prop where
  nodup : ps.Nodup
  fits : ps.length ≤ F
  maps : Maps s.pageTable ps
  occupied : ∀ i, (s.frames i).isOccupied = if (i : ℕ) < ps.length then 1 else 0
  numbered : ∀ i, (s.frames i).frameNum =
    if (i : ℕ) < ps.length then ((i : ℕ) : Int) else -1

section Rep

variable {s : Sim F P N} {ps : List (Fin P)}

theorem Rep.of_tables (h : Rep s ps) {s' : Sim F P N}
    (htable : s'.pageTable = s.pageTable) (hframes : s'.frames = s.frames) :
    Rep s' ps :=
  { nodup := h.nodup
    fits := h.fits
    maps := by rw [htable]; exact h.maps
    occupied := by rw [hframes]; exact h.occupied
    numbered := by rw [hframes]; exact h.numbered }

theorem Rep.frameNum_of_lt (h : Rep s ps) {i : Fin F} (hi : (i : ℕ) < ps.length) :
    (s.frames i).frameNum = (i : ℕ) := by
  rw [h.numbered, if_pos hi]

/-- Tables represent one frame list only. -/
theorem Rep.unique {ps' : List (Fin P)} (h : Rep s ps) (h' : Rep s ps') : ps = ps' := by
  have hmem : ∀ {qs : List (Fin P)}, Rep s qs → ∀ i (p : Fin P), qs[i]? = some p ↔
      (s.pageTable p).frameNum = ((i : ℕ) : Int) := by
    intro qs hqs i p
    rw [(hqs.maps p).2]
    constructor
    · intro hp
      obtain ⟨hi, rfl⟩ := List.getElem?_eq_some_iff.mp hp
      rw [if_pos (List.getElem_mem hi), hqs.nodup.idxOf_getElem i hi]
    · intro heq
      split at heq
      · rename_i hp
        have hi := List.idxOf_lt_length_of_mem hp
        rw [← Int.natCast_inj.mp heq, List.getElem?_eq_getElem hi, List.getElem_idxOf]
      · omega
  refine List.ext_getElem? fun i => Option.ext fun p => ?_
  rw [hmem h i p, hmem h' i p]

/-- The reverse lookup of the hit test finds the page in the frame. -/
theorem Rep.pageNumFromFrame (h : Rep s ps) {i : ℕ} (hi : i < ps.length) :
    pageNumFromFrame s (i : Int) = ((ps[i] : ℕ) : Int) := by
  unfold Paging.pageNumFromFrame
  rw [lastMatch_unique (i := ps[i])]
  · exact h.maps.pageNum_of_mem (List.getElem_mem hi)
  · rw [beq_iff_eq, h.maps.frameNum_eq_iff h.nodup hi]
  · intro j hj
    rwa [beq_iff_eq, h.maps.frameNum_eq_iff h.nodup hi] at hj

/-- So does the reverse lookup of the distance scans. -/
theorem Rep.pageNumforSearch (h : Rep s ps) {i : ℕ} (hi : i < ps.length) :
    pageNumforSearch s (i : Int) = ((ps[i] : ℕ) : Int) := by
  have hfirst : (firstWhere fun j => (i : Int) == (s.pageTable j).frameNum) =
      some ps[i] := by
    apply firstWhere_unique
    · rw [beq_iff_eq, eq_comm, h.maps.frameNum_eq_iff h.nodup hi]
    · intro j hj
      rwa [beq_iff_eq, eq_comm, h.maps.frameNum_eq_iff h.nodup hi] at hj
  rw [Paging.pageNumforSearch, hfirst]
  exact h.maps.pageNum_of_mem (List.getElem_mem hi)

/-- The hit test at frame `i` asks whether frame `i` holds the page. -/
theorem Rep.hitTest (h : Rep s ps) {c : Fin N} {p : Fin P}
    (hp : (s.virtualAddressInfoArray c).pageNum = ((p : ℕ) : Int)) (i : Fin F) :
    ((s.frames i).isOccupied != 0 && (s.virtualAddressInfoArray c).pageNum ==
      Paging.pageNumFromFrame s (s.frames i).frameNum) = true ↔
      ps[(i : ℕ)]? = some p := by
  rw [hp, h.occupied]
  by_cases hi : (i : ℕ) < ps.length
  · rw [h.frameNum_of_lt hi, h.pageNumFromFrame hi, if_pos hi,
      List.getElem?_eq_getElem hi, Option.some.injEq, Fin.ext_iff]
    simp only [bne_iff_ne, ne_eq, one_ne_zero, not_false_eq_true, Bool.and_eq_true,
      beq_iff_eq, Int.natCast_inj, true_and]
    exact eq_comm
  · rw [if_neg hi, List.getElem?_eq_none (by omega)]
    simp

theorem Rep.hitFrame_of_mem (h : Rep s ps) {c : Fin N} {p : Fin P}
    (hp : (s.virtualAddressInfoArray c).pageNum = ((p : ℕ) : Int)) (hmem : p ∈ ps) :
    ∃ i : Fin F, (i : ℕ) = ps.idxOf p ∧ hitFrame s c = some i := by
  have hlt := List.idxOf_lt_length_of_mem hmem
  refine ⟨⟨ps.idxOf p, lt_of_lt_of_le hlt h.fits⟩, rfl, ?_⟩
  apply firstWhere_unique
  · rw [h.hitTest hp, List.getElem?_eq_getElem hlt, List.getElem_idxOf]
  · intro j hj
    rw [h.hitTest hp] at hj
    obtain ⟨hjlt, hget⟩ := List.getElem?_eq_some_iff.mp hj
    apply Fin.ext
    show (j : ℕ) = ps.idxOf p
    rw [← hget, h.nodup.idxOf_getElem]

theorem Rep.hitFrame_of_notMem (h : Rep s ps) {c : Fin N} {p : Fin P}
    (hp : (s.virtualAddressInfoArray c).pageNum = ((p : ℕ) : Int)) (fresh : p ∉ ps) :
    hitFrame s c = none := by
  apply firstWhere_eq_none.mpr
  intro i
  rw [← Bool.not_eq_true, h.hitTest hp]
  intro hget
  exact fresh (List.mem_of_getElem? hget)

theorem Rep.freeFrame_of_lt (h : Rep s ps) (hlt : ps.length < F) :
    freeFrame s = some ⟨ps.length, hlt⟩ := by
  apply firstWhere_eq_some.mpr
  constructor
  · simp [h.occupied]
  · intro j hj
    have hj' : (j : ℕ) < ps.length := hj
    simp [h.occupied, hj']

theorem Rep.freeFrame_of_full (h : Rep s ps) (hfull : ps.length = F) :
    freeFrame s = none := by
  apply firstWhere_eq_none.mpr
  intro i
  have hi : (i : ℕ) < ps.length := hfull ▸ i.isLt
  simp [h.occupied, hi]

/-! ### What the assignments represent -/

theorem Rep.touch (h : Rep s ps) {i : Fin F} (hi : (i : ℕ) < ps.length) (a : Int) :
    Rep (s.touch i a) ps :=
  { nodup := h.nodup
    fits := h.fits
    maps := h.maps
    occupied := by
      intro k
      by_cases hk : k = i
      · subst hk
        simp [Sim.touch, hi]
      · simp only [Sim.touch, Function.update_of_ne hk]
        exact h.occupied k
    numbered := by
      intro k
      by_cases hk : k = i
      · subst hk
        simpa [Sim.touch] using h.numbered k
      · simp only [Sim.touch, Function.update_of_ne hk]
        exact h.numbered k }

theorem Rep.load (h : Rep s ps) (c : Fin N) {page : Fin P} (fresh : page ∉ ps)
    (hlt : ps.length < F) (a : Int) :
    Rep (s.install c page ⟨ps.length, hlt⟩ a) (ps ++ [page]) :=
  { nodup := (Access.load fresh hlt).nodup h.nodup
    fits := (Access.load fresh hlt).length_le h.fits
    maps := h.maps.load fresh
    occupied := by
      intro k
      by_cases hk : k = ⟨ps.length, hlt⟩
      · subst hk
        simp [Sim.install]
      · have hne : (k : ℕ) ≠ ps.length := fun heq => hk (Fin.ext heq)
        simp only [Sim.install, Function.update_of_ne hk]
        rw [h.occupied, List.length_append, List.length_singleton]
        split <;> split <;> first | rfl | omega
    numbered := by
      intro k
      by_cases hk : k = ⟨ps.length, hlt⟩
      · subst hk
        simp [Sim.install]
      · have hne : (k : ℕ) ≠ ps.length := fun heq => hk (Fin.ext heq)
        simp only [Sim.install, Function.update_of_ne hk]
        rw [h.numbered, List.length_append, List.length_singleton]
        split <;> split <;> first | rfl | omega }

/-- A replacement, in whichever order the routine writes its two tables. -/
theorem Rep.replace (h : Rep s ps) (hfull : ps.length = F) {page : Fin P}
    (fresh : page ∉ ps) {f : Fin F} (hf : (f : ℕ) < ps.length) {s' : Sim F P N} {a : Int}
    (htable : s'.pageTable = swapEntries s.pageTable ps[(f : ℕ)] page (f : ℕ))
    (hframes : s'.frames = Function.update s.frames f ⟨1, (f : ℕ), a⟩) :
    Rep s' (ps.set f page) :=
  { nodup := nodup_set h.nodup fresh
    fits := by simpa using h.fits
    maps := by rw [htable]; exact h.maps.replace h.nodup hf fresh
    occupied := by
      intro k
      have hk' := k.isLt
      rw [hframes, List.length_set, if_pos (by omega)]
      by_cases hk : k = f
      · subst hk
        simp
      · rw [Function.update_of_ne hk, h.occupied, if_pos (by omega)]
    numbered := by
      intro k
      have hk' := k.isLt
      rw [hframes, List.length_set, if_pos (by omega)]
      by_cases hk : k = f
      · subst hk
        simp
      · rw [Function.update_of_ne hk, h.frameNum_of_lt (by omega)] }

end Rep

end OS2023.Paging
