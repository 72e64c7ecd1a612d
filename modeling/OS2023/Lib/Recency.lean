import OS2023.Lib.FrameList
import OS2023.Lib.Loops
import Mathlib.Data.List.Nodup
import Mathlib.Data.List.Pairwise

/-!
# Recency lists

`recency w k` lists the pages of the first `k` references, the most recently
used first. Its first `F` entries are what least-recently-used replacement
keeps in `F` frames, for every `F` at once: this is the inclusion property of
LRU. The lemmas here say how those entries move on a reference, and that the
list is ordered by last use.
-/

namespace OS2023.Lib

variable {α : Type*} {N F : ℕ}

/-! ## Last uses -/

/-- Index `j` is the last one below `k` that references `q`. -/
structure LastUse (w : Fin N → α) (k : ℕ) (q : α) (j : Fin N) : Prop where
  lt : (j : ℕ) < k
  eq : w j = q
  last : ∀ i : Fin N, j < i → (i : ℕ) < k → w i ≠ q

theorem LastUse.unique {w : Fin N → α} {k : ℕ} {q : α} {i j : Fin N}
    (hi : LastUse w k q i) (hj : LastUse w k q j) : i = j := by
  rcases lt_trichotomy i j with h | h | h
  · exact absurd hj.eq (hi.last j h hj.lt)
  · exact h
  · exact absurd hi.eq (hj.last i h hi.lt)

theorem LastUse.succ {w : Fin N → α} {k : ℕ} (hk : k < N) {q : α} {j : Fin N}
    (h : LastUse w k q j) (hne : w ⟨k, hk⟩ ≠ q) : LastUse w (k + 1) q j := by
  refine ⟨Nat.lt_succ_of_lt h.lt, h.eq, fun i hji hik => ?_⟩
  rcases Nat.lt_or_ge i k with hlt | hge
  · exact h.last i hji hlt
  · have hik' : i = ⟨k, hk⟩ := Fin.ext (by show (i : ℕ) = k; omega)
    rw [hik']
    exact hne

theorem LastUse.of_succ {w : Fin N → α} {k : ℕ} (hk : k < N) {q : α} {j : Fin N}
    (h : LastUse w (k + 1) q j) (hne : q ≠ w ⟨k, hk⟩) : LastUse w k q j := by
  have hjk : (j : ℕ) ≠ k := by
    intro heq
    exact hne (h.eq ▸ congrArg w (Fin.ext heq))
  have hlt := h.lt
  exact ⟨by omega, h.eq, fun i hji hik => h.last i hji (by omega)⟩

/-- Renaming the pages of the first `k` references does not move last uses. -/
theorem lastUse_rename_iff {β : Type*} {g : α → β} (hg : Function.Injective g)
    {w : Fin N → α} {w' : Fin N → β} {k : ℕ} (hw : ∀ i : Fin N, (i : ℕ) < k → w' i = g (w i))
    {q : α} {j : Fin N} : LastUse w' k (g q) j ↔ LastUse w k q j := by
  constructor
  · intro h
    refine ⟨h.lt, hg (by rw [← hw j h.lt, h.eq]), fun i hji hik heq => h.last i hji hik ?_⟩
    rw [hw i hik, heq]
  · intro h
    refine ⟨h.lt, by rw [hw j h.lt, h.eq], fun i hji hik heq => h.last i hji hik ?_⟩
    exact hg (by rw [← hw i hik, heq])

/-- Frame `f` holds the page whose last use lies furthest back. -/
def OldestFrame (w : Fin N → α) (k : ℕ) (ps : List α) (f : ℕ) : Prop :=
  ∃ v j, ps[f]? = some v ∧ LastUse w k v j ∧ ∀ q ∈ ps, ∀ i, LastUse w k q i → j ≤ i

/-- Distinct pages have distinct last uses, so there is one such frame. -/
theorem OldestFrame.unique {w : Fin N → α} {k : ℕ} {ps : List α} (hnd : ps.Nodup) {f g : ℕ}
    (hf : OldestFrame w k ps f) (hg : OldestFrame w k ps g) : f = g := by
  obtain ⟨v, j, hv, hj, hfirst⟩ := hf
  obtain ⟨u, i, hu, hi, hfirst'⟩ := hg
  have hij : j = i := le_antisymm (hfirst u (List.mem_of_getElem? hu) i hi)
    (hfirst' v (List.mem_of_getElem? hv) j hj)
  have huv : u = v := by rw [← hi.eq, ← hij, hj.eq]
  obtain ⟨hlt, rfl⟩ := List.getElem?_eq_some_iff.mp hv
  obtain ⟨hlt', heq⟩ := List.getElem?_eq_some_iff.mp hu
  exact hnd.getElem_inj_iff.mp (huv.symm.trans heq.symm)

theorem OldestFrame.of_rename {β : Type*} {g : α → β} (hg : Function.Injective g)
    {w : Fin N → α} {w' : Fin N → β} {k : ℕ} (hw : ∀ i : Fin N, (i : ℕ) < k → w' i = g (w i))
    {ps : List α} {f : ℕ} (h : OldestFrame w' k (ps.map g) f) : OldestFrame w k ps f := by
  obtain ⟨v', j, hv, hj, hfirst⟩ := h
  rw [List.getElem?_map, Option.map_eq_some_iff] at hv
  obtain ⟨v, hv, rfl⟩ := hv
  refine ⟨v, j, hv, (lastUse_rename_iff hg hw).mp hj, fun q hq i hi => ?_⟩
  exact hfirst (g q) (List.mem_map_of_mem hq) i ((lastUse_rename_iff hg hw).mpr hi)

/-! ## Events since -/

section Since

variable {S C : Fin N → Prop}

/-- An event of `S` lies before `k`, and after all events of `C` before `k`. -/
def Since (S C : Fin N → Prop) (k : ℕ) : Prop :=
  ∃ h : Fin N, (h : ℕ) < k ∧ S h ∧ ∀ i : Fin N, (i : ℕ) < k → C i → i < h

theorem not_since_zero : ¬ Since S C 0 := by
  rintro ⟨h, hlt, -⟩
  exact Nat.not_lt_zero _ hlt

theorem since_of_event {c : Fin N} (hS : S c) (hC : ¬ C c) : Since S C (c + 1) := by
  refine ⟨c, Nat.lt_succ_self _, hS, fun i hi hCi => ?_⟩
  refine lt_of_le_of_ne (Fin.le_def.mpr (Nat.le_of_lt_succ hi)) ?_
  rintro rfl
  exact hC hCi

theorem not_since_of_clear {c : Fin N} (hC : C c) : ¬ Since S C (c + 1) := by
  rintro ⟨h, hlt, -, hlast⟩
  exact absurd (Nat.le_of_lt_succ hlt) (not_le.mpr (hlast c (Nat.lt_succ_self _) hC))

theorem since_succ_iff {c : Fin N} (hS : ¬ S c) (hC : ¬ C c) :
    Since S C (c + 1) ↔ Since S C c := by
  have hne : ∀ {P : Fin N → Prop}, ¬ P c → ∀ i : Fin N, (i : ℕ) < c + 1 → P i → (i : ℕ) < c := by
    intro P hP i hi hPi
    refine lt_of_le_of_ne (Nat.le_of_lt_succ hi) fun heq => hP ?_
    rwa [← Fin.ext heq]
  constructor
  · rintro ⟨h, hlt, hSh, hlast⟩
    exact ⟨h, hne hS h hlt hSh, hSh, fun i hi => hlast i (Nat.lt_succ_of_lt hi)⟩
  · rintro ⟨h, hlt, hSh, hlast⟩
    exact ⟨h, Nat.lt_succ_of_lt hlt, hSh, fun i hi hCi => hlast i (hne hC i hi hCi) hCi⟩

end Since

/-! ## Queues in the order of loading -/

/-- The frames `l` stand in the order in which their pages were loaded. The
loads are `w`, which is `none` at a hit. -/
structure LoadOrder (w : Fin N → Option α) (k : ℕ) (ps : List α) (l : List ℕ) : Prop where
  loaded : ∀ p ∈ ps, ∃ i, LastUse w k (some p) i
  sorted : l.Pairwise fun a b => ∀ p q, ps[a]? = some p → ps[b]? = some q →
    ∀ i j, LastUse w k (some p) i → LastUse w k (some q) j → i < j

theorem LoadOrder.nil (w : Fin N → Option α) : LoadOrder w 0 ([] : List α) [] :=
  ⟨fun _ hp => absurd hp List.not_mem_nil, List.Pairwise.nil⟩

theorem LoadOrder.lt_of_idxOf_le {w : Fin N → Option α} {k : ℕ} {ps : List α} {l : List ℕ}
    (h : LoadOrder w k ps l) {a b : ℕ} (ha : a ∈ l) (hb : b ∈ l)
    (hab : l.idxOf a ≤ l.idxOf b) {p q : α} (hp : ps[a]? = some p) (hq : ps[b]? = some q)
    (hpq : p ≠ q) {i j : Fin N} (hi : LastUse w k (some p) i)
    (hj : LastUse w k (some q) j) : i < j := by
  -- different pages are in different frames, which have different places in `l`
  have hne : l.idxOf a ≠ l.idxOf b := by
    intro heq
    rw [List.idxOf_inj ha] at heq
    rw [heq, hq] at hp
    exact hpq (Option.some.inj hp).symm
  have hlt := List.idxOf_lt_length_of_mem hb
  have hsorted := List.pairwise_iff_getElem.mp h.sorted _ _ (hab.trans_lt hlt) hlt
    (lt_of_le_of_ne hab hne) p q
  rw [List.getElem_idxOf, List.getElem_idxOf] at hsorted
  exact hsorted hp hq i j hi hj

/-- The frame of a fault goes to the end: its page is the one loaded last. -/
theorem LoadOrder.load {w : Fin N → Option α} {c : Fin N} {ps ps' : List α} {l : List ℕ}
    (h : LoadOrder w c ps l) (hnd : l.Nodup) {p : α} {f : ℕ} (hw : w c = some p)
    (fresh : p ∉ ps) (hf : ps'[f]? = some p) (hother : ∀ a ∈ l, a ≠ f → ps'[a]? = ps[a]?)
    (hsub : ps' ⊆ p :: ps) : LoadOrder w (c + 1) ps' (l.erase f ++ [f]) := by
  have hnew : LastUse w (c + 1) (some p) c :=
    ⟨Nat.lt_succ_self _, hw, fun i hci hi => absurd hci
      (not_lt.mpr (Fin.le_def.mpr (Nat.le_of_lt_succ hi)))⟩
  have hne : ∀ {q}, q ∈ ps → some q ≠ w c := by
    intro q hq heq
    rw [hw, Option.some.injEq] at heq
    exact fresh (heq ▸ hq)
  have hkeep : ∀ a ∈ l.erase f, ∀ q, ps'[a]? = some q → ps[a]? = some q ∧ q ∈ ps := by
    intro a ha q hq
    have hal := List.mem_of_mem_erase ha
    have haf : a ≠ f := by
      rintro rfl
      exact hnd.not_mem_erase ha
    rw [hother a hal haf] at hq
    exact ⟨hq, List.mem_of_getElem? hq⟩
  constructor
  · intro q hq
    rcases List.mem_cons.mp (hsub hq) with rfl | hq
    · exact ⟨c, hnew⟩
    · obtain ⟨i, hi⟩ := h.loaded q hq
      exact ⟨i, hi.succ c.isLt (hne hq).symm⟩
  · apply List.pairwise_append.mpr
    refine ⟨?_, List.pairwise_singleton _ _, ?_⟩
    · refine List.Pairwise.imp_of_mem ?_ (h.sorted.sublist List.erase_sublist)
      intro a b ha hb hab q r hq hr i j hi hj
      obtain ⟨hq, hqps⟩ := hkeep a ha q hq
      obtain ⟨hr, hrps⟩ := hkeep b hb r hr
      exact hab q r hq hr i j (hi.of_succ c.isLt (hne hqps)) (hj.of_succ c.isLt (hne hrps))
    · intro a ha b hb q r hq hr i j hi hj
      obtain rfl := List.mem_singleton.mp hb
      obtain ⟨-, hqps⟩ := hkeep a ha q hq
      obtain rfl : p = r := Option.some.inj (hf.symm.trans hr)
      rw [hj.unique hnew]
      exact (hi.of_succ c.isLt (hne hqps)).lt

theorem LoadOrder.hit {w : Fin N → Option α} {c : Fin N} {ps : List α} {l : List ℕ}
    (h : LoadOrder w c ps l) (hw : w c = none) : LoadOrder w (c + 1) ps l := by
  have hne : ∀ q : α, some q ≠ w c := fun q => hw.symm ▸ Option.some_ne_none q
  constructor
  · intro q hq
    obtain ⟨i, hi⟩ := h.loaded q hq
    exact ⟨i, hi.succ c.isLt (hne q).symm⟩
  · refine h.sorted.imp fun hab q r hq hr i j hi hj => ?_
    exact hab q r hq hr i j (hi.of_succ c.isLt (hne q)) (hj.of_succ c.isLt (hne r))

/-- **Moving the frame of every fault to the end keeps the order of loading.** -/
theorem LoadOrder.access [DecidableEq α] {w : Fin N → Option α} {c : Fin N} {p : α}
    {ps ps' : List α} {hit : Bool} {f : ℕ} {l : List ℕ} (h : LoadOrder w c ps l)
    (hl : l.Perm (List.range ps.length)) (hacc : Access F p ps hit f ps')
    (hw : w c = if hit then none else some p) :
    LoadOrder w (c + 1) ps' (if hit then l else l.erase f ++ [f]) := by
  have hnd : l.Nodup := hl.nodup_iff.mpr List.nodup_range
  have hsub := hacc.subset
  rcases hacc.inv with ⟨-, rfl, -, rfl⟩ | ⟨fresh, rfl, -, rfl, rfl⟩ |
    ⟨fresh, rfl, full, hf, rfl⟩
  · exact h.hit hw
  · refine h.load hnd hw fresh (by simp) (fun a ha _ => ?_) hsub
    have hlt := List.mem_range.mp (hl.mem_iff.mp ha)
    exact List.getElem?_append_left hlt
  · refine h.load hnd hw fresh ?_ (fun a _ hne => List.getElem?_set_ne hne.symm) hsub
    simp [full, hf]

variable [DecidableEq α]

/-! ## Moving a page to the front -/

/-- A page among the first `F` moves to the front of them. -/
theorem take_touch_of_mem {st : List α} {p : α} (h : p ∈ st.take F) :
    (p :: st.erase p).take F = p :: (st.take F).erase p := by
  have hF : F ≠ 0 := by
    rintro rfl
    simp at h
  have hsplit : st.erase p = (st.take F).erase p ++ st.drop F := by
    conv_lhs => rw [← List.take_append_drop F st]
    exact List.erase_append_left _ h
  have hlen : ((st.take F).erase p).length = min F st.length - 1 := by
    rw [List.length_erase_of_mem h, List.length_take]
  rw [hsplit, List.take_cons (Nat.pos_of_ne_zero hF)]
  congr 1
  rcases Nat.lt_or_ge st.length F with hlt | hge
  · rw [List.drop_of_length_le (by omega), List.append_nil,
      List.take_of_length_le (by omega)]
  · rw [List.take_append_of_le_length (by omega), List.take_of_length_le (by omega)]

/-- A page that is not among the first `F` pushes out the last of them. -/
theorem take_touch_of_notMem {st : List α} {p : α} (hF : 0 < F) (h : p ∉ st.take F) :
    (p :: st.erase p).take F = p :: st.take (F - 1) := by
  have hsplit : st.erase p = st.take F ++ (st.drop F).erase p := by
    conv_lhs => rw [← List.take_append_drop F st]
    exact List.erase_append_right _ h
  rw [hsplit, List.take_cons hF]
  congr 1
  rcases Nat.lt_or_ge st.length F with hlt | hge
  · rw [List.drop_of_length_le (by omega), List.erase_nil, List.append_nil,
      List.take_take, Nat.min_eq_left (by omega)]
  · rw [List.take_append_of_le_length (by rw [List.length_take]; omega), List.take_take,
      Nat.min_eq_left (by omega)]

/-! ## The list -/

def recency (w : Fin N → α) (k : ℕ) : List α :=
  ((List.finRange N).take k).foldl (fun st i => w i :: st.erase (w i)) []

@[simp] theorem recency_zero (w : Fin N → α) : recency w 0 = [] := rfl

theorem recency_succ (w : Fin N → α) {k : ℕ} (hk : k < N) :
    recency w (k + 1) = w ⟨k, hk⟩ :: (recency w k).erase (w ⟨k, hk⟩) := by
  rw [recency, take_succ_finRange hk, List.foldl_append]
  rfl

theorem recency_nodup (w : Fin N → α) : ∀ k ≤ N, (recency w k).Nodup := by
  intro k
  induction k with
  | zero => intro _; simp
  | succ k ih =>
      intro hk
      have hnd := ih (by omega)
      rw [recency_succ w hk, List.nodup_cons]
      exact ⟨hnd.not_mem_erase, hnd.erase _⟩

theorem mem_recency (w : Fin N → α) {q : α} :
    ∀ k ≤ N, q ∈ recency w k ↔ ∃ j : Fin N, (j : ℕ) < k ∧ w j = q := by
  intro k
  induction k with
  | zero => intro _; simp
  | succ k ih =>
      intro hk
      rw [recency_succ w hk, List.mem_cons]
      constructor
      · rintro (rfl | hq)
        · exact ⟨⟨k, hk⟩, Nat.lt_succ_self k, rfl⟩
        · obtain ⟨j, hj, hq⟩ := (ih (by omega)).mp (List.mem_of_mem_erase hq)
          exact ⟨j, by omega, hq⟩
      · rintro ⟨j, hj, rfl⟩
        by_cases heq : w j = w ⟨k, hk⟩
        · exact Or.inl heq
        · have hjk : (j : ℕ) < k := by
            rcases Nat.lt_or_ge j k with h | h
            · exact h
            · exact absurd (congrArg w (Fin.ext (by show (j : ℕ) = k; omega))) heq
          refine Or.inr ((List.mem_erase_of_ne heq).mpr ?_)
          exact (ih (by omega)).mpr ⟨j, hjk, rfl⟩

/-! ## Order by last use -/

theorem recency_sorted (w : Fin N → α) : ∀ k ≤ N,
    (recency w k).Pairwise fun a b =>
      ∀ i j, LastUse w k a i → LastUse w k b j → j < i := by
  intro k
  induction k with
  | zero => intro _; simp
  | succ k ih =>
      intro hk
      have hnd := recency_nodup w k (by omega)
      rw [recency_succ w hk, List.pairwise_cons]
      constructor
      · intro b hb i j hi hj
        have hb' : b ≠ w ⟨k, hk⟩ := by
          rintro rfl
          exact hnd.not_mem_erase hb
        have hjk := (hj.of_succ hk hb').lt
        -- the page just referenced was last used at `k`
        have hik : (i : ℕ) = k := by
          have hle := hi.lt
          by_contra hne
          exact hi.last ⟨k, hk⟩ (Fin.lt_def.mpr (by show (i : ℕ) < k; omega))
            (Nat.lt_succ_self k) rfl
        exact Fin.lt_def.mpr (by omega)
      · have hsub := (ih (by omega)).sublist (List.erase_sublist (a := w ⟨k, hk⟩))
        refine List.Pairwise.imp_of_mem ?_ hsub
        intro a b ha hb hab i j hi hj
        have hne : ∀ x ∈ (recency w k).erase (w ⟨k, hk⟩), x ≠ w ⟨k, hk⟩ := by
          rintro x hx rfl
          exact hnd.not_mem_erase hx
        exact hab i j (hi.of_succ hk (hne a ha)) (hj.of_succ hk (hne b hb))

/-- Among the first `F` pages the one used longest ago is the last. -/
theorem oldest_eq_last {w : Fin N → α} {k : ℕ} (hk : k ≤ N) (hF : 0 < F)
    (hlen : F ≤ (recency w k).length) {q : α} {jq : Fin N} (hq : q ∈ (recency w k).take F)
    (huse : LastUse w k q jq)
    (holdest : ∀ a ∈ (recency w k).take F, ∀ j, LastUse w k a j → jq ≤ j) {a : α}
    {ja : Fin N} (ha : (recency w k)[F - 1]? = some a) (hja : LastUse w k a ja) : q = a := by
  obtain ⟨i, hi, rfl⟩ := List.getElem_of_mem hq
  rw [List.length_take] at hi
  obtain ⟨hlast, rfl⟩ := List.getElem?_eq_some_iff.mp ha
  rw [List.getElem_take]
  rcases Nat.lt_or_ge i (F - 1) with hlt | hge
  · have hsorted := List.pairwise_iff_getElem.mp (recency_sorted w k hk) i (F - 1)
      (by omega) hlast hlt
    rw [List.getElem_take] at huse
    have hja' := hsorted jq ja huse hja
    have hmem : (recency w k)[F - 1] ∈ (recency w k).take F :=
      List.mem_take_iff_getElem.mpr ⟨F - 1, by omega, rfl⟩
    have hle := holdest _ hmem ja hja
    exact absurd hja' (not_lt.mpr hle)
  · congr 1
    omega

theorem exists_lastUse {w : Fin N → α} {q : α} : ∀ k ≤ N,
    (∃ j : Fin N, (j : ℕ) < k ∧ w j = q) → ∃ j, LastUse w k q j := by
  intro k
  induction k with
  | zero =>
      rintro - ⟨j, hj, -⟩
      exact absurd hj (Nat.not_lt_zero _)
  | succ k ih =>
      rintro hk ⟨j, hj, hjq⟩
      by_cases hq : w ⟨k, hk⟩ = q
      · refine ⟨⟨k, hk⟩, Nat.lt_succ_self k, hq, fun i hki hik => ?_⟩
        exact absurd hki (not_lt.mpr (Fin.le_def.mpr (Nat.le_of_lt_succ hik)))
      · have hjk : (j : ℕ) < k := by
          rcases Nat.lt_succ_iff_lt_or_eq.mp hj with h | h
          · exact h
          · exact absurd (by rw [← hjq]; exact congrArg w (Fin.ext h.symm)) hq
        obtain ⟨i, hi⟩ := ih (Nat.le_of_succ_le hk) ⟨j, hjk, hjq⟩
        exact ⟨i, hi.succ hk hq⟩

/-! ## The frame list of a memory that gives up the oldest page -/

/-- The frames hold the `F` pages used last. -/
def Recent (F : ℕ) (w : Fin N → α) (k : ℕ) (ps : List α) : Prop :=
  ∀ q, q ∈ ps ↔ q ∈ (recency w k).take F

theorem Recent.length_eq {w : Fin N → α} {k : ℕ} (hk : k ≤ N) {ps : List α}
    (h : Recent F w k ps) (hnd : ps.Nodup) :
    ps.length = ((recency w k).take F).length :=
  ((List.perm_ext_iff_of_nodup hnd ((recency_nodup w k hk).sublist
    (List.take_sublist F _))).mpr h).length_eq

/-- **The `F` pages used last stay in memory** when every fault in a full
memory gives up the page used longest ago. -/
theorem Recent.access {w : Fin N → α} {k : ℕ} (hk : k < N) (hF : 0 < F) {ps ps' : List α}
    {hit : Bool} {f : ℕ} (h : Recent F w k ps) (hnd : ps.Nodup)
    (hacc : Access F (w ⟨k, hk⟩) ps hit f ps')
    (holdest : hit = false → ps.length = F → OldestFrame w k ps f) :
    Recent F w (k + 1) ps' := by
  have hlen := h.length_eq hk.le hnd
  rw [List.length_take] at hlen
  intro q
  rw [recency_succ w hk]
  rcases hacc.inv with ⟨mem, -, -, rfl⟩ | ⟨fresh, -, room, -, rfl⟩ |
    ⟨fresh, hmiss, full, hf, rfl⟩
  · have hmem := (h _).mp mem
    rw [take_touch_of_mem hmem, h q, List.mem_cons]
    by_cases hq : q = w ⟨k, hk⟩
    · subst hq
      exact iff_of_true hmem (Or.inl rfl)
    · rw [List.mem_erase_of_ne hq]
      exact ⟨Or.inr, fun hor => hor.resolve_left hq⟩
  · have hshort : (recency w k).length ≤ F - 1 := by omega
    rw [take_touch_of_notMem hF (fun hm => fresh ((h _).mpr hm)), List.mem_append,
      List.mem_singleton, h q, List.take_of_length_le hshort,
      List.take_of_length_le (by omega), List.mem_cons, or_comm]
  · obtain ⟨v, jv, hv, hjv, hfirst⟩ := holdest hmiss full
    obtain ⟨hlt, rfl⟩ := List.getElem?_eq_some_iff.mp hv
    have hbound : F - 1 < (recency w k).length := by omega
    -- the victim is the last of the `F` pages used last
    have hlast : ps[f] = (recency w k)[F - 1] := by
      have hmem := (mem_recency w k hk.le).mp (List.getElem_mem hbound)
      obtain ⟨ja, hja⟩ := exists_lastUse k hk.le hmem
      refine oldest_eq_last hk.le hF (by omega) ((h _).mp (List.getElem_mem hlt)) hjv
        (fun a ha => hfirst a ((h a).mpr ha)) (List.getElem?_eq_getElem hbound) hja
    have hsplit : (recency w k).take F = (recency w k).take (F - 1) ++ [ps[f]] := by
      rw [hlast, ← List.take_succ_eq_append_getElem hbound, Nat.sub_add_cancel hF]
    have hnd' : ((recency w k).take F).Nodup :=
      (recency_nodup w k hk.le).sublist (List.take_sublist F _)
    rw [take_touch_of_notMem hF (fun hm => fresh ((h _).mpr hm)), mem_set_iff hnd hlt,
      List.mem_cons, h q, hsplit, List.mem_append, List.mem_singleton]
    rw [hsplit, List.nodup_append] at hnd'
    constructor
    · rintro (rfl | ⟨hq | hq, hne⟩)
      · exact Or.inl rfl
      · exact Or.inr hq
      · exact absurd hq hne
    · rintro (rfl | hq)
      · exact Or.inl rfl
      · exact Or.inr ⟨Or.inl hq, hnd'.2.2 q hq _ (List.mem_singleton.mpr rfl)⟩

end OS2023.Lib
