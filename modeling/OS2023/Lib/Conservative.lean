import OS2023.Lib.Belady
import OS2023.Lib.Recency
import OS2023.Lib.Rotation

/-!
# Conservative replacement

A memory of `F` frames is conservative when a page that faults twice has seen
more than `F` different pages go by in between. In a window of at most `F`
different pages every page then faults once at most, whatever was resident in
front of the window.

First-in first-out and least-recently-used replacement are conservative, for
different reasons: the one because `F + 1` loads in a row are of different
pages, the other because the `F` pages in memory were all used after the one
that is not.
-/

namespace OS2023.Lib

open Finset

variable {α : Type*} {N F : ℕ}

/-! ## Entries in a row -/

/-- Any `F + 1` entries in a row are different. -/
def Spaced (F : ℕ) (l : List α) : Prop :=
  ∀ a b, a < b → b ≤ a + F → ∀ p, l[a]? = some p → l[b]? ≠ some p

theorem Spaced.snoc {l : List α} (h : Spaced F l) {p : α}
    (hout : p ∉ l.drop (l.length - F)) : Spaced F (l ++ [p]) := by
  intro a b hab hba q hqa hqb
  obtain ⟨hb, -⟩ := List.getElem?_eq_some_iff.mp hqb
  rw [List.length_append, List.length_singleton] at hb
  rw [List.getElem?_append_left (by omega)] at hqa
  rcases Nat.lt_or_eq_of_le (Nat.le_of_lt_succ hb) with hlt | rfl
  · rw [List.getElem?_append_left hlt] at hqb
    exact h a b hab hba q hqa hqb
  · -- the new entry is not among the last `F`
    obtain ⟨ha, hqa⟩ := List.getElem?_eq_some_iff.mp hqa
    rw [List.getElem?_concat_length, Option.some.injEq] at hqb
    refine hout (List.mem_drop_iff_getElem.mpr ⟨a - (l.length - F), by omega, ?_⟩)
    rw [hqb, ← hqa]
    congr 1
    omega

theorem Spaced.nodup {pre l : List α} (h : Spaced F (pre ++ l)) : (l.take (F + 1)).Nodup := by
  apply List.pairwise_iff_getElem.mpr
  intro a b ha hb hab heq
  rw [List.length_take] at ha hb
  rw [List.getElem_take, List.getElem_take] at heq
  have hplace : ∀ c, (pre ++ l)[pre.length + c]? = l[c]? := by
    intro c
    rw [List.getElem?_append_right (Nat.le_add_right _ _), Nat.add_sub_cancel_left]
  refine h _ _ (Nat.add_lt_add_left hab pre.length) (by omega) l[a] ?_ ?_
  · rw [hplace, List.getElem?_eq_getElem]
  · rw [hplace, heq, List.getElem?_eq_getElem]

variable [DecidableEq α] {w : Fin N → α}

/-! ## Windows -/

def Conservative (F : ℕ) (w : Fin N → α) (R : ℕ → Finset α) : Prop :=
  ∀ i j : Fin N, i < j → w i = w j → w i ∉ R i → w j ∉ R j → F < (upcoming w i j).card

theorem upcoming_subset {i t a b : ℕ} (hai : a ≤ i) (htb : t ≤ b) :
    upcoming w i t ⊆ upcoming w a b := by
  intro q hq
  obtain ⟨j, hij, hjt, hj⟩ := mem_upcoming.mp hq
  exact mem_upcoming.mpr ⟨j, hai.trans hij, hjt.trans_le htb, hj⟩

section Window

variable {R : ℕ → Finset α} {a b : ℕ}

/-- In a window of few pages no page faults twice. -/
theorem Conservative.once (h : Conservative F w R) (hfew : (upcoming w a b).card ≤ F)
    {i j : Fin N} (hai : a ≤ (i : ℕ)) (hij : i < j) (hjb : (j : ℕ) < b) (hw : w i = w j)
    (hi : w i ∉ R i) : w j ∈ R j := by
  by_contra hj
  have hmany := h i j hij hw hi hj
  have hle := card_le_card (upcoming_subset (w := w) hai hjb.le)
  exact absurd hfew (not_le.mpr (hmany.trans_le hle))

/-- **A window of few pages has at most one fault for each of them.** -/
theorem Conservative.faults_le (h : Conservative F w R) (hfew : (upcoming w a b).card ≤ F) :
    faults w R b ≤ faults w R a + (upcoming w a b).card := by
  have hsplit : (univ.filter fun j : Fin N => (j : ℕ) < b ∧ w j ∉ R j) ⊆
      (univ.filter fun j : Fin N => (j : ℕ) < a ∧ w j ∉ R j) ∪
        univ.filter fun j : Fin N => (a ≤ (j : ℕ) ∧ (j : ℕ) < b) ∧ w j ∉ R j := by
    intro j hj
    simp only [mem_filter, mem_univ, true_and, mem_union] at hj ⊢
    rcases Nat.lt_or_ge j a with hja | hja
    · exact Or.inl ⟨hja, hj.2⟩
    · exact Or.inr ⟨⟨hja, hj.1⟩, hj.2⟩
  have hinside : (univ.filter fun j : Fin N =>
      (a ≤ (j : ℕ) ∧ (j : ℕ) < b) ∧ w j ∉ R j).card ≤ (upcoming w a b).card := by
    refine card_le_card_of_injOn w (fun j hj => ?_) fun i hi j hj hij => ?_
    · have hj := (mem_filter.mp hj).2
      exact mem_upcoming.mpr ⟨j, hj.1.1, hj.1.2, rfl⟩
    · have hi := (mem_filter.mp hi).2
      have hj := (mem_filter.mp hj).2
      rcases lt_trichotomy i j with hlt | heq | hgt
      · exact absurd (h.once hfew hi.1.1 hlt hj.1.2 hij hi.2) hj.2
      · exact heq
      · exact absurd (h.once hfew hj.1.1 hgt hi.1.2 hij.symm hj.2) hi.2
  unfold faults
  exact (card_le_card hsplit).trans ((card_union_le _ _).trans (Nat.add_le_add_left hinside _))

end Window

/-! ## Least recently used -/

/-- A page that is no longer among the `F` pages used last has seen `F` others. -/
theorem lt_card_of_notMem_recency {i : Fin N} {k : ℕ} (hik : (i : ℕ) < k) (hk : k ≤ N)
    (hout : w i ∉ (recency w k).take F) : F < (upcoming w i k).card := by
  have hnd := recency_nodup w k hk
  have hmem : w i ∈ recency w k := (mem_recency w k hk).mpr ⟨i, hik, rfl⟩
  obtain ⟨n, hn, hwn⟩ := List.getElem_of_mem hmem
  have hFn : F ≤ n := by
    by_contra hlt
    refine hout (List.mem_take_iff_getElem.mpr ⟨n, ?_, hwn⟩)
    exact lt_min (Nat.lt_of_not_le hlt) hn
  obtain ⟨jp, hjp⟩ := exists_lastUse (w := w) k hk ⟨i, hik, rfl⟩
  have hijp : i ≤ jp := by
    by_contra hlt
    exact hjp.last i (not_le.mp hlt) hik rfl
  -- the first `F` pages were used after the page at place `n`
  have hlater : ∀ q ∈ (recency w k).take F, q ∈ upcoming w i k := by
    intro q hq
    obtain ⟨m, hm, rfl⟩ := List.mem_take_iff_getElem.mp hq
    have hmF : m < F := lt_of_lt_of_le hm (min_le_left _ _)
    have hml : m < (recency w k).length := lt_of_lt_of_le hm (min_le_right _ _)
    obtain ⟨jq, hjq⟩ := exists_lastUse k hk ((mem_recency w k hk).mp (List.getElem_mem hml))
    have hsorted := List.pairwise_iff_getElem.mp (recency_sorted w k hk) m n hml hn
      (hmF.trans_le hFn) jq jp hjq (hwn ▸ hjp)
    exact mem_upcoming.mpr ⟨jq, (Fin.le_def.mp hijp).trans (Fin.lt_def.mp hsorted).le, hjq.lt,
      hjq.eq⟩
  have hsub : insert (w i) ((recency w k).take F).toFinset ⊆ upcoming w i k := by
    intro q hq
    rcases mem_insert.mp hq with rfl | hq
    · exact mem_upcoming.mpr ⟨i, le_rfl, hik, rfl⟩
    · exact hlater q (List.mem_toFinset.mp hq)
  calc F + 1 = (insert (w i) ((recency w k).take F).toFinset).card := by
        rw [card_insert_of_notMem fun hin => hout (List.mem_toFinset.mp hin),
          List.toFinset_card_of_nodup (hnd.sublist (List.take_sublist F _)), List.length_take,
          min_eq_left (hFn.trans hn.le)]
    _ ≤ (upcoming w i k).card := card_le_card hsub

/-- A page among the `F` pages used last has seen at most `F` pages, itself
included, since its last use. -/
theorem card_le_of_mem_recency {k : ℕ} (hk : k ≤ N) {q : α} {j : Fin N}
    (hj : LastUse w k q j) (hin : q ∈ (recency w k).take F) : (upcoming w j k).card ≤ F := by
  obtain ⟨n, hn, hqn⟩ := List.mem_take_iff_getElem.mp hin
  have hnF : n < F := lt_of_lt_of_le hn (min_le_left _ _)
  have hnl : n < (recency w k).length := lt_of_lt_of_le hn (min_le_right _ _)
  have hsub : upcoming w j k ⊆ ((recency w k).take (n + 1)).toFinset := by
    intro p hp
    obtain ⟨i, hji, hik, rfl⟩ := mem_upcoming.mp hp
    obtain ⟨jp, hjp⟩ := exists_lastUse (w := w) k hk ⟨i, hik, rfl⟩
    obtain ⟨l, hl, hwl⟩ := List.getElem_of_mem ((mem_recency w k hk).mpr ⟨i, hik, rfl⟩)
    rw [List.mem_toFinset]
    refine List.mem_take_iff_getElem.mpr ⟨l, lt_min ?_ hl, hwl⟩
    -- a page behind place `n` was last used in front of `j`
    by_contra hgt
    have hsorted := List.pairwise_iff_getElem.mp (recency_sorted w k hk) n l hnl hl
      (by omega) j jp (hqn ▸ hj) (hwl ▸ hjp)
    have hjpi : ¬ jp < i := fun hlt => hjp.last i hlt hik rfl
    have := Fin.lt_def.mp hsorted
    exact hjpi (Fin.lt_def.mpr (by omega))
  calc (upcoming w j k).card ≤ ((recency w k).take (n + 1)).toFinset.card := card_le_card hsub
    _ ≤ ((recency w k).take (n + 1)).length := List.toFinset_card_le _
    _ ≤ n + 1 := List.length_take_le _ _
    _ ≤ F := hnF

/-- **The memory that the `F` pages used last make up, read off the string.** -/
theorem mem_recency_take_iff {k : ℕ} (hk : k ≤ N) {q : α} :
    q ∈ (recency w k).take F ↔
      ∃ j : Fin N, (j : ℕ) < k ∧ w j = q ∧ (upcoming w j k).card ≤ F := by
  constructor
  · intro hin
    obtain ⟨i, hik, hi⟩ := (mem_recency w k hk).mp (List.mem_of_mem_take hin)
    obtain ⟨j, hj⟩ := exists_lastUse (w := w) k hk ⟨i, hik, hi⟩
    exact ⟨j, hj.lt, hj.eq, card_le_of_mem_recency hk hj hin⟩
  · rintro ⟨j, hjk, rfl, hfew⟩
    by_contra hout
    exact absurd hfew (not_le.mpr (lt_card_of_notMem_recency hjk hk hout))

theorem conservative_of_recency {R : ℕ → Finset α}
    (hR : ∀ k ≤ N, ∀ q, q ∈ R k ↔ q ∈ (recency w k).take F) : Conservative F w R := by
  intro i j hij hw _ hj
  refine lt_card_of_notMem_recency (Fin.lt_def.mp hij) j.isLt.le fun hin => hj ?_
  rw [← hw]
  exact (hR j j.isLt.le (w i)).mpr hin

/-! ## First in, first out -/

/-- `F + 1` loads in a row are of different pages. -/
theorem fifoLoads_spaced (F : ℕ) (w : Fin N → α) : ∀ k ≤ N, Spaced F (fifoLoads F w k) := by
  intro k
  induction k with
  | zero =>
      intro _ a b _ _ p hp
      simp [fifoLoads] at hp
  | succ k ih =>
      intro hk
      have hspaced := ih (Nat.le_of_succ_le hk)
      rw [fifoLoads_succ F w hk]
      split
      · exact hspaced
      · rename_i hout
        exact hspaced.snoc hout

/-- What is loaded from a fault on was referenced from there on. -/
theorem fifoLoads_from {i : Fin N}
    (hout : w i ∉ (fifoLoads F w i).drop ((fifoLoads F w i).length - F)) :
    ∀ k, (i : ℕ) < k → k ≤ N → ∃ rest, fifoLoads F w k = fifoLoads F w i ++ w i :: rest ∧
      ∀ q ∈ w i :: rest, q ∈ upcoming w i k := by
  intro k hik
  induction k, hik using Nat.le_induction with
  | base =>
      intro hi
      refine ⟨[], ?_, fun q hq => ?_⟩
      · rw [fifoLoads_succ F w hi, if_neg hout]
      · rw [List.mem_singleton.mp hq]
        exact mem_upcoming.mpr ⟨i, le_rfl, Nat.lt_succ_self _, rfl⟩
  | succ k hik ih =>
      intro hk
      obtain ⟨rest, hrest, hup⟩ := ih (Nat.le_of_succ_le hk)
      have hgrow := upcoming_subset (w := w) (i := i) le_rfl (Nat.le_succ k)
      rw [fifoLoads_succ F w hk]
      split
      · exact ⟨rest, hrest, fun q hq => hgrow (hup q hq)⟩
      · refine ⟨rest ++ [w ⟨k, hk⟩], ?_, fun q hq => ?_⟩
        · rw [hrest, List.append_assoc]
          rfl
        · rw [← List.cons_append, List.mem_append, List.mem_singleton] at hq
          rcases hq with hq | rfl
          · exact hgrow (hup q hq)
          · exact mem_upcoming.mpr ⟨⟨k, hk⟩, (Nat.le_succ _).trans hik, Nat.lt_succ_self k, rfl⟩

/-- A page that was loaded and is no longer among the last `F` loads has seen `F`
others. -/
theorem lt_card_of_notMem_fifoLoads {i : Fin N} {k : ℕ} (hik : (i : ℕ) < k) (hk : k ≤ N)
    (hload : w i ∉ (fifoLoads F w i).drop ((fifoLoads F w i).length - F))
    (hout : w i ∉ (fifoLoads F w k).drop ((fifoLoads F w k).length - F)) :
    F < (upcoming w i k).card := by
  obtain ⟨rest, hrest, hup⟩ := fifoLoads_from hload k hik hk
  have hspaced := fifoLoads_spaced F w k hk
  rw [hrest] at hspaced hout
  have hlong : F ≤ rest.length := by
    by_contra hlt
    have hdrop : (fifoLoads F w i ++ w i :: rest).length - F ≤ (fifoLoads F w i).length := by
      rw [List.length_append, List.length_cons]
      omega
    apply hout
    rw [List.drop_append_of_le_length hdrop]
    exact List.mem_append_right _ List.mem_cons_self
  have hsub : ((w i :: rest).take (F + 1)).toFinset ⊆ upcoming w i k := fun q hq =>
    hup q (List.mem_of_mem_take (List.mem_toFinset.mp hq))
  calc F + 1 = ((w i :: rest).take (F + 1)).length := by
        rw [List.length_take, List.length_cons, min_eq_left (Nat.succ_le_succ hlong)]
    _ = ((w i :: rest).take (F + 1)).toFinset.card :=
        (List.toFinset_card_of_nodup hspaced.nodup).symm
    _ ≤ (upcoming w i k).card := card_le_card hsub

theorem conservative_of_fifoLoads {R : ℕ → Finset α}
    (hR : ∀ k ≤ N, ∀ q, q ∈ R k ↔
      q ∈ (fifoLoads F w k).drop ((fifoLoads F w k).length - F)) : Conservative F w R := by
  intro i j hij hw hi hj
  refine lt_card_of_notMem_fifoLoads (Fin.lt_def.mp hij) j.isLt.le (fun hin => hi ?_)
    fun hin => hj ?_
  · exact (hR i i.isLt.le (w i)).mpr hin
  · rw [← hw]
    exact (hR j j.isLt.le (w i)).mpr hin

end OS2023.Lib
