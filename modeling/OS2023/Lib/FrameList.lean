import OS2023.Lib.Loops
import Mathlib.Data.Finset.Card
import Mathlib.Data.List.Nodup
import Mathlib.Data.List.Dedup

/-!
# Demand paging on frame lists

The contents of a memory of `F` frames that is filled from frame 0 on are a
list without repetitions: entry `i` is the page in frame `i`. `Access F p ps
hit f ps'` is one reference to page `p` under demand paging, whatever the
replacement policy: a hit changes nothing, a fault loads `p` into the next free
frame, or into the frame of a victim when there is none. `f` is the frame that
holds `p` afterwards.
-/

namespace OS2023.Lib

variable {α : Type*}

/-! ## Lists without repetitions -/

theorem nodup_set {l : List α} (hl : l.Nodup) {v : ℕ} {a : α} (ha : a ∉ l) :
    (l.set v a).Nodup := by
  rw [List.nodup_iff_injective_getElem] at hl ⊢
  intro i j hij
  have hi : (i : ℕ) < l.length := by simpa using i.isLt
  have hj : (j : ℕ) < l.length := by simpa using j.isLt
  simp only [List.getElem_set] at hij
  split at hij <;> split at hij
  · exact Fin.ext (by omega)
  · exact absurd (List.mem_of_getElem hij.symm) ha
  · exact absurd (List.mem_of_getElem hij) ha
  · have := @hl ⟨i, hi⟩ ⟨j, hj⟩ hij
    exact Fin.ext (by simpa using this)

theorem mem_set_iff {l : List α} (hl : l.Nodup) {v : ℕ} (hv : v < l.length)
    {a x : α} : x ∈ l.set v a ↔ x = a ∨ x ∈ l ∧ x ≠ l[v] := by
  constructor
  · intro hx
    obtain ⟨i, hi, hix⟩ := List.getElem_of_mem hx
    rw [List.getElem_set] at hix
    rw [List.length_set] at hi
    split at hix
    · exact Or.inl hix.symm
    · rename_i hne
      refine Or.inr ⟨List.mem_of_getElem hix, fun heq => hne ?_⟩
      exact ((hl.getElem_inj_iff).mp (hix.trans heq)).symm
  · rintro (rfl | ⟨hx, hne⟩)
    · exact List.mem_set hv _
    · obtain ⟨i, hi, rfl⟩ := List.getElem_of_mem hx
      have hiv : v ≠ i := by
        rintro rfl
        exact hne rfl
      refine List.mem_of_getElem (i := i) (h := by simpa using hi) ?_
      rw [List.getElem_set_ne hiv]

variable [DecidableEq α]

theorem toFinset_snoc (l : List α) (a : α) : (l ++ [a]).toFinset = insert a l.toFinset := by
  rw [List.toFinset_append, List.toFinset_cons, List.toFinset_nil, Finset.union_comm]
  rfl

theorem toFinset_set {l : List α} (hl : l.Nodup) {v : ℕ} (hv : v < l.length) (a : α) :
    (l.set v a).toFinset = insert a (l.toFinset.erase l[v]) := by
  ext x
  rw [List.mem_toFinset, mem_set_iff hl hv, Finset.mem_insert, Finset.mem_erase,
    List.mem_toFinset, and_comm]

theorem idxOf_map {β : Type*} [DecidableEq β] {g : α → β} (hg : Function.Injective g)
    (a : α) (l : List α) : (l.map g).idxOf (g a) = l.idxOf a := by
  induction l with
  | nil => rfl
  | cons b l ih =>
      rw [List.map_cons, List.idxOf_cons, List.idxOf_cons, ih]
      by_cases h : b = a
      · simp [h]
      · have hg' : g b ≠ g a := fun heq => h (hg heq)
        rw [beq_false_of_ne h, beq_false_of_ne hg']

theorem idxOf_set_self {l : List α} (hl : l.Nodup) {v : ℕ} (hv : v < l.length)
    {a : α} (ha : a ∉ l) : (l.set v a).idxOf a = v := by
  have hv' : v < (l.set v a).length := by simpa using hv
  have hget : (l.set v a)[v] = a := List.getElem_set_self _
  have := (nodup_set hl (v := v) ha).idxOf_getElem v hv'
  rwa [hget] at this

theorem idxOf_set_of_ne {l : List α} (hl : l.Nodup) {v : ℕ}
    {a x : α} (ha : a ∉ l) (hx : x ∈ l) (hne : l.idxOf x ≠ v) :
    (l.set v a).idxOf x = l.idxOf x := by
  have hlt := List.idxOf_lt_length_of_mem hx
  have hlt' : l.idxOf x < (l.set v a).length := by simpa using hlt
  have hget : (l.set v a)[l.idxOf x] = x := by
    rw [List.getElem_set_ne (Ne.symm hne)]
    exact List.getElem_idxOf hlt
  have := (nodup_set hl (v := v) ha).idxOf_getElem (l.idxOf x) hlt'
  rwa [hget] at this

/-! ## References -/

inductive Access (F : ℕ) (p : α) : List α → Bool → ℕ → List α → Prop where
  | hit {ps : List α} (mem : p ∈ ps) : Access F p ps true (ps.idxOf p) ps
  | load {ps : List α} (fresh : p ∉ ps) (room : ps.length < F) :
      Access F p ps false ps.length (ps ++ [p])
  | replace {ps : List α} {v : ℕ} (fresh : p ∉ ps) (full : ps.length = F)
      (victim : v < F) : Access F p ps false v (ps.set v p)

variable {F f : ℕ} {p : α} {ps ps' : List α} {hit : Bool}

/-- All that a reference can do, as equations. -/
theorem Access.inv (h : Access F p ps hit f ps') :
    (p ∈ ps ∧ hit = true ∧ f = ps.idxOf p ∧ ps' = ps) ∨
    (p ∉ ps ∧ hit = false ∧ ps.length < F ∧ f = ps.length ∧ ps' = ps ++ [p]) ∨
    (p ∉ ps ∧ hit = false ∧ ps.length = F ∧ f < F ∧ ps' = ps.set f p) := by
  cases h with
  | hit mem => exact Or.inl ⟨mem, rfl, rfl, rfl⟩
  | load fresh room => exact Or.inr (Or.inl ⟨fresh, rfl, room, rfl, rfl⟩)
  | replace fresh full victim => exact Or.inr (Or.inr ⟨fresh, rfl, full, victim, rfl⟩)

/-! ## What one reference keeps and establishes -/

/-- A hit leaves the frames as they are. -/
theorem Access.eq_of_hit (h : Access F p ps hit f ps') (hhit : hit = true) : ps' = ps := by
  subst hhit
  cases h with
  | hit mem => rfl

/-- A miss takes a free frame or one that is given up. -/
theorem Access.inv_of_miss (h : Access F p ps hit f ps') (hmiss : hit = false) :
    (ps.length < F ∧ f = ps.length ∧ ps' = ps ++ [p]) ∨
    (ps.length = F ∧ f < F ∧ ps' = ps.set f p) := by
  subst hmiss
  cases h with
  | load fresh room => exact Or.inl ⟨room, rfl, rfl⟩
  | replace fresh full victim => exact Or.inr ⟨full, victim, rfl⟩

theorem Access.nodup (h : Access F p ps hit f ps') (hps : ps.Nodup) : ps'.Nodup := by
  cases h with
  | hit mem => exact hps
  | load fresh room =>
      refine List.nodup_append.mpr ⟨hps, List.nodup_singleton p, ?_⟩
      rintro a ha b hb rfl
      exact fresh (List.mem_singleton.mp hb ▸ ha)
  | replace fresh full victim => exact nodup_set hps fresh

theorem Access.length_le (h : Access F p ps hit f ps') (hps : ps.length ≤ F) :
    ps'.length ≤ F := by
  cases h with
  | hit mem => exact hps
  | load fresh room => simpa [Nat.succ_le_iff] using room
  | replace fresh full victim => simpa using hps

theorem Access.mem (h : Access F p ps hit f ps') : p ∈ ps' := by
  cases h with
  | hit mem => exact mem
  | load fresh room => simp
  | replace fresh full victim => exact List.mem_set (by omega) p

/-- The frame reported by a reference is the one that holds the page. -/
theorem Access.idxOf_eq (h : Access F p ps hit f ps') (hps : ps.Nodup) :
    ps'.idxOf p = f := by
  cases h with
  | hit mem => rfl
  | load fresh room => rw [List.idxOf_append_of_notMem fresh]; simp
  | replace fresh full victim => exact idxOf_set_self hps (by omega) fresh

theorem Access.hit_iff (h : Access F p ps hit f ps') : hit = true ↔ p ∈ ps := by
  cases h with
  | hit mem => exact iff_of_true rfl mem
  | load fresh room => exact iff_of_false (by simp) fresh
  | replace fresh full victim => exact iff_of_false (by simp) fresh

theorem Access.fresh_of_miss (h : Access F p ps hit f ps') (hmiss : hit = false) : p ∉ ps := by
  rw [← h.hit_iff, hmiss]
  exact Bool.false_ne_true

/-- The number of used frames grows by the fresh loads. -/
theorem Access.length_mono (h : Access F p ps hit f ps') : ps.length ≤ ps'.length := by
  cases h with
  | hit mem => exact le_rfl
  | load fresh room => simp
  | replace fresh full victim => simp

/-- A miss takes one more frame as long as there is one. -/
theorem Access.length_of_miss (h : Access F p ps hit f ps') (hmiss : hit = false) :
    ps'.length = min F (ps.length + 1) := by
  rcases h.inv_of_miss hmiss with ⟨room, -, rfl⟩ | ⟨full, -, rfl⟩
  · rw [List.length_append, List.length_singleton, min_eq_right (Nat.succ_le_of_lt room)]
  · rw [List.length_set, full, min_eq_left (Nat.le_succ F)]

/-- Nothing but the referenced page enters. -/
theorem Access.subset (h : Access F p ps hit f ps') : ps' ⊆ p :: ps := by
  intro x hx
  cases h with
  | hit mem => exact List.mem_cons_of_mem _ hx
  | load fresh room =>
      rcases List.mem_append.mp hx with hx | hx
      · exact List.mem_cons_of_mem _ hx
      · exact List.mem_cons.mpr (Or.inl (List.mem_singleton.mp hx))
  | replace fresh full victim =>
      rcases List.mem_or_eq_of_mem_set hx with hx | rfl
      · exact List.mem_cons_of_mem _ hx
      · exact List.mem_cons_self

/-- A page that stays keeps its frame. -/
theorem Access.idxOf_eq_of_stay (h : Access F p ps hit f ps') (hps : ps.Nodup) {q : α}
    (hq : q ∈ ps) (hq' : q ∈ ps') : ps'.idxOf q = ps.idxOf q := by
  cases h with
  | hit mem => rfl
  | load fresh room => exact List.idxOf_append_of_mem hq
  | replace fresh full victim =>
      refine idxOf_set_of_ne hps fresh hq fun heq => ?_
      have hlt : f < ps.length := full.symm ▸ victim
      have hout : q = ps[f] := by
        simp only [← heq]
        exact (List.getElem_idxOf (List.idxOf_lt_length_of_mem hq)).symm
      rcases (mem_set_iff hps hlt).mp hq' with rfl | ⟨-, hne⟩
      · exact fresh hq
      · exact hne hout

/-- What a fault does to the set of resident pages, with and without a free
frame. -/
theorem Access.toFinset_of_room (h : Access F p ps hit f ps') (hmiss : hit = false)
    (room : ps.length < F) : ps'.toFinset = insert p ps.toFinset := by
  rcases h.inv_of_miss hmiss with ⟨-, -, rfl⟩ | ⟨full, -⟩
  · exact toFinset_snoc ps p
  · exact absurd full room.ne

theorem Access.toFinset_of_full (h : Access F p ps hit f ps') (hmiss : hit = false)
    (full : ps.length = F) (hnd : ps.Nodup) (hf : f < ps.length) :
    ps'.toFinset = insert p (ps.toFinset.erase ps[f]) := by
  rcases h.inv_of_miss hmiss with ⟨room, -⟩ | ⟨-, -, rfl⟩
  · exact absurd full room.ne
  · exact toFinset_set hnd hf p

/-- A queue of the used frames that moves the frame of every fault to its end
stays a queue of the used frames. -/
theorem Access.queue_perm (h : Access F p ps hit f ps') {l : List ℕ}
    (hl : l.Perm (List.range ps.length)) :
    (if hit then l else l.erase f ++ [f]).Perm (List.range ps'.length) := by
  cases h with
  | hit mem => exact hl
  | load fresh room =>
      have hnot : ps.length ∉ l := by
        rw [hl.mem_iff]
        simp
      rw [List.erase_of_not_mem hnot, List.length_append, List.length_singleton,
        List.range_succ]
      exact hl.append_right [ps.length]
  | replace fresh full victim =>
      have hmem : f ∈ l := by
        rw [hl.mem_iff, List.mem_range, full]
        exact victim
      rw [List.length_set]
      refine List.Perm.trans ?_ hl
      exact (List.perm_append_singleton f (l.erase f)).trans (List.perm_cons_erase hmem).symm

/-! ## Two memories in step -/

/-- A hit or a load of a renamed page in a renamed memory is that of the page;
so is a replacement, if both give up the same frame. -/
theorem Access.rename {β : Type*} [DecidableEq β] {g : α → β} (hg : Function.Injective g)
    (h : Access F p ps hit f ps') {hit' : Bool} {f' : ℕ} {qs' : List β}
    (h' : Access F (g p) (ps.map g) hit' f' qs')
    (hvictim : hit = false → hit' = false → ps.length = F → f' = f) :
    hit' = hit ∧ f' = f ∧ qs' = ps'.map g := by
  have hmem : g p ∈ ps.map g ↔ p ∈ ps := List.mem_map_of_injective hg
  have hlen : (ps.map g).length = ps.length := List.length_map g
  rcases h.inv with ⟨mem, rfl, rfl, rfl⟩ | ⟨fresh, rfl, room, rfl, rfl⟩ |
    ⟨fresh, rfl, full, -, rfl⟩
  · rcases h'.inv with ⟨-, rfl, rfl, rfl⟩ | ⟨fresh', -⟩ | ⟨fresh', -⟩
    · exact ⟨rfl, idxOf_map hg p _, rfl⟩
    · exact absurd (hmem.mpr mem) fresh'
    · exact absurd (hmem.mpr mem) fresh'
  · rcases h'.inv with ⟨mem', -⟩ | ⟨-, rfl, -, rfl, rfl⟩ | ⟨-, -, full', -⟩
    · exact absurd (hmem.mp mem') fresh
    · exact ⟨rfl, hlen, by simp⟩
    · omega
  · rcases h'.inv with ⟨mem', -⟩ | ⟨-, -, room', -⟩ | ⟨-, rfl, -, -, rfl⟩
    · exact absurd (hmem.mp mem') fresh
    · omega
    · obtain rfl := hvictim rfl rfl full
      exact ⟨rfl, rfl, List.map_set.symm⟩

/-! ## While memory fills -/

section Arrivals

variable {N : ℕ} (w : Fin N → α)

/-- The pages of the first `k` references, in the order of their first. -/
def arrivals (k : ℕ) : List α :=
  ((List.finRange N).take k).foldl (fun l i => if w i ∈ l then l else l ++ [w i]) []

theorem arrivals_succ {k : ℕ} (hk : k < N) :
    arrivals w (k + 1) =
      if w ⟨k, hk⟩ ∈ arrivals w k then arrivals w k else arrivals w k ++ [w ⟨k, hk⟩] := by
  rw [arrivals, take_succ_finRange hk, List.foldl_append]
  rfl

theorem arrivals_extend_succ {k : ℕ} (hk : k < N) :
    arrivals w k <+: arrivals w (k + 1) := by
  rw [arrivals_succ w hk]
  split
  · exact List.prefix_rfl
  · exact List.prefix_append _ _

theorem arrivals_extend {j k : ℕ} (hjk : j ≤ k) (hk : k ≤ N) :
    arrivals w j <+: arrivals w k := by
  induction k, hjk using Nat.le_induction with
  | base => exact List.prefix_rfl
  | succ k _ ih => exact (ih (Nat.le_of_succ_le hk)).trans (arrivals_extend_succ w hk)

theorem mem_arrivals_succ {k : ℕ} (hk : k < N) : w ⟨k, hk⟩ ∈ arrivals w (k + 1) := by
  rw [arrivals_succ w hk]
  split
  · assumption
  · simp

theorem arrivals_nodup : ∀ k ≤ N, (arrivals w k).Nodup := by
  intro k
  induction k with
  | zero => exact fun _ => List.nodup_nil
  | succ k ih =>
      intro hk
      have hnd := ih (Nat.le_of_succ_le hk)
      rw [arrivals_succ w hk]
      split
      · exact hnd
      · rename_i fresh
        refine List.nodup_append.mpr ⟨hnd, List.nodup_singleton _, ?_⟩
        rintro a ha b hb rfl
        exact fresh (List.mem_singleton.mp hb ▸ ha)

/-- **A memory with room for all pages so far holds them in the order of their
arrival**, whatever the replacement policy: it never has to replace one. -/
theorem Access.arrivals {c : Fin N} (h : Access F (w c) (arrivals w c) hit f ps')
    (hroom : (Lib.arrivals w (c + 1)).length ≤ F) :
    ps' = Lib.arrivals w (c + 1) ∧ f = (Lib.arrivals w (c + 1)).idxOf (w c) := by
  have hsucc := arrivals_succ w c.isLt
  rcases h.inv with ⟨mem, -, hf, rfl⟩ | ⟨fresh, -, -, hf, rfl⟩ | ⟨fresh, -, full, -, -⟩
  · rw [if_pos mem] at hsucc
    rw [hsucc]
    exact ⟨rfl, hf⟩
  · rw [if_neg fresh] at hsucc
    rw [hsucc, List.idxOf_append_of_notMem fresh]
    exact ⟨rfl, by simpa using hf⟩
  · rw [hsucc, if_neg fresh, List.length_append, List.length_singleton] at hroom
    omega

end Arrivals

end OS2023.Lib
