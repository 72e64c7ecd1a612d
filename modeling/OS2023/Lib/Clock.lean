import OS2023.Lib.Loops
import OS2023.Lib.Ring
import Mathlib.Data.Fintype.Card

/-!
# The one-handed clock

Second-chance replacement in its textbook form: `F` frames in a circle, one
reference bit per frame and one hand. A hit sets the bit of its frame. A fault
loads into the lowest free frame, or, when there is none, sweeps: the hand
advances over frames with bit 1, clearing them, and stops at the first frame
with bit 0. A loaded frame gets bit 0 and the hand moves past it.

`cycle F h` lists the frames in the order in which the hand meets them.
-/

namespace OS2023.Lib

variable {F : ℕ} {α : Type*}

/-! ## The circle -/

/-- The frame after `h`. -/
def next (h : Fin F) : Fin F :=
  ⟨((h : ℕ) + 1) % F, Nat.mod_lt _ h.pos⟩

/-- The frames from `h` on, once around. -/
def cycle (F h : ℕ) : List ℕ :=
  (List.range F).map (slot F h)

@[simp] theorem length_cycle (h : ℕ) : (cycle F h).length = F := by
  simp [cycle]

theorem cycle_zero : cycle F 0 = List.range F := by
  unfold cycle
  conv_rhs => rw [← List.map_id (List.range F)]
  refine List.map_congr_left fun k hk => ?_
  rw [slot, Nat.zero_add, Nat.mod_eq_of_lt (List.mem_range.mp hk)]
  rfl

theorem cycle_eq_cons (h : Fin F) : cycle F h = (h : ℕ) :: (cycle F h).tail := by
  obtain ⟨m, rfl⟩ : ∃ m, F = m + 1 := ⟨F - 1, by have := h.pos; omega⟩
  rw [cycle, List.range_succ_eq_map, List.map_cons, slot_zero h.isLt]
  rfl

theorem length_cycle_tail_lt (h : Fin F) : (cycle F h).tail.length < F := by
  rw [List.length_tail, length_cycle]
  exact Nat.sub_one_lt h.pos.ne'

/-- Moving the head to the end turns the circle by one frame. -/
theorem cycle_tail_append (h : Fin F) :
    (cycle F h).tail ++ [(h : ℕ)] = cycle F (next h) := by
  obtain ⟨m, rfl⟩ : ∃ m, F = m + 1 := ⟨F - 1, by have := h.pos; omega⟩
  have htail : (cycle (m + 1) h).tail =
      (List.range m).map fun k => slot (m + 1) h (k + 1) := by
    rw [cycle, List.range_succ_eq_map, List.map_cons, List.tail_cons, List.map_map]
    rfl
  have hlast : slot (m + 1) h (m + 1) = h :=
    (slot_eq_start_iff h.isLt (Nat.succ_pos m) le_rfl).mpr rfl
  rw [htail, cycle, List.range_succ, List.map_append, List.map_singleton]
  congr 1
  · refine List.map_congr_left fun k _ => ?_
    exact (slot_of_next _ k).symm
  · rw [show ((next h : Fin (m + 1)) : ℕ) = ((h : ℕ) + 1) % (m + 1) from rfl,
      slot_of_next, hlast]

theorem cycle_perm (h : Fin F) : (cycle F h).Perm (List.range F) := by
  refine (List.perm_ext_iff_of_nodup ?_ List.nodup_range).mpr fun a => ?_
  · refine List.Nodup.map_on (fun a ha b hb hab => ?_) List.nodup_range
    exact slot_inj (List.mem_range.mp ha) (List.mem_range.mp hb) hab
  · rw [List.mem_range, cycle, List.mem_map]
    constructor
    · rintro ⟨k, -, rfl⟩
      exact slot_lt h.pos _ _
    · intro ha
      refine ⟨(a + F - h) % F, List.mem_range.mpr (Nat.mod_lt _ h.pos), ?_⟩
      rw [slot, Nat.add_mod_mod, show (h : ℕ) + (a + F - h) = a + F by omega,
        Nat.add_mod_right, Nat.mod_eq_of_lt ha]

/-! ## The sweep -/

/-- The number of frames with bit 1. -/
def setBits (bits : Fin F → Bool) : ℕ :=
  (Finset.univ.filter fun i => bits i = true).card

theorem setBits_clear_lt {bits : Fin F → Bool} {h : Fin F} (hb : bits h = true) :
    setBits (Function.update bits h false) < setBits bits := by
  refine Finset.card_lt_card ⟨fun i hi => ?_, fun hsub => ?_⟩
  · rw [Finset.mem_filter] at hi ⊢
    refine ⟨hi.1, ?_⟩
    by_cases hih : i = h
    · rw [hih]
      exact hb
    · rw [← Function.update_of_ne hih false bits]
      exact hi.2
  · have := hsub (Finset.mem_filter.mpr ⟨Finset.mem_univ h, hb⟩)
    simp at this

theorem setBits_le (bits : Fin F → Bool) : setBits bits ≤ F := by
  have := Finset.card_filter_le (Finset.univ : Finset (Fin F)) fun i => bits i = true
  unfold setBits
  simpa using this

/-- Advance the hand, clearing bits, until it stands at a frame with bit 0. -/
def sweep (bits : Fin F → Bool) (hand : Fin F) : (Fin F → Bool) × Fin F :=
  if bits hand = true then sweep (Function.update bits hand false) (next hand)
  else (bits, hand)
termination_by setBits bits
decreasing_by
  rename_i hb
  exact setBits_clear_lt hb

theorem sweep_of_set {bits : Fin F → Bool} {hand : Fin F} (h : bits hand = true) :
    sweep bits hand = sweep (Function.update bits hand false) (next hand) := by
  rw [sweep, if_pos h]

theorem sweep_of_clear {bits : Fin F → Bool} {hand : Fin F} (h : bits hand = false) :
    sweep bits hand = (bits, hand) := by
  rw [sweep, if_neg (by simp [h])]

/-- The frames that the sweep passes over, in their order. -/
def swept (bits : Fin F → Bool) (hand : Fin F) : List (Fin F) :=
  if bits hand = true then hand :: swept (Function.update bits hand false) (next hand)
  else []
termination_by setBits bits
decreasing_by
  rename_i hb
  exact setBits_clear_lt hb

theorem swept_of_set {bits : Fin F → Bool} {hand : Fin F} (h : bits hand = true) :
    swept bits hand = hand :: swept (Function.update bits hand false) (next hand) := by
  rw [swept, if_pos h]

theorem swept_of_clear {bits : Fin F → Bool} {hand : Fin F} (h : bits hand = false) :
    swept bits hand = [] := by
  rw [swept, if_neg (by simp [h])]

/-- Every frame passed over costs a bit. -/
theorem length_swept_le (bits : Fin F → Bool) (hand : Fin F) :
    (swept bits hand).length ≤ setBits bits := by
  induction bits, hand using sweep.induct with
  | case1 bits hand hb ih =>
      rw [swept_of_set hb, List.length_cons]
      exact Nat.succ_le_of_lt (lt_of_le_of_lt ih (setBits_clear_lt hb))
  | case2 bits hand hb =>
      rw [swept_of_clear (by simpa using hb)]
      exact Nat.zero_le _

/-- The sweep clears the frames that it passes over and no others. -/
theorem sweep_bits (bits : Fin F → Bool) (hand i : Fin F) :
    (sweep bits hand).1 i = true ↔ bits i = true ∧ i ∉ swept bits hand := by
  induction bits, hand using sweep.induct with
  | case1 bits hand hb ih =>
      rw [sweep_of_set hb, swept_of_set hb, ih, List.mem_cons, not_or]
      by_cases hi : i = hand
      · simp [hi]
      · rw [Function.update_of_ne hi]
        simp [hi]
  | case2 bits hand hb =>
      have hclear : bits hand = false := by simpa using hb
      rw [sweep_of_clear hclear, swept_of_clear hclear]
      simp

theorem sweep_stops (bits : Fin F → Bool) (hand : Fin F) :
    (sweep bits hand).1 (sweep bits hand).2 = false := by
  induction bits, hand using sweep.induct with
  | case1 bits hand hb ih =>
      rw [sweep_of_set hb]
      exact ih
  | case2 bits hand hb =>
      have hclear : bits hand = false := by simpa using hb
      rw [sweep_of_clear hclear]
      exact hclear

/-- Where the hand stands after `n` frames with bit 1, and what it has cleared. -/
theorem sweep_of_set_run {bits : Fin F → Bool} (hset : ∀ i, bits i = true) (hand : Fin F) :
    ∀ n ≤ F, sweep bits hand =
      sweep (fun i => decide (∀ k < n, slot F hand k ≠ i))
        ⟨slot F hand n, slot_lt hand.pos hand n⟩ := by
  intro n
  induction n with
  | zero =>
      intro _
      congr 1
      · funext i
        simp [hset i]
      · exact Fin.ext (slot_zero hand.isLt).symm
  | succ n ih =>
      intro hn
      rw [ih (Nat.le_of_succ_le hn), sweep_of_set]
      · congr 1
        · funext i
          by_cases hi : i = ⟨slot F hand n, slot_lt hand.pos hand n⟩
          · subst hi
            rw [Function.update_self, eq_comm, decide_eq_false_iff_not]
            exact fun hall => hall n (Nat.lt_succ_self n) rfl
          · have hne : slot F hand n ≠ i := fun heq => hi (Fin.ext heq.symm)
            rw [Function.update_of_ne hi, decide_eq_decide]
            constructor
            · intro hall k hk
              rcases Nat.lt_succ_iff_lt_or_eq.mp hk with hk | rfl
              · exact hall k hk
              · exact hne
            · exact fun hall k hk => hall k (Nat.lt_succ_of_lt hk)
        · exact Fin.ext (slot_add_one_mod _ _)
      · -- the frames met so far are others
        rw [decide_eq_true_eq]
        intro k hk heq
        exact hk.ne (slot_inj (hk.trans hn) hn heq)

/-- **A sweep over bits that are all 1 comes back to where it started.** -/
theorem sweep_of_all_set {bits : Fin F → Bool} (hset : ∀ i, bits i = true) (hand : Fin F) :
    sweep bits hand = (fun _ => false, hand) := by
  have hback : slot F hand F = hand := (slot_eq_start_iff hand.isLt hand.pos le_rfl).mpr rfl
  have hcleared : (fun i : Fin F => decide (∀ k < F, slot F hand k ≠ i)) = fun _ => false := by
    funext i
    rw [decide_eq_false_iff_not]
    intro hall
    have hmem : (i : ℕ) ∈ cycle F hand :=
      (cycle_perm hand).mem_iff.mpr (List.mem_range.mpr i.isLt)
    obtain ⟨k, hk, heq⟩ := List.mem_map.mp hmem
    exact hall k (List.mem_range.mp hk) heq
  rw [sweep_of_set_run hset hand F le_rfl, hcleared]
  have hhand : (⟨slot F hand F, slot_lt hand.pos hand F⟩ : Fin F) = hand := Fin.ext hback
  rw [hhand]
  exact sweep_of_clear rfl

/-! ## References -/

structure Clock (F : ℕ) (α : Type*) where
  pages : Fin F → Option α
  bits : Fin F → Bool
  hand : Fin F

/-- The empty clock. -/
def Clock.start (hF : 0 < F) : Clock F α where
  pages := fun _ => none
  bits := fun _ => false
  hand := ⟨0, hF⟩

/-- Load `p` into `frame`: bit 0, hand past the frame. -/
def Clock.load (k : Clock F α) (p : α) (frame : Fin F) : Clock F α where
  pages := Function.update k.pages frame (some p)
  bits := Function.update k.bits frame false
  hand := next frame

/-- Frame by frame, the clock loads a page as a list of the pages does. -/
theorem Clock.load_pages {k : Clock F α} {ps ps' : List α} {f : Fin F} {p : α}
    (h : ∀ i : Fin F, k.pages i = ps[(i : ℕ)]?) (hf : ps'[(f : ℕ)]? = some p)
    (hother : ∀ i : Fin F, i ≠ f → ps'[(i : ℕ)]? = ps[(i : ℕ)]?) (i : Fin F) :
    (k.load p f).pages i = ps'[(i : ℕ)]? := by
  by_cases hi : i = f
  · subst hi
    rw [hf]
    exact Function.update_self i (some p) k.pages
  · rw [hother i hi, ← h i]
    exact Function.update_of_ne hi (some p) k.pages

/-- The clock with its pages renamed. -/
def Clock.rename {β : Type*} (g : α → β) (k : Clock F α) : Clock F β where
  pages := fun i => (k.pages i).map g
  bits := k.bits
  hand := k.hand

theorem Clock.load_rename {β : Type*} (g : α → β) (k : Clock F α) (p : α) (f : Fin F) :
    (k.rename g).load (g p) f = (k.load p f).rename g := by
  simp only [Clock.load, Clock.rename, Clock.mk.injEq, and_true]
  funext i
  by_cases hi : i = f
  · subst hi
    simp
  · simp [Function.update_of_ne hi]

variable [DecidableEq α]

/-- One reference: whether it hits, the frame that holds the page afterwards,
and the clock afterwards. -/
def Clock.access (k : Clock F α) (p : α) : Bool × Fin F × Clock F α :=
  match firstWhere fun i => k.pages i == some p with
  | some i => (true, i, { k with bits := Function.update k.bits i true })
  | none =>
    match firstWhere fun i => k.pages i == none with
    | some i => (false, i, k.load p i)
    | none =>
      let (bits, i) := sweep k.bits k.hand
      (false, i, { k with bits := bits }.load p i)

/-- The hand moves on a fault only, past the frame just loaded. -/
theorem Clock.access_hand (k : Clock F α) (p : α) :
    (k.access p).2.2.hand = if (k.access p).1 then k.hand else next (k.access p).2.1 := by
  unfold Clock.access
  cases firstWhere fun i => k.pages i == some p with
  | some i => rfl
  | none =>
      cases firstWhere fun i => k.pages i == none with
      | some i => rfl
      | none => rfl

/-- **The clock does not look at the names of its pages.** -/
theorem Clock.access_rename {β : Type*} [DecidableEq β] {g : α → β}
    (hg : Function.Injective g) (k : Clock F α) (p : α) :
    (k.rename g).access (g p) =
      ((k.access p).1, (k.access p).2.1, (k.access p).2.2.rename g) := by
  have hhit : (fun i => (k.rename g).pages i == some (g p)) =
      fun i => k.pages i == some p := by
    funext i
    rw [Bool.eq_iff_iff, beq_iff_eq, beq_iff_eq]
    show (k.pages i).map g = (some p).map g ↔ _
    exact (Option.map_injective hg).eq_iff
  have hfree : (fun i => (k.rename g).pages i == none) = fun i => k.pages i == none := by
    funext i
    rw [Bool.eq_iff_iff, beq_iff_eq, beq_iff_eq]
    exact Option.map_eq_none_iff
  unfold Clock.access
  rw [hhit, hfree]
  cases firstWhere fun i => k.pages i == some p with
  | some i => rfl
  | none =>
      cases firstWhere fun i => k.pages i == none with
      | some i => simp only [Clock.load_rename]
      | none =>
          show (false, (sweep k.bits k.hand).2, _) = (false, (sweep k.bits k.hand).2, _)
          rw [← Clock.load_rename]
          rfl

/-- The clock after the references `ws`. -/
def Clock.after (k : Clock F α) (ws : List α) : Clock F α :=
  ws.foldl (fun k p => (k.access p).2.2) k

theorem Clock.after_snoc (k : Clock F α) (ws : List α) (p : α) :
    k.after (ws ++ [p]) = ((k.after ws).access p).2.2 := by
  unfold Clock.after
  rw [List.foldl_append]
  rfl

end OS2023.Lib
