import OS2023.Paging.Queue
import OS2023.Lib.Machine

/-!
# Sequences of calls on the queue

What a queue holds is read off its cells by `contents`. Any sequence of
`enqueue` and `dequeue` acts on it as on a list of bounded length.
`removeFrameFromQueue` does not always: it tests for an emptied queue after it
has moved `rear` back, so that of two elements it drops both, and of one element
it leaves a queue that claims to be full. `SafeCalls` excludes these removals;
the removals of a sequence are right exactly when it is safe.
-/

namespace OS2023.Paging

open OS2023.Lib

variable {n : ℕ} {q q' : PageQueue n} {l : List Int} {v : Int}

/-! ## Contents -/

/-- The elements from slot `i` to `rear`. -/
def contentsFrom (q : PageQueue n) : ℕ → Int → Option (List Int)
  | 0, _ => none
  | fuel + 1, i => do
      let s ← index n i
      let item ← q.items s
      if i = q.rear then some [item]
      else do
        let rest ← contentsFrom q fuel ((i + 1).tmod n)
        some (item :: rest)

def contents (q : PageQueue n) : Option (List Int) :=
  if q.front = -1 then some [] else contentsFrom q n q.front

/-- One turn of the walk, at element `k`. -/
theorem HoldsFrom.contentsFrom_turn {f k : ℕ} (h : HoldsFrom f q l) (hk : k < l.length)
    (fuel : ℕ) :
    Paging.contentsFrom q (fuel + 1) (slot n f k : ℕ) =
      if k + 1 = l.length then some [l[k]]
      else (Paging.contentsFrom q fuel (slot n f (k + 1) : ℕ)).bind fun rest =>
        some (l[k] :: rest) := by
  have hread := h.cells.get hk (i := ⟨slot n f k, slot_lt h.pos f k⟩) rfl
  rw [Paging.contentsFrom, index_natCast (slot_lt h.pos f k), tmod_slot_succ]
  simp only [Option.bind_eq_bind, Option.bind_some, hread, h.slot_eq_rear_iff hk]

theorem HoldsFrom.contentsFrom {f : ℕ} (h : HoldsFrom f q l) :
    ∀ (m k fuel : ℕ), k + m + 1 = l.length → m < fuel →
      Paging.contentsFrom q fuel (slot n f k : ℕ) = some (l.drop k) := by
  intro m
  induction m with
  | zero =>
      intro k fuel hk hfuel
      obtain ⟨fuel, rfl⟩ : ∃ j, fuel = j + 1 := ⟨fuel - 1, by omega⟩
      have hkl : k < l.length := by omega
      rw [h.contentsFrom_turn hkl, if_pos (by omega), List.drop_eq_getElem_cons hkl,
        List.drop_of_length_le (by omega)]
  | succ m ih =>
      intro k fuel hk hfuel
      obtain ⟨fuel, rfl⟩ : ∃ j, fuel = j + 1 := ⟨fuel - 1, by omega⟩
      have hkl : k < l.length := by omega
      rw [h.contentsFrom_turn hkl, if_neg (by omega), ih (k + 1) fuel (by omega) (by omega),
        List.drop_eq_getElem_cons hkl]
      rfl

/-- **A queue contains what it holds.** -/
theorem Holds.contents (h : Holds q l) : contents q = some l := by
  rcases h with ⟨rfl, hf, -⟩ | ⟨f, h⟩
  · rw [Paging.contents, if_pos hf]
  · have hpos := h.length_pos
    have hfits := h.fits
    have hwalk := h.contentsFrom (l.length - 1) 0 n (by omega) (by omega)
    rw [slot_zero h.start, ← h.front, List.drop_zero] at hwalk
    rw [Paging.contents, if_neg (by rw [h.front]; omega), hwalk]

/-! ## What a well-formed queue reports -/

theorem Holds.front_eq_iff (h : Holds q l) : q.front = -1 ↔ l = [] := by
  rcases h with ⟨hnil, hf, -⟩ | ⟨f, h⟩
  · exact iff_of_true hf hnil
  · refine iff_of_false ?_ h.nonempty
    rw [h.front]
    omega

theorem Holds.isEmpty_iff (h : Holds q l) : isEmpty q = true ↔ l = [] := by
  rw [Paging.isEmpty, beq_iff_eq]
  exact h.front_eq_iff

theorem Holds.isFull_iff (h : Holds q l) (hn : 0 < n) : isFull q = true ↔ l.length = n := by
  rcases h with ⟨rfl, hf, hr⟩ | ⟨f, h⟩
  · refine iff_of_false ?_ (Nat.ne_of_lt hn)
    rw [isFull, hf, hr]
    simp
  · exact h.isFull_iff

theorem Holds.length_le (h : Holds q l) : l.length ≤ n := by
  rcases h with ⟨rfl, -⟩ | ⟨f, h⟩
  · exact Nat.zero_le n
  · exact h.fits

theorem Holds.enqueue_full (h : Holds q l) (hn : 0 < n) (hfull : l.length = n) (v : Int) :
    Paging.enqueue q v = some (-1, q, ["Queue is full.\n"]) := by
  rw [Paging.enqueue, if_pos ((h.isFull_iff hn).mpr hfull)]

theorem Holds.dequeue_empty (h : Holds q []) :
    Paging.dequeue q = some (-1, q, ["Queue is empty.\n"]) := by
  rw [Paging.dequeue, if_pos (h.isEmpty_iff.mpr rfl)]

/-- The slot of the first occurrence, in terms of `front`. -/
theorem Holds.findPositionInQueue (h : Holds q l) (v : Int) :
    Paging.findPositionInQueue q v =
      some (if v ∈ l then (q.front + l.idxOf v) % n else -1) := by
  rcases h with ⟨rfl, hf, -⟩ | ⟨f, h⟩
  · rw [Paging.findPositionInQueue, if_pos hf]
    simp
  · rw [h.findPositionInQueue, h.front]
    rfl

/-! ## Calls -/

inductive Call where
  | enqueue (value : Int)
  | dequeue
  | removeFrameFromQueue (value : Int)
deriving DecidableEq

/-- The queue that a call leaves. -/
def callStep (q : PageQueue n) : Call → Option (PageQueue n)
  | .enqueue value => (enqueue q value).map fun r => r.2.1
  | .dequeue => (dequeue q).map fun r => r.2.1
  | .removeFrameFromQueue value => (removeFrameFromQueue q value).map fun r => r.1

/-- The queue of capacity `n` after `calls`. -/
def runCalls (n : ℕ) (calls : List Call) : Option (PageQueue n) :=
  runFrom callStep (initializePageQueue n) calls

/-- What a call is to do to the list: append within the bound, drop the head,
take out the first occurrence. -/
def listStep (n : ℕ) (l : List Int) : Call → List Int
  | .enqueue value => if l.length = n then l else l ++ [value]
  | .dequeue => l.tail
  | .removeFrameFromQueue value => l.erase value

def listAfter (n : ℕ) (calls : List Call) : List Int :=
  calls.foldl (listStep n) []

theorem listAfter_snoc (n : ℕ) (calls : List Call) (c : Call) :
    listAfter n (calls ++ [c]) = listStep n (listAfter n calls) c := by
  unfold listAfter
  rw [List.foldl_append]
  rfl

/-- A removal that the queue can carry out: the value is absent, or at least
three elements are held, or there is a single slot. -/
def Removable (n : ℕ) (l : List Int) (value : Int) : Prop :=
  value ∈ l → n = 1 ∨ 3 ≤ l.length

instance (n : ℕ) (l : List Int) (value : Int) : Decidable (Removable n l value) :=
  inferInstanceAs (Decidable (_ → _))

def SafeCall (n : ℕ) (l : List Int) : Call → Prop
  | .removeFrameFromQueue value => Removable n l value
  | _ => True

/-- Every removal among `calls` can be carried out where it stands. -/
def SafeCalls (n : ℕ) (calls : List Call) : Prop :=
  ∀ before c after, calls = before ++ c :: after → SafeCall n (listAfter n before) c

theorem SafeCalls.of_snoc {calls : List Call} {c : Call} (h : SafeCalls n (calls ++ [c])) :
    SafeCalls n calls ∧ SafeCall n (listAfter n calls) c := by
  constructor
  · intro before d after heq
    exact h before d (after ++ [c]) (by rw [heq]; simp)
  · exact h calls c [] rfl

theorem safeCalls_of_ends {calls : List Call}
    (hends : ∀ value, Call.removeFrameFromQueue value ∉ calls) : SafeCalls n calls := by
  intro before c after heq
  cases c with
  | enqueue value => trivial
  | dequeue => trivial
  | removeFrameFromQueue value => exact absurd (heq ▸ by simp) (hends value)

/-! ## Removal -/

theorem Holds.removeFrameFromQueue_absent (h : Holds q l) (hv : v ∉ l) :
    ∃ out, Paging.removeFrameFromQueue q v = some (q, out) := by
  rw [Paging.removeFrameFromQueue, h.findPositionInQueue, if_neg hv]
  exact ⟨_, rfl⟩

/-- In a queue of one slot the element goes and both ends become `-1`. -/
theorem HoldsFrom.removeFrameFromQueue_single {f : ℕ} (h : HoldsFrom f q l) (hv : v ∈ l)
    (hn : n = 1) : ∃ q', Paging.removeFrameFromQueue q v = some (q', []) ∧
      Holds q' (l.erase v) := by
  have hfits := h.fits
  have hpos := h.length_pos
  have hlen : (l.erase v).length = l.length - 1 := List.length_erase_of_mem hv
  obtain ⟨items, -, hrun⟩ := h.removeFrameFromQueue_eq hv
  have hback : slot n f (l.length - 1 + (n - 1)) = f := by
    rw [show l.length - 1 + (n - 1) = 0 by omega, slot_zero h.start]
  rw [if_pos hback] at hrun
  exact ⟨_, hrun, Or.inl ⟨List.length_eq_zero_iff.mp (by omega), rfl, rfl⟩⟩

/-- **A removable value is removed.** -/
theorem Holds.removeFrameFromQueue (h : Holds q l) (hsafe : Removable n l v) :
    ∃ q' out, Paging.removeFrameFromQueue q v = some (q', out) ∧ Holds q' (l.erase v) := by
  by_cases hv : v ∈ l
  · rcases h with ⟨rfl, -⟩ | ⟨f, h⟩
    · exact absurd hv List.not_mem_nil
    · rcases hsafe hv with hn | hthree
      · obtain ⟨q', hrun, hq'⟩ := h.removeFrameFromQueue_single hv hn
        exact ⟨q', [], hrun, hq'⟩
      · obtain ⟨q', hrun, hq'⟩ := h.removeFrameFromQueue hv hthree
        exact ⟨q', [], hrun, hq'.holds⟩
  · obtain ⟨out, hrun⟩ := h.removeFrameFromQueue_absent hv
    rw [List.erase_of_not_mem hv]
    exact ⟨q, out, hrun, h⟩

/-- The call on `q` takes the first `value` out of the contents and leaves a
well-formed queue. -/
def DeletesOne (q : PageQueue n) (value : Int) : Prop :=
  ∃ l q' out, contents q = some l ∧ removeFrameFromQueue q value = some (q', out) ∧
    contents q' = some (l.erase value) ∧ (q'.front = -1 ↔ l.erase value = []) ∧
    (isFull q' = true → (l.erase value).length = n)

/-- Other removals go wrong: of two elements both are lost, and the only element
of a larger queue leaves a queue that is not empty. -/
theorem Holds.deletesOne_iff (h : Holds q l) (hn : 0 < n) :
    DeletesOne q v ↔ Removable n l v := by
  constructor
  · rintro ⟨l', q', out, hl, hrun, hcontents, hempty, -⟩ hv
    obtain rfl : l = l' := Option.some.inj (h.contents.symm.trans hl)
    rcases h with ⟨rfl, -⟩ | ⟨f, h⟩
    · exact absurd hv List.not_mem_nil
    have hpos := h.length_pos
    have hlen : (l.erase v).length = l.length - 1 := List.length_erase_of_mem hv
    obtain ⟨items, -, heq⟩ := h.removeFrameFromQueue_eq hv
    rw [heq, Option.some.injEq, Prod.mk.injEq] at hrun
    obtain ⟨rfl, -⟩ := hrun
    by_contra hnot
    rw [not_or] at hnot
    rcases Nat.lt_or_ge l.length 2 with hone | htwo
    · -- one element: `rear` goes behind `front`, which stays
      have hback : slot n f (l.length - 1 + (n - 1)) ≠ f := by
        intro hback
        have := (slot_eq_start_iff h.start (k := l.length - 1 + (n - 1)) (by omega)
          (by omega)).mp hback
        omega
      rw [if_neg hback] at hempty
      have hfront := hempty.mpr (List.length_eq_zero_iff.mp (by omega))
      rw [h.front] at hfront
      omega
    · -- two elements: `rear` meets `front`
      have hback : slot n f (l.length - 1 + (n - 1)) = f := by
        rw [slot_back hn (by omega), show l.length - 1 - 1 = 0 by omega, slot_zero h.start]
      rw [if_pos hback] at hempty
      have hnil := congrArg List.length (hempty.mp rfl)
      rw [hlen, List.length_nil] at hnil
      omega
  · intro hsafe
    obtain ⟨q', out, hrun, hq'⟩ := h.removeFrameFromQueue hsafe
    exact ⟨l, q', out, h.contents, hrun, hq'.contents, hq'.front_eq_iff,
      (hq'.isFull_iff hn).mp⟩

/-! ## Sequences of calls -/

theorem Holds.callStep (h : Holds q l) (hn : 0 < n) {c : Call} (hc : SafeCall n l c) :
    ∃ q', Paging.callStep q c = some q' ∧ Holds q' (listStep n l c) := by
  cases c with
  | enqueue value =>
      rcases Nat.lt_or_ge l.length n with hlt | hge
      · obtain ⟨q', hrun, hq'⟩ := h.enqueue hlt value
        refine ⟨q', by rw [Paging.callStep, hrun]; rfl, ?_⟩
        rw [listStep, if_neg (Nat.ne_of_lt hlt)]
        exact hq'
      · have hfull := le_antisymm h.length_le hge
        refine ⟨q, by rw [Paging.callStep, h.enqueue_full hn hfull]; rfl, ?_⟩
        rw [listStep, if_pos hfull]
        exact h
  | dequeue =>
      cases l with
      | nil => exact ⟨q, by rw [Paging.callStep, h.dequeue_empty]; rfl, h⟩
      | cons x l =>
          obtain ⟨q', hrun, hq'⟩ := h.dequeue
          exact ⟨q', by rw [Paging.callStep, hrun]; rfl, hq'⟩
  | removeFrameFromQueue value =>
      obtain ⟨q', out, hrun, hq'⟩ := h.removeFrameFromQueue hc
      exact ⟨q', by rw [Paging.callStep, hrun]; rfl, hq'⟩

/-- **A safe sequence of calls acts on the list.** -/
theorem runCalls_holds (hn : 0 < n) {calls : List Call} (hsafe : SafeCalls n calls) :
    ∃ q, runCalls n calls = some q ∧ Holds q (listAfter n calls) := by
  induction calls using List.reverseRecOn with
  | nil => exact ⟨_, rfl, holds_initializePageQueue⟩
  | append_singleton calls c ih =>
      obtain ⟨hsafe, hc⟩ := hsafe.of_snoc
      obtain ⟨q, hrun, hq⟩ := ih hsafe
      obtain ⟨q', hstep, hq'⟩ := hq.callStep hn hc
      refine ⟨q', runFrom_snoc.mpr ⟨q, hrun, hstep⟩, ?_⟩
      rw [listAfter_snoc]
      exact hq'

/-- **The circular queue is a bounded FIFO list.** After any sequence of
`enqueue` and `dequeue` it contains the list of these calls, says truly whether
it is empty or full, and the next call does what it does to a list of at most
`n` elements. -/
theorem queue_bounded_fifo (hn : 0 < n) {calls : List Call}
    (hends : ∀ value, Call.removeFrameFromQueue value ∉ calls) :
    ∃ (q : PageQueue n) (l : List Int), runCalls n calls = some q ∧ contents q = some l ∧
      l = listAfter n calls ∧ l.length ≤ n ∧
      (isEmpty q = true ↔ l = []) ∧ (isFull q = true ↔ l.length = n) ∧
      (∀ v, l.length = n → enqueue q v = some (-1, q, ["Queue is full.\n"])) ∧
      (∀ v, l.length < n → ∃ q', enqueue q v = some (0, q', []) ∧
        contents q' = some (l ++ [v])) ∧
      (l = [] → dequeue q = some (-1, q, ["Queue is empty.\n"])) ∧
      (∀ x rest, l = x :: rest → ∃ q', dequeue q = some (x, q', []) ∧
        contents q' = some rest) ∧
      ∀ v, findPositionInQueue q v =
        some (if v ∈ l then (q.front + l.idxOf v) % n else -1) := by
  obtain ⟨q, hrun, hq⟩ := runCalls_holds hn (safeCalls_of_ends hends)
  refine ⟨q, _, hrun, hq.contents, rfl, hq.length_le, hq.isEmpty_iff, hq.isFull_iff hn,
    fun v hfull => hq.enqueue_full hn hfull v, fun v hlt => ?_, fun hnil => ?_,
    fun x rest hcons => ?_, hq.findPositionInQueue⟩
  · obtain ⟨q', henq, hq'⟩ := hq.enqueue hlt v
    exact ⟨q', henq, hq'.contents⟩
  · rw [hnil] at hq
    exact hq.dequeue_empty
  · rw [hcons] at hq
    obtain ⟨q', hdeq, hq'⟩ := hq.dequeue
    exact ⟨q', hdeq, hq'.contents⟩

/-- A ring of two slots that has gone round. -/
theorem queue_bounded_fifo_wrapped :
    ∃ q : PageQueue 2, runCalls 2 [.enqueue 5, .enqueue 6, .dequeue, .enqueue 7] = some q ∧
      contents q = some [6, 7] ∧ isFull q = true := by
  have hends : ∀ value, Call.removeFrameFromQueue value ∉
      [Call.enqueue 5, .enqueue 6, .dequeue, .enqueue 7] := by
    simp
  obtain ⟨q, l, hrun, hcontents, rfl, -, -, hfull, -⟩ :=
    queue_bounded_fifo (n := 2) (by decide) hends
  exact ⟨q, hrun, hcontents, hfull.mpr rfl⟩

/-- Every removal among `calls` takes out one element. -/
def RemovalsCorrect (n : ℕ) (calls : List Call) : Prop :=
  ∀ before value after, calls = before ++ .removeFrameFromQueue value :: after →
    ∃ q : PageQueue n, runCalls n before = some q ∧ DeletesOne q value

/-- **Removals are right exactly in safe sequences.** -/
theorem removalsCorrect_iff (hn : 0 < n) (calls : List Call) :
    RemovalsCorrect n calls ↔ SafeCalls n calls := by
  constructor
  · intro h
    induction calls using List.reverseRecOn with
    | nil =>
        intro before c after heq
        exact absurd heq (by simp)
    | append_singleton calls c ih =>
        have hsafe := ih fun before value after heq =>
          h before value (after ++ [c]) (by rw [heq]; simp)
        obtain ⟨q, hrun, hq⟩ := runCalls_holds hn hsafe
        intro before d after heq
        rcases List.eq_nil_or_concat after with rfl | ⟨after, e, rfl⟩
        · obtain ⟨rfl, hd⟩ := List.append_inj' heq rfl
          obtain rfl : c = d := by simpa using hd
          cases c with
          | enqueue value => trivial
          | dequeue => trivial
          | removeFrameFromQueue value =>
              -- the queue in front of the last call is the one of a safe sequence
              obtain ⟨q', hrun', hdel⟩ := h calls value [] rfl
              obtain rfl : q = q' := Option.some.inj (hrun.symm.trans hrun')
              exact (hq.deletesOne_iff hn).mp hdel
        · refine hsafe before d after ?_
          have hsplit : calls ++ [c] = (before ++ d :: after) ++ [e] := by
            rw [heq]
            simp
          exact (List.append_inj' hsplit rfl).1
  · intro hsafe before value after heq
    have hbefore : SafeCalls n before := by
      intro before' c after' heq'
      exact hsafe before' c (after' ++ .removeFrameFromQueue value :: after)
        (by rw [heq, heq']; simp)
    obtain ⟨q, hrun, hq⟩ := runCalls_holds hn hbefore
    exact ⟨q, hrun, (hq.deletesOne_iff hn).mpr (hsafe before _ after heq)⟩

/-- One of three elements is removed. -/
theorem removalsCorrect_iff_three :
    RemovalsCorrect 3 [.enqueue 1, .enqueue 2, .enqueue 3, .removeFrameFromQueue 2] := by
  refine (removalsCorrect_iff (by decide) _).mpr ?_
  intro before c after heq
  rcases before with _ | ⟨c₁, _ | ⟨c₂, _ | ⟨c₃, _ | ⟨c₄, rest⟩⟩⟩⟩
  all_goals simp only [List.nil_append, List.cons_append, List.cons.injEq] at heq
  · exact heq.1 ▸ trivial
  · exact heq.2.1 ▸ trivial
  · exact heq.2.2.1 ▸ trivial
  · obtain ⟨rfl, rfl, rfl, rfl, -⟩ := heq
    exact fun _ => Or.inr le_rfl
  · exact absurd heq.2.2.2.2 (by simp)

/-- Of two elements one is removed and the other lost. -/
theorem not_removalsCorrect_two :
    ¬RemovalsCorrect 3 [.enqueue 1, .enqueue 2, .removeFrameFromQueue 1] := by
  intro h
  obtain ⟨q, hrun, hdel⟩ := h [.enqueue 1, .enqueue 2] 1 [] rfl
  have hends : ∀ value, Call.removeFrameFromQueue value ∉ [Call.enqueue 1, .enqueue 2] := by
    simp
  obtain ⟨q', hrun', hq⟩ := runCalls_holds (n := 3) (by decide) (safeCalls_of_ends hends)
  obtain rfl : q = q' := Option.some.inj (hrun.symm.trans hrun')
  exact absurd ((hq.deletesOne_iff (by decide)).mp hdel) (by decide)

end OS2023.Paging
