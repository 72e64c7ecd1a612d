import OS2023.Lib.Loops
import OS2023.Lib.Ring

/-!
# The circular queue of frame numbers

`PageQueue` of `4/as4.c` and its operations, and the list they implement.

The queue is indexed by its capacity `maxSize`. `items` comes from `malloc`,
so a slot that was never written is `none`; reading such a slot, or a slot
outside the array, makes an operation `none`. An operation that prints returns
the printed text as the last component. The two loops that end by reaching
`rear` take fuel: their index walks the ring, so `maxSize` turns visit every
slot and a run that is not over by then never ends.
-/

namespace OS2023.Paging

open OS2023.Lib

/-! ## The code -/

structure PageQueue (maxSize : ℕ) where
  items : Fin maxSize → Option Int
  front : Int
  rear : Int

variable {n : ℕ}

def initializePageQueue (maxSize : ℕ) : PageQueue maxSize where
  items := fun _ => none
  front := -1
  rear := -1

def isFull (q : PageQueue n) : Bool :=
  (q.rear + 1).tmod n == q.front

def isEmpty (q : PageQueue n) : Bool :=
  q.front == -1

def enqueue (q : PageQueue n) (value : Int) :
    Option (Int × PageQueue n × List String) :=
  if isFull q then some (-1, q, ["Queue is full.\n"])
  else do
    let front := if q.front = -1 then 0 else q.front
    let rear := (q.rear + 1).tmod n
    let s ← index n rear
    some (0, ⟨Function.update q.items s (some value), front, rear⟩, [])

def dequeue (q : PageQueue n) : Option (Int × PageQueue n × List String) :=
  if isEmpty q then some (-1, q, ["Queue is empty.\n"])
  else do
    let s ← index n q.front
    let item ← q.items s
    if q.front = q.rear then
      -- the queue had one element: `initializePageQueue` allocates afresh
      some (item, initializePageQueue n, [])
    else
      some (item, { q with front := (q.front + 1).tmod n }, [])

/-- The loop of `findPositionInQueue` from slot `i`. -/
def findFrom (q : PageQueue n) (value : Int) : ℕ → Int → Option Int
  | 0, _ => none
  | fuel + 1, i => do
      let s ← index n i
      let item ← q.items s
      if item = value then some i
      else if i = q.rear then some (-1)
      else findFrom q value fuel ((i + 1).tmod n)

def findPositionInQueue (q : PageQueue n) (value : Int) : Option Int :=
  if q.front = -1 then some (-1) else findFrom q value n q.front

/-- The loop of `removeFrameFromQueue` that moves the later elements forward. -/
def shiftFrom (rear : Int) :
    ℕ → Int → (Fin n → Option Int) → Option (Fin n → Option Int)
  | 0, _, _ => none
  | fuel + 1, i, items =>
      if i = rear then some items
      else do
        let next := (i + 1).tmod n
        let s ← index n i
        let t ← index n next
        shiftFrom rear fuel next (Function.update items s (items t))

def removeFrameFromQueue (q : PageQueue n) (value : Int) :
    Option (PageQueue n × List String) := do
  let pos ← findPositionInQueue q value
  if pos = -1 then
    some (q, [s!"프레임 값: {value} 에 대한 위치가 존재하지 않습니다.\n"])
  else
    let items ← shiftFrom q.rear n pos q.items
    let s ← index n q.rear
    let items := Function.update items s (some (-1))
    let rear := (q.rear - 1 + n).tmod n
    if rear = q.front then
      -- the source takes this for the queue having become empty
      some (⟨items, -1, -1⟩, [])
    else
      some (⟨items, q.front, rear⟩, [])

/-! ## What is printed

Each operation prints exactly when it finds its error. -/

theorem enqueue_quiet {q q' : PageQueue n} {value r : Int} {out : List String}
    (h : enqueue q value = some (r, q', out)) : out = [] ↔ isFull q = false := by
  unfold enqueue at h
  cases hfull : isFull q with
  | true =>
      simp only [hfull, if_true, Option.some.injEq, Prod.mk.injEq] at h
      simp [← h.2.2]
  | false =>
      simp only [hfull, Bool.false_eq_true, if_false, Option.bind_eq_bind] at h
      obtain ⟨s, -, h⟩ := Option.bind_eq_some_iff.mp h
      simp only [Option.some.injEq, Prod.mk.injEq] at h
      simp [← h.2.2]

theorem dequeue_quiet {q q' : PageQueue n} {item : Int} {out : List String}
    (h : dequeue q = some (item, q', out)) : out = [] ↔ isEmpty q = false := by
  unfold dequeue at h
  cases hempty : isEmpty q with
  | true =>
      simp only [hempty, if_true, Option.some.injEq, Prod.mk.injEq] at h
      simp [← h.2.2]
  | false =>
      simp only [hempty, Bool.false_eq_true, if_false, Option.bind_eq_bind] at h
      obtain ⟨s, -, h⟩ := Option.bind_eq_some_iff.mp h
      obtain ⟨v, -, h⟩ := Option.bind_eq_some_iff.mp h
      split at h <;>
      · simp only [Option.some.injEq, Prod.mk.injEq] at h
        simp [← h.2.2]

theorem removeFrameFromQueue_quiet {q q' : PageQueue n} {value : Int} {out : List String}
    (h : removeFrameFromQueue q value = some (q', out)) :
    out = [] ↔ findPositionInQueue q value ≠ some (-1) := by
  unfold removeFrameFromQueue at h
  rw [Option.bind_eq_bind] at h
  obtain ⟨pos, hpos, h⟩ := Option.bind_eq_some_iff.mp h
  rw [hpos]
  by_cases hmiss : pos = -1
  · rw [if_pos hmiss] at h
    simp only [Option.some.injEq, Prod.mk.injEq] at h
    simp [← h.2, hmiss]
  · rw [if_neg hmiss, Option.bind_eq_bind] at h
    obtain ⟨items, -, h⟩ := Option.bind_eq_some_iff.mp h
    obtain ⟨s, -, h⟩ := Option.bind_eq_some_iff.mp h
    dsimp only at h
    split at h <;>
    · simp only [Option.some.injEq, Prod.mk.injEq] at h
      simp [← h.2, hmiss]

/-! ## The list a queue holds -/

/-- The queue holds the non-empty list `l`, starting at slot `f`. -/
structure HoldsFrom (f : ℕ) (q : PageQueue n) (l : List Int) : Prop where
  start : f < n
  nonempty : l ≠ []
  fits : l.length ≤ n
  front : q.front = f
  rear : q.rear = slot n f (l.length - 1)
  cells : Segment q.items f l

/-- The queue holds `l`; both ends are `-1` exactly when `l` is empty. -/
def Holds (q : PageQueue n) (l : List Int) : Prop :=
  (l = [] ∧ q.front = -1 ∧ q.rear = -1) ∨ ∃ f, HoldsFrom f q l

theorem holds_initializePageQueue : Holds (initializePageQueue n) [] :=
  Or.inl ⟨rfl, rfl, rfl⟩

theorem HoldsFrom.holds {f : ℕ} {q : PageQueue n} {l : List Int}
    (h : HoldsFrom f q l) : Holds q l :=
  Or.inr ⟨f, h⟩

theorem HoldsFrom.length_pos {f : ℕ} {q : PageQueue n} {l : List Int}
    (h : HoldsFrom f q l) : 0 < l.length :=
  List.length_pos_iff.mpr h.nonempty

theorem HoldsFrom.pos {f : ℕ} {q : PageQueue n} {l : List Int}
    (h : HoldsFrom f q l) : 0 < n :=
  Nat.lt_of_le_of_lt (Nat.zero_le f) h.start

/-- The machine's successor of a slot is the next slot of the ring. -/
theorem tmod_slot_succ (f k : ℕ) :
    ((slot n f k : ℕ) + 1 : Int).tmod n = (slot n f (k + 1) : ℕ) := by
  rw [← slot_add_one_mod, Int.ofNat_tmod]
  rfl

theorem HoldsFrom.rear_succ {f : ℕ} {q : PageQueue n} {l : List Int}
    (h : HoldsFrom f q l) : (q.rear + 1).tmod n = (slot n f l.length : ℕ) := by
  have hpos := h.length_pos
  rw [h.rear, tmod_slot_succ, Nat.sub_add_cancel hpos]

theorem HoldsFrom.isFull_iff {f : ℕ} {q : PageQueue n} {l : List Int}
    (h : HoldsFrom f q l) : isFull q = true ↔ l.length = n := by
  rw [isFull, h.rear_succ, h.front, beq_iff_eq, Int.natCast_inj]
  exact slot_eq_start_iff h.start h.length_pos h.fits

theorem HoldsFrom.isEmpty {f : ℕ} {q : PageQueue n} {l : List Int}
    (h : HoldsFrom f q l) : isEmpty q = false := by
  rw [Paging.isEmpty, h.front]
  simp only [beq_eq_false_iff_ne]
  omega

/-! ## Appending and removing at the ends -/

theorem HoldsFrom.enqueue {f : ℕ} {q : PageQueue n} {l : List Int}
    (h : HoldsFrom f q l) (hlt : l.length < n) (v : Int) :
    ∃ q', Paging.enqueue q v = some (0, q', []) ∧ HoldsFrom f q' (l ++ [v]) := by
  have hfull : isFull q = false := by
    rw [← Bool.not_eq_true, h.isFull_iff]
    omega
  have hslot := slot_lt h.pos f l.length
  refine ⟨⟨Function.update q.items ⟨slot n f l.length, hslot⟩ (some v), f,
    (slot n f l.length : ℕ)⟩, ?_, ?_⟩
  · have hfront : q.front ≠ -1 := by rw [h.front]; omega
    simp [Paging.enqueue, hfull, h.rear_succ, index_natCast hslot, hfront, ← h.front]
  · exact
      { start := h.start
        nonempty := by simp
        fits := by simpa [Nat.succ_le_iff] using hlt
        front := rfl
        rear := by simp
        cells := h.cells.snoc hlt rfl v }

theorem enqueue_of_empty {q : PageQueue n} (hn : 0 < n) (hf : q.front = -1)
    (hr : q.rear = -1) (v : Int) :
    ∃ q', enqueue q v = some (0, q', []) ∧ HoldsFrom 0 q' [v] := by
  have hfull : isFull q = false := by
    rw [isFull, hf, hr]
    simp
  refine ⟨⟨Function.update q.items ⟨0, hn⟩ (some v), 0, 0⟩, ?_, ?_⟩
  · have hrear : (q.rear + 1).tmod n = ((0 : ℕ) : Int) := by
      rw [hr]
      simp
    simp only [enqueue, hfull, hrear, index_natCast hn]
    simp [hf]
  · have hcells : Segment (Function.update q.items ⟨0, hn⟩ (some v)) 0 ([] ++ [v]) :=
      (Segment.nil q.items 0).snoc hn (by simp [slot]) v
    exact
      { start := hn
        nonempty := by simp
        fits := by simpa [Nat.succ_le_iff] using hn
        front := rfl
        rear := by simp [slot]
        cells := hcells }

/-- **Append.** A queue with a free slot takes the value at the end. -/
theorem Holds.enqueue {q : PageQueue n} {l : List Int} (h : Holds q l)
    (hlt : l.length < n) (v : Int) :
    ∃ q', Paging.enqueue q v = some (0, q', []) ∧ Holds q' (l ++ [v]) := by
  rcases h with ⟨rfl, hf, hr⟩ | ⟨f, h⟩
  · obtain ⟨q', hq, hq'⟩ := enqueue_of_empty (by simpa using hlt) hf hr v
    exact ⟨q', hq, hq'.holds⟩
  · obtain ⟨q', hq, hq'⟩ := h.enqueue hlt v
    exact ⟨q', hq, hq'.holds⟩

/-- **Take.** A non-empty queue gives its head; the last element leaves a
fresh queue. -/
theorem HoldsFrom.dequeue {f : ℕ} {q : PageQueue n} {x : Int} {l : List Int}
    (h : HoldsFrom f q (x :: l)) :
    ∃ q', Paging.dequeue q = some (x, q', []) ∧ Holds q' l ∧
      (l ≠ [] → HoldsFrom ((f + 1) % n) q' l) := by
  have hhead : q.items ⟨f, h.start⟩ = some x :=
    h.cells 0 x rfl _ (slot_zero h.start).symm
  have hrun : Paging.dequeue q = if q.front = q.rear
      then some (x, initializePageQueue n, [])
      else some (x, { q with front := (q.front + 1).tmod n }, []) := by
    rw [Paging.dequeue, h.isEmpty]
    simp only [Bool.false_eq_true, if_false]
    rw [h.front, index_natCast h.start]
    simp [hhead]
  have hfits := h.fits
  rw [List.length_cons] at hfits
  have hrear : q.rear = (slot n f l.length : ℕ) := by
    rw [h.rear]
    simp
  by_cases hl : l = []
  · subst hl
    refine ⟨initializePageQueue n, ?_, holds_initializePageQueue, fun hne => absurd rfl hne⟩
    have heq : q.front = q.rear := by
      rw [h.front, hrear, List.length_nil, slot_zero h.start]
    rw [hrun, if_pos heq]
  · have hpos : 0 < l.length := List.length_pos_iff.mpr hl
    have hne : q.front ≠ q.rear := by
      rw [h.front, hrear]
      intro heq
      have := (slot_eq_start_iff h.start hpos (by omega)).mp (by omega)
      omega
    have hnext : HoldsFrom ((f + 1) % n)
        { q with front := (q.front + 1).tmod n } l :=
      { start := Nat.mod_lt _ h.pos
        nonempty := hl
        fits := by omega
        front := by
          show (q.front + 1).tmod n = _
          rw [h.front, Int.ofNat_tmod]
          rfl
        rear := by
          show q.rear = _
          rw [hrear, slot_of_next, Nat.sub_add_cancel hpos]
        cells := h.cells.tail }
    exact ⟨_, by rw [hrun, if_neg hne], hnext.holds, fun _ => hnext⟩

theorem Holds.dequeue {q : PageQueue n} {x : Int} {l : List Int}
    (h : Holds q (x :: l)) :
    ∃ q', Paging.dequeue q = some (x, q', []) ∧ Holds q' l := by
  rcases h with ⟨hnil, -⟩ | ⟨f, h⟩
  · exact absurd hnil (by simp)
  · obtain ⟨q', hq, hq', -⟩ := h.dequeue
    exact ⟨q', hq, hq'⟩

/-! ## Searching and removing -/

/-- `rear` is the slot of the last element and of no other. -/
theorem HoldsFrom.slot_eq_rear_iff {f k : ℕ} {q : PageQueue n}
    {l : List Int} (h : HoldsFrom f q l) (hk : k < l.length) :
    ((slot n f k : ℕ) : Int) = q.rear ↔ k + 1 = l.length := by
  have hfits := h.fits
  rw [h.rear, Int.natCast_inj]
  constructor
  · intro heq
    have := slot_inj (by omega) (by omega) heq
    omega
  · intro heq
    congr 1
    omega

/-- One turn of the search, standing at element `k`. -/
theorem HoldsFrom.findFrom_turn {f : ℕ} {q : PageQueue n} {l : List Int}
    (h : HoldsFrom f q l) (v : Int) (fuel : ℕ) {k : ℕ} (hk : k < l.length) :
    Paging.findFrom q v (fuel + 1) (slot n f k : ℕ) =
      if l[k] = v then some ((slot n f k : ℕ) : Int)
      else if k + 1 = l.length then some (-1)
      else Paging.findFrom q v fuel (slot n f (k + 1) : ℕ) := by
  have hslot := slot_lt h.pos f k
  have hread : q.items ⟨slot n f k, hslot⟩ = some l[k] := h.cells.get hk rfl
  rw [Paging.findFrom, index_natCast hslot]
  simp only [Option.bind_eq_bind, Option.bind_some, hread, h.slot_eq_rear_iff hk,
    tmod_slot_succ]

/-- From the slot of element `k` the search covers the elements from `k` on. -/
theorem HoldsFrom.findFrom {f : ℕ} {q : PageQueue n} {l : List Int}
    (h : HoldsFrom f q l) (v : Int) :
    ∀ (m k fuel : ℕ), k + m + 1 = l.length → m < fuel →
      Paging.findFrom q v fuel (slot n f k : ℕ) =
        some (if v ∈ l.drop k then ((slot n f (k + (l.drop k).idxOf v) : ℕ) : Int)
          else -1) := by
  intro m
  induction m with
  | zero =>
      intro k fuel hk hfuel
      obtain ⟨fuel, rfl⟩ : ∃ j, fuel = j + 1 := ⟨fuel - 1, by omega⟩
      have hkl : k < l.length := by omega
      have hdrop : l.drop k = [l[k]] := by
        rw [List.drop_eq_getElem_cons hkl, List.drop_of_length_le (by omega)]
      rw [h.findFrom_turn v fuel hkl, if_pos (show k + 1 = l.length by omega), hdrop]
      by_cases hv : l[k] = v
      · simp [hv]
      · simp [hv, Ne.symm hv]
  | succ m ih =>
      intro k fuel hk hfuel
      obtain ⟨fuel, rfl⟩ : ∃ j, fuel = j + 1 := ⟨fuel - 1, by omega⟩
      have hkl : k < l.length := by omega
      rw [h.findFrom_turn v fuel hkl, if_neg (show ¬ k + 1 = l.length by omega),
        ih (k + 1) fuel (by omega) (by omega), List.drop_eq_getElem_cons hkl]
      by_cases hv : l[k] = v
      · simp [hv]
      · rw [if_neg hv, List.idxOf_cons_ne _ hv]
        simp only [List.mem_cons, Ne.symm hv, false_or]
        split
        · congr 3
          omega
        · rfl

/-- **Search.** The first slot that holds the value, or `-1`. -/
theorem HoldsFrom.findPositionInQueue {f : ℕ} {q : PageQueue n} {l : List Int}
    (h : HoldsFrom f q l) (v : Int) :
    Paging.findPositionInQueue q v =
      some (if v ∈ l then ((slot n f (l.idxOf v) : ℕ) : Int) else -1) := by
  have hfront : q.front ≠ -1 := by rw [h.front]; omega
  have hpos := h.length_pos
  have hrun := h.findFrom v (l.length - 1) 0 n (by omega) (by have := h.fits; omega)
  rw [Paging.findPositionInQueue, if_neg hfront, h.front]
  rw [slot_zero h.start] at hrun
  simpa using hrun

/-- The shift loop from element `j` erases that element and leaves the last one
doubled. -/
theorem shiftFrom_spec {f : ℕ} (hf : f < n) (rear : Int) :
    ∀ (m j fuel : ℕ) (items : Fin n → Option Int) (l : List Int) (x : Int),
      Segment items f (l ++ [x]) → j + m = l.length → l.length < n → m < fuel →
      rear = (slot n f l.length : ℕ) →
      ∃ items', shiftFrom rear fuel (slot n f j : ℕ) items = some items' ∧
        Segment items' f ((l ++ [x]).eraseIdx j ++ [x]) := by
  intro m
  have hn : 0 < n := by omega
  induction m with
  | zero =>
      intro j fuel items l x hseg hj hlen hfuel hrear
      obtain ⟨fuel, rfl⟩ : ∃ k, fuel = k + 1 := ⟨fuel - 1, by omega⟩
      obtain rfl : j = l.length := by omega
      refine ⟨items, ?_, ?_⟩
      · rw [shiftFrom, if_pos hrear.symm]
      · rw [List.eraseIdx_append_of_length_le le_rfl]
        simpa using hseg
  | succ m ih =>
      intro j fuel items l x hseg hj hlen hfuel hrear
      obtain ⟨fuel, rfl⟩ : ∃ k, fuel = k + 1 := ⟨fuel - 1, by omega⟩
      have hjl : j < l.length := by omega
      have hne : ((slot n f j : ℕ) : Int) ≠ rear := by
        rw [hrear]
        intro heq
        have := slot_inj (by omega) hlen (Int.natCast_inj.mp heq)
        omega
      have hlast : j + 1 < (l ++ [x]).length := by simp; omega
      have hread : items ⟨slot n f (j + 1), slot_lt hn f (j + 1)⟩ =
          some (l ++ [x])[j + 1] := hseg.get hlast rfl
      have hset := hseg.set (by simp; omega) (j := j) (by simp; omega)
        (i := ⟨slot n f j, slot_lt hn f j⟩) rfl (l ++ [x])[j + 1]
      -- the first `length - 1` elements change, the last one stays
      have hsplit : (l ++ [x]).set j (l ++ [x])[j + 1] =
          l.set j (l ++ [x])[j + 1] ++ [x] := List.set_append_left _ _ hjl
      rw [hsplit, ← hread] at hset
      obtain ⟨items', hrun, hres⟩ := ih (j + 1) fuel _ (l.set j (l ++ [x])[j + 1]) x
        hset (by simp; omega) (by simpa using hlen) (by omega)
        (by simpa using hrear)
      refine ⟨items', ?_, ?_⟩
      · rw [shiftFrom, if_neg hne]
        simp only [tmod_slot_succ, index_natCast (slot_lt hn f j),
          index_natCast (slot_lt hn f (j + 1)), Option.bind_eq_bind, Option.bind_some]
        exact hrun
      · have herase : (l.set j (l ++ [x])[j + 1] ++ [x]).eraseIdx (j + 1) =
            (l ++ [x]).eraseIdx j := by
          rw [← hsplit]
          apply List.ext_getElem?
          intro i
          simp only [List.getElem?_eraseIdx, List.getElem?_set]
          grind
        rw [herase] at hres
        exact hres

/-- What removal does to a queue that holds the value: the elements behind it
move up, `rear` goes one slot back, and where it meets `front` both ends are set
to `-1`. -/
theorem HoldsFrom.removeFrameFromQueue_eq {f : ℕ} {q : PageQueue n} {l : List Int}
    (h : HoldsFrom f q l) {v : Int} (hv : v ∈ l) :
    ∃ items, Segment items f (l.erase v) ∧ Paging.removeFrameFromQueue q v =
      some (if slot n f (l.length - 1 + (n - 1)) = f then ⟨items, -1, -1⟩
        else ⟨items, q.front, (slot n f (l.length - 1 + (n - 1)) : ℕ)⟩, []) := by
  have hn := h.pos
  have hfits := h.fits
  have hidx : l.idxOf v < l.length := List.idxOf_lt_length_of_mem hv
  obtain ⟨pre, x, rfl⟩ : ∃ pre x, l = pre ++ [x] :=
    ⟨l.dropLast, l.getLast h.nonempty, (List.dropLast_append_getLast h.nonempty).symm⟩
  have hlen : (pre ++ [x]).length = pre.length + 1 := by simp
  have hrear : q.rear = (slot n f pre.length : ℕ) := by
    rw [h.rear, hlen, Nat.add_sub_cancel]
  obtain ⟨items, hshift, hseg⟩ := shiftFrom_spec h.start q.rear
    (pre.length - (pre ++ [x]).idxOf v) ((pre ++ [x]).idxOf v) n q.items pre x
    h.cells (by omega) (by omega) (by omega) hrear
  have herase : (pre ++ [x]).eraseIdx ((pre ++ [x]).idxOf v) = (pre ++ [x]).erase v :=
    (List.erase_eq_eraseIdx_of_idxOf rfl).symm
  have hlen' : ((pre ++ [x]).erase v).length = pre.length := by
    rw [List.length_erase_of_mem hv, hlen, Nat.add_sub_cancel]
  rw [herase] at hseg
  have hback : (q.rear - 1 + n).tmod n = (slot n f (pre.length + (n - 1)) : ℕ) := by
    have hcast : q.rear - 1 + n = ((slot n f pre.length + (n - 1) : ℕ) : Int) := by
      rw [hrear]
      omega
    rw [hcast, ← Int.ofNat_tmod, slot_add_mod]
  have hcells : Segment (Function.update items ⟨slot n f pre.length,
      slot_lt hn f pre.length⟩ (some (-1))) f ((pre ++ [x]).erase v) := by
    have htake := hseg.take pre.length
    rw [List.take_append_of_le_length (by omega), List.take_of_length_le (by omega)] at htake
    exact htake.update_past (by omega) (by rw [hlen']) _
  refine ⟨_, hcells, ?_⟩
  have hpos : ((slot n f ((pre ++ [x]).idxOf v) : ℕ) : Int) ≠ -1 := by omega
  rw [Paging.removeFrameFromQueue, h.findPositionInQueue, if_pos hv]
  simp only [Option.bind_eq_bind, Option.bind_some, if_neg hpos, hshift]
  rw [hback, hrear, index_natCast (slot_lt hn f pre.length), hlen, Nat.add_sub_cancel]
  simp only [Option.bind_some, h.front, Int.natCast_inj]
  split <;> rfl

/-- **Remove.** With at least three elements held, removal takes out the first
occurrence and keeps the rest in order. With two elements the source's test
for an emptied queue fires although one is left, hence the bound. -/
theorem HoldsFrom.removeFrameFromQueue {f : ℕ} {q : PageQueue n} {l : List Int}
    (h : HoldsFrom f q l) {v : Int} (hv : v ∈ l) (hthree : 3 ≤ l.length) :
    ∃ q', Paging.removeFrameFromQueue q v = some (q', []) ∧
      HoldsFrom f q' (l.erase v) := by
  have hfits := h.fits
  have hlen : (l.erase v).length = l.length - 1 := List.length_erase_of_mem hv
  obtain ⟨items, hcells, hrun⟩ := h.removeFrameFromQueue_eq hv
  have hne : slot n f (l.length - 1 - 1) ≠ f := by
    intro heq
    have := (slot_eq_start_iff h.start (by omega) (by omega)).mp heq
    omega
  rw [slot_back h.pos (by omega), if_neg hne] at hrun
  refine ⟨_, hrun, ?_⟩
  exact
    { start := h.start
      nonempty := List.length_pos_iff.mp (by omega)
      fits := by omega
      front := h.front
      rear := by rw [hlen]
      cells := hcells }

end OS2023.Paging
