import Mathlib.Algebra.BigOperators.Group.Finset.Basic
import Mathlib.Algebra.Order.Ring.Rat
import Mathlib.Data.Fintype.BigOperators
import Mathlib.Tactic.Linarith
import Mathlib.Tactic.Ring
import OS2023.Lib.Machine

/-!
# The elapsed times of the children

The test program `3/assignment3.c` forks 21 children. Each of them writes the
time it took into a pipe and exits, and the parent reads the pipe 21 times, with
a `wait` after every read, and adds up what it reads. It looks at the result of
neither `fork`, `read` nor `wait`.

The parent and its children are one machine: an event is a step of one of the
processes, and a run is any interleaving of their steps. A `read` that finds the
end of the pipe leaves `elapsed_time` as it is, a variable that every iteration
declares anew, so the value added is not determined.
-/

namespace OS2023.Sched.Elapsed

open OS2023.Lib

/-! ## The processes -/

inductive Child where
  | unborn
  /-- The `fork` has failed. -/
  | failed
  | running
  | written
  /-- The child has closed `pipefd[1]`. -/
  | closed
  | zombie
  | reaped
deriving DecidableEq

/-- The process has the write end of the pipe open. -/
def Child.holdsPipe : Child → Bool
  | .running => true
  | .written => true
  | _ => false

/-- The process executes. -/
def Child.alive : Child → Bool
  | .running => true
  | .written => true
  | .closed => true
  | _ => false

/-- There is something to wait for. -/
def Child.present : Child → Bool
  | .zombie => true
  | c => c.alive

/-- Where the parent stands, with the counter of its loop. -/
inductive Phase where
  | forking (i : Fin 21)
  | closing (i : Fin 21)
  | reading (i : Fin 21)
  | waiting (i : Fin 21)
  | done
deriving DecidableEq

def afterFork (i : Fin 21) : Phase :=
  if h : i.val + 1 < 21 then .forking ⟨i + 1, h⟩ else .closing 0

def afterWait (i : Fin 21) : Phase :=
  if h : i.val + 1 < 21 then .closing ⟨i + 1, h⟩ else .done

/-- `writeEnd` is the parent's own copy of `pipefd[1]`, `pipe` holds what has been
written and not read, the oldest first. -/
structure World where
  phase : Phase
  writeEnd : Bool
  child : Fin 21 → Child
  pipe : List ℚ
  totalElapsedTime : ℚ

def initial : World :=
  ⟨.forking 0, true, fun _ => .unborn, [], 0⟩

inductive Event where
  | fork (success : Bool)
  | write (c : Fin 21)
  | close (c : Fin 21)
  /-- The child exits, or dies where it stands. -/
  | exit (c : Fin 21)
  | closeWriteEnd
  | read
  /-- The `read` returns `0`, and `x` is what `elapsed_time` holds. -/
  | readEof (x : ℚ)
  | wait (c : Fin 21)
  /-- The `wait` returns `-1`. -/
  | waitNone
deriving DecidableEq

/-- One step of one process. The elapsed time of child `c` is `v c`. -/
def step (v : Fin 21 → ℚ) (s : World) : Event → Option World
  | .fork success =>
      match s.phase with
      | .forking i =>
          some { s with
            phase := afterFork i
            child := Function.update s.child i (if success then .running else .failed) }
      | _ => none
  | .write c =>
      if s.child c = .running then
        some { s with
          child := Function.update s.child c .written
          pipe := s.pipe ++ [v c] }
      else none
  | .close c =>
      if s.child c = .written then
        some { s with child := Function.update s.child c .closed }
      else none
  | .exit c =>
      if (s.child c).alive then
        some { s with child := Function.update s.child c .zombie }
      else none
  | .closeWriteEnd =>
      match s.phase with
      | .closing i => some { s with phase := .reading i, writeEnd := false }
      | _ => none
  | .read =>
      match s.phase, s.pipe with
      | .reading i, x :: rest =>
          some { s with
            phase := .waiting i
            pipe := rest
            totalElapsedTime := s.totalElapsedTime + x }
      | _, _ => none
  | .readEof x =>
      match s.phase with
      | .reading i =>
          if s.pipe = [] ∧ s.writeEnd = false ∧ ∀ c, (s.child c).holdsPipe = false then
            some { s with phase := .waiting i, totalElapsedTime := s.totalElapsedTime + x }
          else none
      | _ => none
  | .wait c =>
      match s.phase with
      | .waiting i =>
          if s.child c = .zombie then
            some { s with phase := afterWait i, child := Function.update s.child c .reaped }
          else none
      | _ => none
  | .waitNone =>
      match s.phase with
      | .waiting i =>
          if ∀ c, (s.child c).present = false then some { s with phase := afterWait i }
          else none
      | _ => none

/-! ## What a run has done -/

def Event.writer : Event → Option (Fin 21)
  | .write c => some c
  | _ => none

/-- What is added without having been read. -/
def Event.stale : Event → ℚ
  | .readEof x => x
  | _ => 0

def Event.isEof : Event → Bool
  | .readEof _ => true
  | _ => false

/-- The children that wrote, in this order. -/
def writers (es : List Event) : List (Fin 21) :=
  es.filterMap Event.writer

def stale (es : List Event) : ℚ :=
  (es.map Event.stale).sum

def eofs (es : List Event) : ℕ :=
  es.countP Event.isEof

/-- In every run that leads the parent to its end, and in which exactly the
children `W` write, the total is the sum of their values. -/
def CollectsExactly (v : Fin 21 → ℚ) (W : Finset (Fin 21)) : Prop :=
  ∀ es s, runFrom (step v) initial es = some s → s.phase = .done →
    (writers es).toFinset = W → s.totalElapsedTime = ∑ c ∈ W, v c

/-! ## Steps -/

/-- Everything a step can do, with its guard. -/
inductive Step (v : Fin 21 → ℚ) (s : World) : Event → World → Prop where
  | fork {i : Fin 21} (success : Bool) (h : s.phase = .forking i) :
      Step v s (.fork success) { s with
        phase := afterFork i
        child := Function.update s.child i (if success then .running else .failed) }
  | write {c : Fin 21} (hchild : s.child c = .running) :
      Step v s (.write c) { s with
        child := Function.update s.child c .written
        pipe := s.pipe ++ [v c] }
  | close {c : Fin 21} (hchild : s.child c = .written) :
      Step v s (.close c) { s with child := Function.update s.child c .closed }
  | exit {c : Fin 21} (hchild : (s.child c).alive = true) :
      Step v s (.exit c) { s with child := Function.update s.child c .zombie }
  | closeWriteEnd {i : Fin 21} (h : s.phase = .closing i) :
      Step v s .closeWriteEnd { s with phase := .reading i, writeEnd := false }
  | read {i : Fin 21} {x : ℚ} {rest : List ℚ} (h : s.phase = .reading i)
      (hpipe : s.pipe = x :: rest) :
      Step v s .read { s with
        phase := .waiting i
        pipe := rest
        totalElapsedTime := s.totalElapsedTime + x }
  | readEof {i : Fin 21} (x : ℚ) (h : s.phase = .reading i) (hpipe : s.pipe = [])
      (hend : s.writeEnd = false) (hchild : ∀ c, (s.child c).holdsPipe = false) :
      Step v s (.readEof x) { s with
        phase := .waiting i
        totalElapsedTime := s.totalElapsedTime + x }
  | wait {i c : Fin 21} (h : s.phase = .waiting i) (hchild : s.child c = .zombie) :
      Step v s (.wait c) { s with
        phase := afterWait i
        child := Function.update s.child c .reaped }
  | waitNone {i : Fin 21} (h : s.phase = .waiting i)
      (hchild : ∀ c, (s.child c).present = false) :
      Step v s .waitNone { s with phase := afterWait i }

variable {v : Fin 21 → ℚ} {s s' : World} {e : Event} {es : List Event}

theorem step_iff : step v s e = some s' ↔ Step v s e s' := by
  constructor
  · intro h
    cases e with
    | fork success =>
        simp only [step] at h
        split at h
        · obtain rfl := Option.some.inj h
          exact .fork success ‹_›
        · exact absurd h (by simp)
    | write c =>
        obtain ⟨hchild, heq⟩ := Option.ite_none_right_eq_some.mp h
        obtain rfl := Option.some.inj heq
        exact .write hchild
    | close c =>
        obtain ⟨hchild, heq⟩ := Option.ite_none_right_eq_some.mp h
        obtain rfl := Option.some.inj heq
        exact .close hchild
    | exit c =>
        obtain ⟨hchild, heq⟩ := Option.ite_none_right_eq_some.mp h
        obtain rfl := Option.some.inj heq
        exact .exit hchild
    | closeWriteEnd =>
        simp only [step] at h
        split at h
        · obtain rfl := Option.some.inj h
          exact .closeWriteEnd ‹_›
        · exact absurd h (by simp)
    | read =>
        simp only [step] at h
        split at h
        · obtain rfl := Option.some.inj h
          exact .read ‹_› ‹_›
        · exact absurd h (by simp)
    | readEof x =>
        simp only [step] at h
        split at h
        · obtain ⟨⟨hpipe, hend, hchild⟩, heq⟩ := Option.ite_none_right_eq_some.mp h
          obtain rfl := Option.some.inj heq
          exact .readEof x ‹_› hpipe hend hchild
        · exact absurd h (by simp)
    | wait c =>
        simp only [step] at h
        split at h
        · obtain ⟨hchild, heq⟩ := Option.ite_none_right_eq_some.mp h
          obtain rfl := Option.some.inj heq
          exact .wait ‹_› hchild
        · exact absurd h (by simp)
    | waitNone =>
        simp only [step] at h
        split at h
        · obtain ⟨hchild, heq⟩ := Option.ite_none_right_eq_some.mp h
          obtain rfl := Option.some.inj heq
          exact .waitNone ‹_› hchild
        · exact absurd h (by simp)
  · intro h
    cases h with
    | fork success h => simp only [step, h]
    | write hchild => exact if_pos hchild
    | close hchild => exact if_pos hchild
    | exit hchild => exact if_pos hchild
    | closeWriteEnd h => simp only [step, h]
    | read h hpipe => simp only [step, h, hpipe]
    | readEof x h hpipe hend hchild =>
        simp only [step, h]
        exact if_pos ⟨hpipe, hend, hchild⟩
    | wait h hchild =>
        simp only [step, h]
        exact if_pos hchild
    | waitNone h hchild =>
        simp only [step, h]
        exact if_pos hchild

/-! ## Nothing is lost in the pipe -/

/-- The reads that the parent has made. -/
def Phase.reads : Phase → ℕ
  | .forking _ => 0
  | .closing i => i
  | .reading i => i
  | .waiting i => i + 1
  | .done => 21

theorem reads_afterFork (i : Fin 21) : (afterFork i).reads = 0 := by
  unfold afterFork
  split <;> rfl

theorem reads_afterWait (i : Fin 21) : (afterWait i).reads = i + 1 := by
  unfold afterWait
  split
  · rfl
  · show 21 = i.val + 1
    omega

theorem Step.value (h : Step v s e s') :
    s'.totalElapsedTime + s'.pipe.sum =
      s.totalElapsedTime + s.pipe.sum + ((e.writer.toList.map v).sum + e.stale) := by
  cases h with
  | fork success h => simp [Event.writer, Event.stale]
  | write hchild => simp [Event.writer, Event.stale, add_assoc]
  | close hchild => simp [Event.writer, Event.stale]
  | exit hchild => simp [Event.writer, Event.stale]
  | closeWriteEnd h => simp [Event.writer, Event.stale]
  | read h hpipe => simp [Event.writer, Event.stale, hpipe, add_assoc]
  | readEof x h hpipe hend hchild => simp [Event.writer, Event.stale, hpipe]
  | wait h hchild => simp [Event.writer, Event.stale]
  | waitNone h hchild => simp [Event.writer, Event.stale]

theorem Step.count (h : Step v s e s') :
    s'.pipe.length + s'.phase.reads =
      s.pipe.length + s.phase.reads + (e.writer.toList.length + e.isEof.toNat) := by
  cases h with
  | fork success h =>
      simp only [reads_afterFork, h]
      rfl
  | write hchild =>
      simp only [List.length_append, List.length_singleton, Event.writer, Event.isEof,
        Option.toList_some, Bool.toNat_false]
      omega
  | close hchild => simp [Event.writer, Event.isEof]
  | exit hchild => simp [Event.writer, Event.isEof]
  | closeWriteEnd h => simp [Event.writer, Event.isEof, h, Phase.reads]
  | read h hpipe =>
      simp only [h, hpipe, List.length_cons, Phase.reads, Event.writer, Event.isEof,
        Option.toList_none, List.length_nil, Bool.toNat_false]
      omega
  | readEof x h hpipe hend hchild =>
      simp only [h, Phase.reads, Event.writer, Event.isEof, Option.toList_none,
        List.length_nil, Bool.toNat_true]
      omega
  | wait h hchild =>
      simp only [reads_afterWait, h]
      rfl
  | waitNone h hchild =>
      simp only [reads_afterWait, h]
      rfl

theorem writers_append (es es' : List Event) :
    writers (es ++ es') = writers es ++ writers es' :=
  List.filterMap_append

theorem stale_append (es es' : List Event) : stale (es ++ es') = stale es + stale es' := by
  rw [stale, List.map_append, List.sum_append]
  rfl

theorem eofs_append (es es' : List Event) : eofs (es ++ es') = eofs es + eofs es' :=
  List.countP_append

theorem writers_singleton (e : Event) : writers [e] = e.writer.toList := by
  cases e <;> rfl

theorem stale_singleton (e : Event) : stale [e] = e.stale := by
  simp [stale]

theorem eofs_singleton (e : Event) : eofs [e] = e.isEof.toNat := by
  cases e <;> rfl

theorem writers_snoc_of_none (es : List Event) (he : e.writer = none) :
    writers (es ++ [e]) = writers es := by
  rw [writers_append, writers_singleton, he, Option.toList_none, List.append_nil]

/-- Only a read that returns nothing adds what was not read. -/
theorem stale_of_not_isEof (he : e.isEof = false) : e.stale = 0 := by
  cases e with
  | readEof x => exact absurd he (by simp [Event.isEof])
  | _ => rfl

theorem stale_eq_zero (h : eofs es = 0) : stale es = 0 := by
  induction es with
  | nil => rfl
  | cons e es ih =>
      rw [← List.singleton_append, eofs_append, eofs_singleton, Nat.add_eq_zero_iff,
        Bool.toNat_eq_zero] at h
      rw [← List.singleton_append, stale_append, stale_singleton, stale_of_not_isEof h.1,
        ih h.2, add_zero]

/-- **What was written is in the total or in the pipe**, next to what was added
without having been read. -/
theorem total_add_pipe (h : runFrom (step v) initial es = some s) :
    s.totalElapsedTime + s.pipe.sum = ((writers es).map v).sum + stale es := by
  refine history_invariant (I := fun es s =>
    s.totalElapsedTime + s.pipe.sum = ((writers es).map v).sum + stale es) rfl ?_ h
  intro es s e s' hstep ih
  rw [(step_iff.mp hstep).value, ih, writers_append, stale_append, writers_singleton,
    stale_singleton, List.map_append, List.sum_append]
  ring

theorem length_add_reads (h : runFrom (step v) initial es = some s) :
    s.pipe.length + s.phase.reads = (writers es).length + eofs es := by
  refine history_invariant (I := fun es s =>
    s.pipe.length + s.phase.reads = (writers es).length + eofs es) rfl ?_ h
  intro es s e s' hstep ih
  rw [(step_iff.mp hstep).count, ih, writers_append, eofs_append, writers_singleton,
    eofs_singleton, List.length_append]
  omega

/-! ## Every child writes once -/

theorem afterFork_eq_forking {i j : Fin 21} (h : afterFork i = .forking j) :
    j.val = i.val + 1 := by
  unfold afterFork at h
  split at h
  · rw [← Phase.forking.inj h]
  · exact absurd h (by simp)

theorem afterWait_ne_forking (i j : Fin 21) : afterWait i ≠ .forking j := by
  unfold afterWait
  split <;> simp

/-- The children that have written are past that point, and those that have not
been forked are not there yet. -/
structure Ordered (es : List Event) (s : World) : Prop where
  nodup : (writers es).Nodup
  past : ∀ c ∈ writers es, s.child c ≠ .unborn ∧ s.child c ≠ .running
  unborn : ∀ i, s.phase = .forking i → ∀ j, i ≤ j → s.child j = .unborn

theorem ordered_initial : Ordered [] initial :=
  ⟨List.nodup_nil, fun c hc => absurd hc (by simp [writers]), fun _ _ _ _ => rfl⟩

variable {c : Fin 21} {b : Child}

/-- A child that moves on does not go back. -/
theorem Ordered.update (h : Ordered es s) {t : World} (hc : s.child c ≠ .unborn)
    (hb : b ≠ .unborn ∧ b ≠ .running)
    (hchild : t.child = Function.update s.child c b)
    (hphase : ∀ i, t.phase = .forking i → s.phase = .forking i) :
    (∀ d, d ∈ writers es ∨ d = c → t.child d ≠ .unborn ∧ t.child d ≠ .running) ∧
      ∀ i, t.phase = .forking i → ∀ j, i ≤ j → t.child j = .unborn := by
  rw [hchild]
  constructor
  · intro d hd
    by_cases heq : d = c
    · rw [heq, Function.update_self]
      exact hb
    · rw [Function.update_of_ne heq]
      exact h.past d (hd.resolve_right heq)
  · intro i hi j hij
    have hj := h.unborn i (hphase i hi) j hij
    have hne : j ≠ c := by
      rintro rfl
      exact hc hj
    rw [Function.update_of_ne hne]
    exact hj

/-- A step that is no write and moves on one child. -/
theorem Ordered.move (h : Ordered es s) (he : e.writer = none) (hc : s.child c ≠ .unborn)
    (hb : b ≠ .unborn ∧ b ≠ .running)
    (hchild : s'.child = Function.update s.child c b)
    (hphase : ∀ i, s'.phase = .forking i → s.phase = .forking i) :
    Ordered (es ++ [e]) s' := by
  have hwriters := writers_snoc_of_none es he
  obtain ⟨hpast, hunborn⟩ := h.update hc hb hchild hphase
  refine ⟨?_, ?_, hunborn⟩
  · rw [hwriters]
    exact h.nodup
  · rw [hwriters]
    intro d hd
    exact hpast d (Or.inl hd)

theorem ne_unborn_of_alive {b : Child} (h : b.alive = true) : b ≠ .unborn := by
  rintro rfl
  exact absurd h (by decide)

/-- A step that is no write and moves on no child. -/
theorem Ordered.keep (h : Ordered es s) (he : e.writer = none) (hchild : s'.child = s.child)
    (hphase : ∀ i, s'.phase ≠ .forking i) : Ordered (es ++ [e]) s' := by
  have hwriters := writers_snoc_of_none es he
  refine ⟨?_, ?_, fun i hi => absurd hi (hphase i)⟩
  · rw [hwriters]
    exact h.nodup
  · rw [hwriters, hchild]
    exact h.past

theorem Ordered.step (h : Ordered es s) (hstep : Step v s e s') : Ordered (es ++ [e]) s' := by
  cases hstep with
  | @fork i success hi =>
      have hfresh : s.child i = .unborn := h.unborn i hi i le_rfl
      have hwriters : writers (es ++ [.fork success]) = writers es :=
        writers_snoc_of_none es rfl
      refine ⟨?_, ?_, ?_⟩
      · rw [hwriters]
        exact h.nodup
      · intro c hc
        rw [hwriters] at hc
        have hne : c ≠ i := by
          rintro rfl
          exact (h.past c hc).1 hfresh
        simp only [Function.update_of_ne hne]
        exact h.past c hc
      · intro i' hi' j hij
        have hsucc := afterFork_eq_forking hi'
        have hlt : i < j := Fin.lt_def.mpr (by rw [Fin.le_def] at hij; omega)
        simp only [Function.update_of_ne hlt.ne']
        exact h.unborn i hi j hlt.le
  | @write c hchild =>
      have hc : c ∉ writers es := fun hmem => (h.past c hmem).2 hchild
      obtain ⟨hpast, hunborn⟩ := h.update (t := { s with
        child := Function.update s.child c .written
        pipe := s.pipe ++ [v c] }) (by rw [hchild]; decide) (by decide) rfl fun _ hi => hi
      refine ⟨?_, ?_, hunborn⟩
      · rw [writers_append, List.nodup_append]
        refine ⟨h.nodup, List.nodup_singleton c, ?_⟩
        rintro d hd _ hmem rfl
        obtain rfl := List.mem_singleton.mp hmem
        exact hc hd
      · intro d hd
        rw [writers_append, List.mem_append] at hd
        exact hpast d (hd.imp_right List.mem_singleton.mp)
  | close hchild => exact h.move rfl (by rw [hchild]; decide) (by decide) rfl fun _ hi => hi
  | exit hchild => exact h.move rfl (ne_unborn_of_alive hchild) (by decide) rfl fun _ hi => hi
  | closeWriteEnd hi => exact h.keep rfl rfl (by simp)
  | read hi hpipe => exact h.keep rfl rfl (by simp)
  | readEof x hi hpipe hend hchild => exact h.keep rfl rfl (by simp)
  | wait hi hchild =>
      refine h.move rfl (by rw [hchild]; decide) (by decide) rfl ?_
      intro i' hi'
      exact absurd hi' (afterWait_ne_forking _ i')
  | waitNone hi hchild => exact h.keep rfl rfl (afterWait_ne_forking _)

theorem ordered_run (h : runFrom (Elapsed.step v) initial es = some s) : Ordered es s :=
  history_invariant ordered_initial
    (fun _ _ _ _ hstep hord => hord.step (step_iff.mp hstep)) h

/-! ## The end of the pipe -/

/-- Nobody is left who could write, and nothing is left to read. -/
structure Drained (s : World) : Prop where
  empty : s.pipe = []
  released : ∀ c, (s.child c).holdsPipe = false
  forked : ∀ i, s.phase ≠ .forking i

/-- A child that lets go of the pipe. -/
theorem released_update (h : ∀ c, (s.child c).holdsPipe = false) (hb : b.holdsPipe = false)
    (d : Fin 21) : (Function.update s.child c b d).holdsPipe = false := by
  by_cases heq : d = c
  · rw [heq, Function.update_self]
    exact hb
  · rw [Function.update_of_ne heq]
    exact h d

theorem Drained.step (h : Drained s) (hstep : Step v s e s') : Drained s' := by
  cases hstep with
  | fork success hi => exact absurd hi (h.forked _)
  | @write c hchild =>
      have hc := h.released c
      rw [hchild] at hc
      exact absurd hc (by decide)
  | @close c hchild =>
      have hc := h.released c
      rw [hchild] at hc
      exact absurd hc (by decide)
  | exit hchild => exact ⟨h.empty, released_update h.released rfl, h.forked⟩
  | closeWriteEnd hi => exact ⟨h.empty, h.released, by simp⟩
  | read hi hpipe =>
      rw [h.empty] at hpipe
      exact absurd hpipe (by simp)
  | readEof x hi hpipe hend hchild => exact ⟨h.empty, h.released, by simp⟩
  | wait hi hchild =>
      exact ⟨h.empty, released_update h.released rfl, afterWait_ne_forking _⟩
  | waitNone hi hchild => exact ⟨h.empty, h.released, afterWait_ne_forking _⟩

theorem drained_of_isEof (he : e.isEof = true) (hstep : Step v s e s') : Drained s' := by
  cases hstep with
  | readEof x hi hpipe hend hchild => exact ⟨hpipe, hchild, by simp⟩
  | _ => exact absurd he (by simp [Event.isEof])

/-- After a read has found the end, the pipe stays empty. -/
theorem drained_run (h : runFrom (Elapsed.step v) initial es = some s) (heof : eofs es ≠ 0) :
    Drained s := by
  refine history_invariant (I := fun es s => eofs es ≠ 0 → Drained s) ?_ ?_ h heof
  · intro hne
    exact absurd rfl hne
  · intro es s e s' hstep ih hne
    rw [eofs_append, eofs_singleton] at hne
    cases he : e.isEof with
    | true => exact drained_of_isEof he (step_iff.mp hstep)
    | false =>
        rw [he] at hne
        exact (ih hne).step (step_iff.mp hstep)

/-- **The total at the end**: what the writers wrote, and a stale value for every
read that returned nothing. -/
theorem total_of_done (h : runFrom (Elapsed.step v) initial es = some s)
    (hdone : s.phase = .done) :
    s.totalElapsedTime = ∑ c ∈ (writers es).toFinset, v c + stale es ∧
      (writers es).toFinset.card + eofs es = 21 := by
  have hnodup := (ordered_run h).nodup
  have hcard : (writers es).toFinset.card = (writers es).length :=
    List.toFinset_card_of_nodup hnodup
  have hle : (writers es).toFinset.card ≤ 21 := card_finset_fin_le _
  have hvalue := total_add_pipe h
  have hcount := length_add_reads h
  rw [hdone, Phase.reads, ← hcard] at hcount
  have hempty : s.pipe = [] := by
    by_cases heof : eofs es = 0
    · -- 21 values were read, and no child writes twice
      rw [← List.length_eq_zero_iff]
      omega
    · exact (drained_run h heof).empty
  rw [hempty, List.sum_nil, add_zero, ← List.sum_toFinset v hnodup] at hvalue
  rw [hempty, List.length_nil, Nat.zero_add] at hcount
  exact ⟨hvalue, hcount.symm⟩

/-! ## The parent comes to its end -/

def Child.rank : Child → ℕ
  | .unborn => 0
  | .failed => 0
  | .running => 4
  | .written => 3
  | .closed => 2
  | .zombie => 1
  | .reaped => 0

def Phase.rank : Phase → ℕ
  | .forking i => 64 + 5 * (21 - i)
  | .closing i => 3 * (21 - i)
  | .reading i => 3 * (21 - i) - 1
  | .waiting i => 3 * (21 - i) - 2
  | .done => 0

/-- A bound for the steps that are left. -/
def World.rank (s : World) : ℕ :=
  s.phase.rank + ∑ c, (s.child c).rank

theorem sum_rank_update (f : Fin 21 → Child) (c : Fin 21) (b : Child) :
    ∑ d, (Function.update f c b d).rank + (f c).rank = ∑ d, (f d).rank + b.rank := by
  have hupdate : ∑ d, (Function.update f c b d).rank =
      b.rank + ∑ d ∈ Finset.univ.erase c, (f d).rank := by
    rw [← Finset.add_sum_erase _ _ (Finset.mem_univ c), Function.update_self]
    congr 1
    refine Finset.sum_congr rfl fun d hd => ?_
    rw [Function.update_of_ne (Finset.ne_of_mem_erase hd)]
  have hsplit := Finset.add_sum_erase Finset.univ (fun d => (f d).rank) (Finset.mem_univ c)
  rw [hupdate]
  omega

theorem rank_afterFork (i : Fin 21) :
    (afterFork i).rank + 5 ≤ (Phase.forking i).rank := by
  unfold afterFork
  split
  · simp only [Phase.rank]
    omega
  · simp only [Phase.rank, Fin.val_zero]
    omega

theorem rank_afterWait (i : Fin 21) : (afterWait i).rank < (Phase.waiting i).rank := by
  unfold afterWait
  split
  · simp only [Phase.rank]
    omega
  · simp only [Phase.rank]
    omega

theorem Child.rank_le (b : Child) : b.rank ≤ 4 := by
  cases b <;> decide

theorem rank_of_alive (h : b.alive = true) : 1 < b.rank := by
  cases b <;> simp_all [Child.alive, Child.rank]

/-- **Every step lowers the rank.** -/
theorem Step.rank_lt (h : Step v s e s') : s'.rank < s.rank := by
  unfold World.rank
  cases h with
  | @fork i success hi =>
      have hsum := sum_rank_update s.child i (if success then .running else .failed)
      have hle := Child.rank_le (if success then .running else .failed)
      have hphase := rank_afterFork i
      rw [hi]
      simp only
      omega
  | @write c hchild =>
      have hsum := sum_rank_update s.child c .written
      rw [hchild] at hsum
      simp only [Child.rank] at hsum ⊢
      omega
  | @close c hchild =>
      have hsum := sum_rank_update s.child c .closed
      rw [hchild] at hsum
      simp only [Child.rank] at hsum ⊢
      omega
  | @exit c hchild =>
      have hsum := sum_rank_update s.child c .zombie
      have hlt := rank_of_alive hchild
      simp only
      rw [show Child.zombie.rank = 1 from rfl] at hsum
      omega
  | @closeWriteEnd i hi =>
      rw [hi]
      simp only [Phase.rank]
      omega
  | @read i x rest hi hpipe =>
      rw [hi]
      simp only [Phase.rank]
      omega
  | @readEof i x hi hpipe hend hchild =>
      rw [hi]
      simp only [Phase.rank]
      omega
  | @wait i c hi hchild =>
      have hsum := sum_rank_update s.child c .reaped
      have hphase := rank_afterWait i
      rw [hi]
      simp only
      rw [show Child.reaped.rank = 0 from rfl] at hsum
      omega
  | @waitNone i hi hchild =>
      have hphase := rank_afterWait i
      rw [hi]
      simp only
      omega

/-- No run has more than 169 steps. -/
theorem length_le_of_run (h : runFrom (Elapsed.step v) initial es = some s) :
    es.length ≤ 169 := by
  have hle := length_add_measure_le (μ := World.rank)
    (fun _ _ _ hstep => (step_iff.mp hstep).rank_lt) h
  have hinit : initial.rank = 169 := by decide
  omega

/-- The parent has closed its own write end when it reads. -/
def Shut (s : World) : Prop :=
  ∀ i, s.phase = .reading i → s.writeEnd = false

theorem afterFork_ne_reading (i j : Fin 21) : afterFork i ≠ .reading j := by
  unfold afterFork
  split <;> simp

theorem afterWait_ne_reading (i j : Fin 21) : afterWait i ≠ .reading j := by
  unfold afterWait
  split <;> simp

theorem Shut.step (h : Shut s) (hstep : Step v s e s') : Shut s' := by
  cases hstep with
  | fork success hi => exact fun j hj => absurd hj (afterFork_ne_reading _ j)
  | write hchild => exact h
  | close hchild => exact h
  | exit hchild => exact h
  | closeWriteEnd hi => exact fun _ _ => rfl
  | read hi hpipe => exact fun j hj => absurd hj (by simp)
  | readEof x hi hpipe hend hchild => exact fun j hj => absurd hj (by simp)
  | wait hi hchild => exact fun j hj => absurd hj (afterWait_ne_reading _ j)
  | waitNone hi hchild => exact fun j hj => absurd hj (afterWait_ne_reading _ j)

theorem shut_run (h : runFrom (Elapsed.step v) initial es = some s) : Shut s := by
  refine run_invariant ?_ (fun _ _ _ hstep hshut => hshut.step (step_iff.mp hstep)) h
  intro i hi
  exact absurd hi (by simp [initial])

theorem alive_of_holdsPipe (h : b.holdsPipe = true) : b.alive = true := by
  cases b <;> simp_all [Child.holdsPipe, Child.alive]

theorem zombie_or_alive (h : b.present = true) : b = .zombie ∨ b.alive = true := by
  cases b <;> simp_all [Child.present, Child.alive]

/-- No write, and `1` for what is not determined. -/
def Event.Quiet (e : Event) : Prop :=
  e.writer = none ∧ e.stale = e.isEof.toNat

theorem quiet_of_not_isEof (hwriter : e.writer = none) (he : e.isEof = false) : e.Quiet := by
  refine ⟨hwriter, ?_⟩
  rw [stale_of_not_isEof he, he, Bool.toNat_false, Nat.cast_zero]

/-- **No deadlock**: somebody can take a step until the parent is done, and it
need not be a write. -/
theorem exists_step (h : Shut s) (hne : s.phase ≠ .done) :
    ∃ e s', e.Quiet ∧ Elapsed.step v s e = some s' := by
  cases hphase : s.phase with
  | forking i =>
      exact ⟨.fork true, _, quiet_of_not_isEof rfl rfl,
        step_iff.mpr (.fork true hphase)⟩
  | closing i =>
      exact ⟨.closeWriteEnd, _, quiet_of_not_isEof rfl rfl,
        step_iff.mpr (.closeWriteEnd hphase)⟩
  | reading i =>
      cases hpipe : s.pipe with
      | cons x rest =>
          exact ⟨.read, _, quiet_of_not_isEof rfl rfl,
            step_iff.mpr (.read hphase hpipe)⟩
      | nil =>
          by_cases hheld : ∃ c, (s.child c).holdsPipe = true
          · obtain ⟨c, hc⟩ := hheld
            exact ⟨.exit c, _, quiet_of_not_isEof rfl rfl,
              step_iff.mpr (.exit (alive_of_holdsPipe hc))⟩
          · have hchild : ∀ c, (s.child c).holdsPipe = false := by
              intro c
              rw [← Bool.not_eq_true]
              exact fun hc => hheld ⟨c, hc⟩
            exact ⟨.readEof 1, _, ⟨rfl, by simp [Event.stale, Event.isEof]⟩,
              step_iff.mpr (.readEof 1 hphase hpipe (h i hphase) hchild)⟩
  | waiting i =>
      by_cases hpresent : ∃ c, (s.child c).present = true
      · obtain ⟨c, hc⟩ := hpresent
        rcases zombie_or_alive hc with hzombie | halive
        · exact ⟨.wait c, _, quiet_of_not_isEof rfl rfl,
            step_iff.mpr (.wait hphase hzombie)⟩
        · exact ⟨.exit c, _, quiet_of_not_isEof rfl rfl,
            step_iff.mpr (.exit halive)⟩
      · have hchild : ∀ c, (s.child c).present = false := by
          intro c
          rw [← Bool.not_eq_true]
          exact fun hc => hpresent ⟨c, hc⟩
        exact ⟨.waitNone, _, quiet_of_not_isEof rfl rfl,
          step_iff.mpr (.waitNone hphase hchild)⟩
  | done => exact absurd hphase hne

/-- **Every run can be continued to the end of the parent**, without a write. -/
theorem exists_end (h : Shut s) :
    ∃ es s', (∀ e ∈ es, e.Quiet) ∧ runFrom (Elapsed.step v) s es = some s' ∧
      s'.phase = .done := by
  obtain ⟨es, s', hquiet, hrun, -, hdone⟩ := exists_completion (I := Shut) (μ := World.rank)
    (F := fun s => s.phase = .done) (fun _ _ _ _ hstep hshut => hshut.step (step_iff.mp hstep))
    (fun _ _ _ hstep => (step_iff.mp hstep).rank_lt) (fun _ hshut hne => exists_step hshut hne)
    s h
  exact ⟨es, s', hquiet, hrun, hdone⟩

/-! ## The children that write -/

theorem writers_of_quiet (h : ∀ e ∈ es, e.Quiet) :
    writers es = [] ∧ stale es = eofs es := by
  induction es with
  | nil => exact ⟨rfl, by simp [stale, eofs]⟩
  | cons e es ih =>
      obtain ⟨⟨hwriter, hstale⟩, hes⟩ := List.forall_mem_cons.mp h
      obtain ⟨hwriters, hsum⟩ := ih hes
      rw [← List.singleton_append]
      constructor
      · rw [writers_append, writers_singleton, hwriter, hwriters]
        rfl
      · rw [stale_append, eofs_append, stale_singleton, eofs_singleton, hstale, hsum,
          Nat.cast_add]

/-- The children up to the counter of the loop are running. -/
def Forked (s : World) : Prop :=
  ∀ c, (∀ i, s.phase = .forking i → c < i) → s.child c = .running

theorem Forked.step (h : Forked s) (hstep : Step v s (.fork true) s') : Forked s' := by
  cases hstep with
  | @fork i _ hi =>
      intro c hc
      by_cases heq : c = i
      · simp [heq]
      · simp only [Function.update_of_ne heq]
        refine h c fun j hj => ?_
        obtain rfl : i = j := Phase.forking.inj (hi.symm.trans hj)
        replace heq : c.val ≠ i.val := Fin.val_ne_of_ne heq
        rw [Fin.lt_def]
        by_cases hlast : i.val + 1 < 21
        · have hlt := hc ⟨i + 1, hlast⟩ (dif_pos hlast)
          rw [Fin.lt_def] at hlt
          simp only at hlt
          omega
        · omega

theorem exists_forked (v : Fin 21 → ℚ) :
    ∃ es s, (∀ e ∈ es, e = .fork true) ∧ runFrom (Elapsed.step v) initial es = some s ∧
      ∀ c, s.child c = .running := by
  have hinit : Forked initial := by
    intro c hc
    exact absurd (hc 0 rfl) (Fin.not_lt_zero c)
  have hprogress : ∀ s : World, Forked s → ¬(∀ i, s.phase ≠ .forking i) →
      ∃ e s', e = Event.fork true ∧ Elapsed.step v s e = some s' := by
    intro s _ hne
    rw [not_forall_not] at hne
    obtain ⟨i, hi⟩ := hne
    exact ⟨.fork true, _, rfl, step_iff.mpr (.fork true hi)⟩
  obtain ⟨es, s, hes, hrun, hforked, hend⟩ := exists_completion (μ := World.rank)
    (fun s e s' he hstep hforked => Forked.step hforked (he ▸ step_iff.mp hstep))
    (fun _ _ _ hstep => (step_iff.mp hstep).rank_lt) hprogress initial hinit
  exact ⟨es, s, hes, hrun, fun c => hforked c fun i hi => absurd hi (hend i)⟩

theorem exists_writes {l : List (Fin 21)} (hl : l.Nodup) (h : ∀ c ∈ l, s.child c = .running) :
    ∃ s', runFrom (Elapsed.step v) s (l.map .write) = some s' := by
  induction l generalizing s with
  | nil => exact ⟨s, rfl⟩
  | cons c l ih =>
      obtain ⟨hc, hl'⟩ := List.nodup_cons.mp hl
      have hwrite := step_iff.mpr (Step.write (v := v) (h c List.mem_cons_self))
      obtain ⟨s', hrun⟩ := ih hl' (s := { s with
          child := Function.update s.child c .written
          pipe := s.pipe ++ [v c] }) (by
        intro d hd
        have hne : d ≠ c := by
          rintro rfl
          exact hc hd
        simp only [Function.update_of_ne hne]
        exact h d (List.mem_cons_of_mem _ hd))
      exact ⟨s', runFrom_cons hwrite hrun⟩

theorem writers_map_write (l : List (Fin 21)) :
    writers (l.map .write) = l ∧ stale (l.map .write) = 0 ∧ eofs (l.map .write) = 0 := by
  induction l with
  | nil => exact ⟨rfl, rfl, rfl⟩
  | cons c l ih =>
      obtain ⟨hwriters, hstale, heofs⟩ := ih
      rw [List.map_cons, ← List.singleton_append]
      refine ⟨?_, ?_, ?_⟩
      · rw [writers_append, writers_singleton, hwriters]
        rfl
      · rw [stale_append, stale_singleton, hstale, add_zero]
        rfl
      · rw [eofs_append, eofs_singleton, heofs]
        rfl

/-- Any set of children can be the one that writes, and every read that returns
nothing can add `1`. -/
theorem exists_run (v : Fin 21 → ℚ) (W : Finset (Fin 21)) :
    ∃ es s, runFrom (Elapsed.step v) initial es = some s ∧ s.phase = .done ∧
      (writers es).toFinset = W ∧ stale es = eofs es := by
  obtain ⟨es₁, s₁, hfork, hrun₁, hrunning⟩ := exists_forked v
  obtain ⟨s₂, hrun₂⟩ := exists_writes (v := v) W.nodup_toList (fun c _ => hrunning c)
  have hrun₁₂ := runFrom_append hrun₁ hrun₂
  obtain ⟨es₃, s₃, hquiet, hrun₃, hdone⟩ := exists_end (v := v) (shut_run hrun₁₂)
  have hquiet₁ : ∀ e ∈ es₁, e.Quiet := by
    intro e he
    rw [hfork e he]
    exact quiet_of_not_isEof rfl rfl
  obtain ⟨hwriters₁, hstale₁⟩ := writers_of_quiet hquiet₁
  obtain ⟨hwriters₂, hstale₂, heofs₂⟩ := writers_map_write W.toList
  obtain ⟨hwriters₃, hstale₃⟩ := writers_of_quiet hquiet
  refine ⟨_, s₃, runFrom_append hrun₁₂ hrun₃, hdone, ?_, ?_⟩
  · rw [writers_append, writers_append, hwriters₁, hwriters₂, hwriters₃, List.nil_append,
      List.append_nil, Finset.toList_toFinset]
  · rw [stale_append, stale_append, eofs_append, eofs_append, hstale₁, hstale₂, hstale₃, heofs₂]
    push_cast
    rfl

/-- With a child missing, some read returns nothing. -/
theorem not_collectsExactly {W : Finset (Fin 21)} (hW : W ≠ Finset.univ) :
    ¬CollectsExactly v W := by
  intro h
  obtain ⟨es, s, hrun, hdone, hwriters, hstale⟩ := exists_run v W
  obtain ⟨htotal, hcard⟩ := total_of_done hrun hdone
  have hlt : W.card < 21 := by
    have hne := mt (Finset.card_eq_iff_eq_univ W).mp hW
    have hle := card_finset_fin_le W
    rw [Fintype.card_fin] at hne
    omega
  rw [h es s hrun hdone hwriters, hwriters, hstale] at htotal
  rw [hwriters] at hcard
  have hzero : ((eofs es : ℕ) : ℚ) = 0 := by linarith
  rw [Nat.cast_eq_zero] at hzero
  omega

/-- **The total is right in every run exactly when all 21 children write.** -/
theorem collectsExactly_iff (v : Fin 21 → ℚ) (W : Finset (Fin 21)) :
    CollectsExactly v W ↔ W = Finset.univ := by
  constructor
  · intro h
    by_contra hW
    exact not_collectsExactly hW h
  · rintro rfl es s hrun hdone hwriters
    obtain ⟨htotal, hcard⟩ := total_of_done hrun hdone
    rw [hwriters, Finset.card_univ, Fintype.card_fin] at hcard
    have heofs : eofs es = 0 := by omega
    rw [htotal, hwriters, stale_eq_zero heofs, add_zero]

/-- The last `fork` fails. The last read finds the end of the pipe, and
`elapsed_time` still holds the value of the read before. -/
def lastForkFails : List Event :=
  List.replicate 20 (.fork true) ++ .fork false ::
    ((List.finRange 21).take 20).flatMap (fun c => [.write c, .close c, .exit c]) ++
    ((List.finRange 21).take 20).flatMap (fun c => [.closeWriteEnd, .read, .wait c]) ++
    [.closeWriteEnd, .readEof 1, .waitNone]

/-- Twenty children that take one second each are counted as 21 seconds. -/
theorem not_collectsExactly_twenty :
    ¬CollectsExactly (fun _ => 1) (Finset.univ.erase 20) := by
  intro h
  have hend : (runFrom (step fun _ => 1) initial lastForkFails).map
      (fun s => (s.phase, s.totalElapsedTime)) = some (.done, 21) := by
    decide +kernel
  have hwriters : (writers lastForkFails).toFinset = Finset.univ.erase 20 := by
    decide +kernel
  obtain ⟨s, hrun, hstate⟩ := Option.map_eq_some_iff.mp hend
  obtain ⟨hdone, htotal⟩ := Prod.mk.inj hstate
  have hsum := h lastForkFails s hrun hdone hwriters
  rw [htotal] at hsum
  exact absurd hsum (by decide +kernel)

end OS2023.Sched.Elapsed
