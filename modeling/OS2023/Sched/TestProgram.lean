import Mathlib.Logic.Function.Basic
import OS2023.Lib.Machine
import OS2023.Sched.Log

/-!
# The test program and its log

`assignment3p.c`, the program `testp` that the log of `do_exit` is made for. The
parent forks a child, waits for it, and does this 21 times. Any number of parents
may be under way at once, and a process may be killed anywhere: the processes are
one machine, and a run is any interleaving of their steps. Each of them passes
through `do_exit`, which knows them by name only: `exec` gives the parent the name
`testp`, and `fork` copies it.
-/

namespace OS2023.Sched.TestProgram

open OS2023.Lib

/-! ## The processes -/

/-- What a process is in the test program. -/
inductive Proc where
  /-- No process of the test program. -/
  | none
  /-- The parent, in front of `i < 21`. -/
  | looping (i : ℕ)
  /-- The parent, in `waitpid`. -/
  | waiting (i child : ℕ)
  /-- The parent, after a `fork` that failed. -/
  | failed
  | child
  /-- A child whose parent is gone. -/
  | orphan
  | zombie
deriving DecidableEq

/-- The processes, the two variables of `do_exit`, and the log. -/
structure World where
  proc : ℕ → Proc
  totals : Totals
  log : List Printk

def initial : World :=
  ⟨fun _ => .none, ⟨0, 0⟩, []⟩

inductive Event where
  | exec (p : ℕ)
  /-- `fork` returns the pid of the child, or fails. -/
  | fork (p : ℕ) (child : Option ℕ)
  | waitpid (p : ℕ)
  | exit (p policy cpuBurst : ℕ)
  | kill (p policy cpuBurst : ℕ)
  /-- Another program exits. -/
  | other (tsk : Exiting)
deriving DecidableEq

def World.set (w : World) (p : ℕ) (x : Proc) : World :=
  { w with proc := Function.update w.proc p x }

/-- The head of `do_exit`. -/
def World.exits (w : World) (tsk : Exiting) : World :=
  { w with
    totals := (doExit w.totals tsk).1
    log := w.log ++ (doExit w.totals tsk).2 }

@[simp] theorem World.exits_proc (w : World) (tsk : Exiting) : (w.exits tsk).proc = w.proc :=
  rfl

@[simp] theorem World.set_proc (w : World) (p : ℕ) (x : Proc) :
    (w.set p x).proc = Function.update w.proc p x :=
  rfl

/-- The task `p` of the test program as `do_exit` finds it. -/
def exiting (p policy cpuBurst : ℕ) : Exiting :=
  ⟨testName, p, policy, cpuBurst⟩

/-- What becomes of the child of a parent that is killed. -/
def Proc.abandoned : Proc → Proc
  | .child => .orphan
  | _ => .none

/-- One step of one process. -/
def step (w : World) : Event → Option World
  | .exec p => if w.proc p = .none then some (w.set p (.looping 0)) else none
  | .fork p (some c) =>
      match w.proc p with
      | .looping i =>
          if i < 21 ∧ w.proc c = .none then some ((w.set p (.waiting i c)).set c .child)
          else none
      | _ => none
  | .fork p none =>
      match w.proc p with
      | .looping i => if i < 21 then some (w.set p .failed) else none
      | _ => none
  | .waitpid p =>
      match w.proc p with
      | .waiting i c =>
          if w.proc c = .zombie then some ((w.set p (.looping (i + 1))).set c .none) else none
      | _ => none
  | .exit p policy cpuBurst =>
      let w' := w.exits (exiting p policy cpuBurst)
      match w.proc p with
      | .looping i => if i < 21 then none else some (w'.set p .none)
      | .failed => some (w'.set p .none)
      | .child => some (w'.set p .zombie)
      | .orphan => some (w'.set p .none)
      | _ => none
  | .kill p policy cpuBurst =>
      let w' := w.exits (exiting p policy cpuBurst)
      match w.proc p with
      | .looping _ => some (w'.set p .none)
      | .waiting _ c => some ((w'.set c (w.proc c).abandoned).set p .none)
      | _ => none
  | .other tsk => if isTestp tsk then none else some (w.exits tsk)

/-! ## What a run has done -/

def Event.exiting : Event → Option Exiting
  | .exit p policy cpuBurst => some (TestProgram.exiting p policy cpuBurst)
  | .kill p policy cpuBurst => some (TestProgram.exiting p policy cpuBurst)
  | .other tsk => some tsk
  | _ => none

/-- The exits, in their order. -/
def exits (es : List Event) : List Exiting :=
  es.filterMap Event.exiting

def Event.started : Event → Option ℕ
  | .exec p => some p
  | _ => none

/-- The parents that have been started. -/
def starts (es : List Event) : List ℕ :=
  es.filterMap Event.started

/-- The program is started when no process of it is left, no `fork` fails, and
nobody is killed. -/
def Orderly (w : World) : Event → Prop
  | .exec _ => ∀ q, w.proc q = .none
  | .fork _ none => False
  | .kill _ _ _ => False
  | _ => True

/-! ## Steps -/

/-- Everything a step can do, with its guard. -/
inductive Step (w : World) : Event → World → Prop where
  | exec {p : ℕ} (h : w.proc p = .none) : Step w (.exec p) (w.set p (.looping 0))
  | fork {p i c : ℕ} (h : w.proc p = .looping i) (hi : i < 21) (hchild : w.proc c = .none) :
      Step w (.fork p (some c)) ((w.set p (.waiting i c)).set c .child)
  | forkFails {p i : ℕ} (h : w.proc p = .looping i) (hi : i < 21) :
      Step w (.fork p none) (w.set p .failed)
  | waitpid {p i c : ℕ} (h : w.proc p = .waiting i c) (hchild : w.proc c = .zombie) :
      Step w (.waitpid p) ((w.set p (.looping (i + 1))).set c .none)
  | exitChild {p : ℕ} (policy cpuBurst : ℕ) (h : w.proc p = .child) :
      Step w (.exit p policy cpuBurst)
        ((w.exits (exiting p policy cpuBurst)).set p .zombie)
  | exit {p : ℕ} (policy cpuBurst : ℕ)
      (h : (∃ i, 21 ≤ i ∧ w.proc p = .looping i) ∨ w.proc p = .failed ∨ w.proc p = .orphan) :
      Step w (.exit p policy cpuBurst) ((w.exits (exiting p policy cpuBurst)).set p .none)
  | kill {p i : ℕ} (policy cpuBurst : ℕ) (h : w.proc p = .looping i) :
      Step w (.kill p policy cpuBurst) ((w.exits (exiting p policy cpuBurst)).set p .none)
  | killWaiting {p i c : ℕ} (policy cpuBurst : ℕ) (h : w.proc p = .waiting i c) :
      Step w (.kill p policy cpuBurst)
        (((w.exits (exiting p policy cpuBurst)).set c (w.proc c).abandoned).set p .none)
  | other {tsk : Exiting} (h : isTestp tsk = false) : Step w (.other tsk) (w.exits tsk)

variable {w w' : World} {e : Event} {es : List Event}

theorem step_cases (h : step w e = some w') : Step w e w' := by
  cases e with
  | exec p =>
      obtain ⟨hp, heq⟩ := Option.ite_none_right_eq_some.mp h
      obtain rfl := Option.some.inj heq
      exact .exec hp
  | fork p child =>
      cases child with
      | none =>
          simp only [step] at h
          split at h
          · obtain ⟨hi, heq⟩ := Option.ite_none_right_eq_some.mp h
            obtain rfl := Option.some.inj heq
            exact .forkFails ‹_› hi
          · exact absurd h (by simp)
      | some c =>
          simp only [step] at h
          split at h
          · obtain ⟨⟨hi, hchild⟩, heq⟩ := Option.ite_none_right_eq_some.mp h
            obtain rfl := Option.some.inj heq
            exact .fork ‹_› hi hchild
          · exact absurd h (by simp)
  | waitpid p =>
      simp only [step] at h
      split at h
      · obtain ⟨hchild, heq⟩ := Option.ite_none_right_eq_some.mp h
        obtain rfl := Option.some.inj heq
        exact .waitpid ‹_› hchild
      · exact absurd h (by simp)
  | exit p policy cpuBurst =>
      simp only [step] at h
      split at h
      · obtain ⟨hi, heq⟩ := Option.ite_none_left_eq_some.mp h
        obtain rfl := Option.some.inj heq
        exact .exit policy cpuBurst (.inl ⟨_, Nat.le_of_not_lt hi, ‹_›⟩)
      · obtain rfl := Option.some.inj h
        exact .exit policy cpuBurst (.inr (.inl ‹_›))
      · obtain rfl := Option.some.inj h
        exact .exitChild policy cpuBurst ‹_›
      · obtain rfl := Option.some.inj h
        exact .exit policy cpuBurst (.inr (.inr ‹_›))
      · exact absurd h (by simp)
  | kill p policy cpuBurst =>
      simp only [step] at h
      split at h
      · obtain rfl := Option.some.inj h
        exact .kill policy cpuBurst ‹_›
      · obtain rfl := Option.some.inj h
        exact .killWaiting policy cpuBurst ‹_›
      · exact absurd h (by simp)
  | other tsk =>
      obtain ⟨htsk, heq⟩ := Option.ite_none_left_eq_some.mp h
      obtain rfl := Option.some.inj heq
      exact .other (Bool.eq_false_iff.mpr htsk)

/-! ## The log belongs to the exits -/

/-- A step logs what `do_exit` logs, if it is an exit. -/
theorem Step.logged (h : Step w e w') :
    (e.exiting = none ∧ w'.totals = w.totals ∧ w'.log = w.log) ∨
    ∃ tsk, e.exiting = some tsk ∧ w'.totals = (doExit w.totals tsk).1 ∧
      w'.log = w.log ++ (doExit w.totals tsk).2 := by
  cases h with
  | exec => exact .inl ⟨rfl, rfl, rfl⟩
  | fork => exact .inl ⟨rfl, rfl, rfl⟩
  | forkFails => exact .inl ⟨rfl, rfl, rfl⟩
  | waitpid => exact .inl ⟨rfl, rfl, rfl⟩
  | exitChild => exact .inr ⟨_, rfl, rfl, rfl⟩
  | exit => exact .inr ⟨_, rfl, rfl, rfl⟩
  | kill => exact .inr ⟨_, rfl, rfl, rfl⟩
  | killWaiting => exact .inr ⟨_, rfl, rfl, rfl⟩
  | other => exact .inr ⟨_, rfl, rfl, rfl⟩

theorem exits_snoc (es : List Event) (e : Event) :
    exits (es ++ [e]) = exits es ++ e.exiting.toList := by
  rw [exits, List.filterMap_append]
  cases e <;> rfl

/-- Whatever the processes do, the log is the log of their exits. -/
theorem log_run (hrun : runFrom step initial es = some w) :
    w.totals = totalsAfter (exits es) ∧ w.log = logAfter (exits es) := by
  refine history_invariant
    (I := fun es w => w.totals = totalsAfter (exits es) ∧ w.log = logAfter (exits es))
    ⟨rfl, rfl⟩ ?_ hrun
  rintro es w e w' hstep ⟨htotals, hlog⟩
  rw [exits_snoc]
  rcases (step_cases hstep).logged with ⟨hnone, htotals', hlog'⟩ | ⟨tsk, hsome, htotals', hlog'⟩
  · rw [hnone, Option.toList_none, List.append_nil, htotals', hlog']
    exact ⟨htotals, hlog⟩
  · rw [hsome, Option.toList_some, totalsAfter_snoc, logAfter_snoc, htotals', hlog', htotals,
      hlog]
    exact ⟨rfl, rfl⟩

/-! ## One run after the other -/

/-- The table of a parent. -/
def alone (p : ℕ) (x : Proc) : ℕ → Proc :=
  Function.update (fun _ => .none) p x

/-- The table of a parent in `waitpid` and its child. -/
def together (p i c : ℕ) (y : Proc) : ℕ → Proc :=
  Function.update (alone p (.waiting i c)) c y

/-- The processes of one run and no others: its parent, if it is under way, and the
number of its children that have exited. -/
inductive Stage : (ℕ → Proc) → Option ℕ → ℕ → Prop where
  | idle : Stage (fun _ => .none) none 0
  | looping (p : ℕ) {n : ℕ} (hn : n ≤ 21) : Stage (alone p (.looping n)) (some p) n
  | running {p c n : ℕ} (hn : n < 21) (hne : c ≠ p) :
      Stage (together p n c .child) (some p) n
  | zombie {p c n : ℕ} (hn : n < 21) (hne : c ≠ p) :
      Stage (together p n c .zombie) (some p) (n + 1)

variable {proc : ℕ → Proc} {parent : Option ℕ} {p q c i n : ℕ} {x y : Proc}

theorem Stage.le (h : Stage proc parent n) : n ≤ 21 := by
  cases h with
  | idle => exact Nat.zero_le 21
  | looping _ hn => exact hn
  | running hn _ => exact hn.le
  | zombie hn _ => exact hn

theorem eq_of_alone {z : Proc} (h : alone p x q = z) (hz : z ≠ .none) : q = p ∧ z = x := by
  by_cases hq : q = p
  · rw [hq, alone, Function.update_self] at h
    exact ⟨hq, h.symm⟩
  · rw [alone, Function.update_of_ne hq] at h
    exact absurd h.symm hz

theorem cases_of_together {z : Proc} (h : together p i c y q = z) (hz : z ≠ .none) :
    (q = p ∧ z = .waiting i c) ∨ (q = c ∧ z = y) := by
  by_cases hq : q = c
  · rw [hq, together, Function.update_self] at h
    exact .inr ⟨hq, h.symm⟩
  · rw [together, Function.update_of_ne hq] at h
    exact .inl (eq_of_alone h hz)

theorem Stage.of_looping (h : Stage proc parent n) (hp : proc p = .looping i) :
    parent = some p ∧ i = n ∧ proc = alone p (.looping n) := by
  cases h with
  | idle => cases hp
  | looping p' hn =>
      obtain ⟨rfl, heq⟩ := eq_of_alone hp (by simp)
      exact ⟨rfl, Proc.looping.inj heq, rfl⟩
  | running _ _ =>
      obtain ⟨-, heq⟩ | ⟨-, heq⟩ := cases_of_together hp (by simp)
      · cases heq
      · cases heq
  | zombie _ _ =>
      obtain ⟨-, heq⟩ | ⟨-, heq⟩ := cases_of_together hp (by simp)
      · cases heq
      · cases heq

theorem Stage.of_child (h : Stage proc parent n) (hp : proc c = .child) :
    ∃ p, parent = some p ∧ n < 21 ∧ c ≠ p ∧ proc = together p n c .child := by
  cases h with
  | idle => cases hp
  | looping p' hn =>
      obtain ⟨-, heq⟩ := eq_of_alone hp (by simp)
      cases heq
  | running hn hne =>
      obtain ⟨-, heq⟩ | ⟨rfl, -⟩ := cases_of_together hp (by simp)
      · cases heq
      · exact ⟨_, rfl, hn, hne, rfl⟩
  | zombie _ _ =>
      obtain ⟨-, heq⟩ | ⟨-, heq⟩ := cases_of_together hp (by simp)
      · cases heq
      · cases heq

/-- A child that can be waited for has just been counted. -/
theorem Stage.of_zombie (h : Stage proc parent n) (hp : proc p = .waiting i c)
    (hchild : proc c = .zombie) :
    parent = some p ∧ n = i + 1 ∧ n ≤ 21 ∧ c ≠ p ∧ proc = together p i c .zombie := by
  cases h with
  | idle => cases hp
  | looping p' hn =>
      obtain ⟨-, heq⟩ := eq_of_alone hp (by simp)
      cases heq
  | running _ _ =>
      obtain ⟨-, heq⟩ | ⟨-, heq⟩ := cases_of_together hchild (by simp)
      · cases heq
      · cases heq
  | zombie hn hne =>
      obtain ⟨rfl, heq⟩ | ⟨-, heq⟩ := cases_of_together hp (by simp)
      · obtain ⟨rfl, rfl⟩ := Proc.waiting.inj heq
        exact ⟨rfl, rfl, hn, hne, rfl⟩
      · cases heq

/-- Nobody has failed, and nobody has lost a parent. -/
theorem Stage.ne (h : Stage proc parent n) (hx : x = .failed ∨ x = .orphan) : proc p ≠ x := by
  intro hp
  have hnone : x ≠ .none := by rcases hx with rfl | rfl <;> simp
  cases h with
  | idle => exact hnone hp.symm
  | looping p' hn =>
      obtain ⟨-, rfl⟩ := eq_of_alone hp hnone
      simp at hx
  | running _ _ =>
      obtain ⟨-, rfl⟩ | ⟨-, rfl⟩ := cases_of_together hp hnone
      · simp at hx
      · simp at hx
  | zombie _ _ =>
      obtain ⟨-, rfl⟩ | ⟨-, rfl⟩ := cases_of_together hp hnone
      · simp at hx
      · simp at hx

/-- The table of no processes. -/
theorem Stage.of_none (h : Stage proc parent n) (hnone : ∀ q, proc q = .none) :
    parent = none ∧ n = 0 := by
  cases h with
  | idle => exact ⟨rfl, rfl⟩
  | looping p' hn =>
      have hp := hnone p'
      rw [alone, Function.update_self] at hp
      cases hp
  | @running p' c' _ hn hne =>
      have hp := hnone c'
      rw [together, Function.update_self] at hp
      cases hp
  | @zombie p' c' _ hn hne =>
      have hp := hnone c'
      rw [together, Function.update_self] at hp
      cases hp

/-- What a step of an orderly run does: it is neither start nor exit of a process of
the test program, or the start of a run, or the exit of one more child, or the exit of
the parent after its last child. -/
inductive Stage.Next (e : Event) (proc' : ℕ → Proc) (parent : Option ℕ) (n : ℕ) : Prop where
  | quiet (hstart : e.started = none) (hexit : e.exiting.toList.filter isTestp = [])
      (h : Stage proc' parent n)
  | start {p : ℕ} (hstart : e.started = some p) (hexit : e.exiting = none)
      (hparent : parent = none) (h : Stage proc' (some p) n)
  | child {tsk : Exiting} (hstart : e.started = none) (hexit : e.exiting = some tsk)
      (htsk : isTestp tsk = true) (h : Stage proc' parent (n + 1))
  | parent {tsk : Exiting} (hstart : e.started = none) (hexit : e.exiting = some tsk)
      (htsk : isTestp tsk = true) (hparent : parent = some tsk.pid) (hn : n = 21)
      (h : Stage proc' none 0)

theorem isTestp_exiting (p policy cpuBurst : ℕ) :
    isTestp (exiting p policy cpuBurst) = true := by
  show strncmpEq testName testName 6 = true
  decide

theorem Stage.next (h : Stage w.proc parent n) (hstep : Step w e w')
    (horder : Orderly w e) : Stage.Next e w'.proc parent n := by
  cases hstep with
  | exec hp =>
      have hnone : w.proc = fun _ => .none := funext horder
      obtain ⟨rfl, rfl⟩ := h.of_none horder
      refine .start rfl rfl rfl ?_
      show Stage (Function.update w.proc _ _) _ 0
      rw [hnone]
      exact .looping _ (Nat.zero_le 21)
  | fork hp hi hchild =>
      obtain ⟨rfl, rfl, heq⟩ := h.of_looping hp
      refine .quiet rfl rfl ?_
      show Stage (Function.update (Function.update w.proc _ _) _ _) _ _
      rw [heq, alone, Function.update_idem]
      refine .running hi ?_
      rintro rfl
      rw [hp] at hchild
      cases hchild
  | forkFails hp hi => exact absurd horder id
  | waitpid hp hchild =>
      obtain ⟨rfl, rfl, hle, hne, heq⟩ := h.of_zombie hp hchild
      refine .quiet rfl rfl ?_
      show Stage (Function.update (Function.update w.proc _ _) _ _) _ _
      rw [heq, together, alone, Function.update_comm hne.symm, Function.update_idem,
        Function.update_comm hne, Function.update_idem, Function.update_eq_self_iff.mpr]
      · exact .looping _ hle
      · rw [Function.update_of_ne hne]
  | exitChild policy cpuBurst hp =>
      obtain ⟨p', rfl, hlt, hne, heq⟩ := h.of_child hp
      refine .child rfl rfl (isTestp_exiting _ policy cpuBurst) ?_
      show Stage (Function.update w.proc _ _) _ _
      rw [heq, together, Function.update_idem]
      exact .zombie hlt hne
  | exit policy cpuBurst hp =>
      rcases hp with ⟨i, hi, hp⟩ | hp | hp
      · obtain ⟨hparent, rfl, heq⟩ := h.of_looping hp
        refine .parent rfl rfl (isTestp_exiting _ policy cpuBurst) hparent
          (Nat.le_antisymm h.le hi) ?_
        show Stage (Function.update w.proc _ _) _ _
        rw [heq, alone, Function.update_idem, Function.update_eq_self_iff.mpr rfl]
        exact .idle
      · exact absurd hp (h.ne (.inl rfl))
      · exact absurd hp (h.ne (.inr rfl))
  | kill policy cpuBurst hp => exact absurd horder id
  | killWaiting policy cpuBurst hp => exact absurd horder id
  | other htsk =>
      refine .quiet rfl ?_ h
      show [_].filter isTestp = []
      rw [List.filter_cons_of_neg (by simp [htsk]), List.filter_nil]

/-- The history so far: complete runs, and the children of the run under way. -/
structure Progress (es : List Event) (w : World) (runs : List TestRun)
    (children : List Exiting) (parent : Option ℕ) : Prop where
  complete : ∀ r ∈ runs, r.Complete
  exits : (exits es).filter isTestp = runs.flatMap TestRun.exits ++ children
  starts : starts es = runs.map (fun r => r.parent.pid) ++ parent.toList
  stage : Stage w.proc parent children.length

theorem starts_snoc (es : List Event) (e : Event) :
    starts (es ++ [e]) = starts es ++ e.started.toList := by
  rw [starts, List.filterMap_append]
  cases e <;> rfl

/-- The children of the run under way have the name. -/
theorem Progress.named {runs : List TestRun} {children : List Exiting}
    (h : Progress es w runs children parent) : ∀ tsk ∈ children, isTestp tsk = true := by
  intro tsk htsk
  have hmem : tsk ∈ (TestProgram.exits es).filter isTestp := by
    rw [h.exits]
    exact List.mem_append_right _ htsk
  exact (List.mem_filter.mp hmem).2

theorem Progress.step {runs : List TestRun} {children : List Exiting}
    (h : Progress es w runs children parent) (hstep : Step w e w') (horder : Orderly w e) :
    ∃ runs' children' parent', Progress (es ++ [e]) w' runs' children' parent' := by
  rcases h.stage.next hstep horder with
    ⟨hstart, hexit, hstage⟩ | ⟨hstart, hexit, rfl, hstage⟩ | ⟨hstart, hexit, htsk, hstage⟩ |
    ⟨hstart, hexit, htsk, rfl, hn, hstage⟩
  · refine ⟨runs, children, parent, h.complete, ?_, ?_, hstage⟩
    · rw [exits_snoc, List.filter_append, hexit, List.append_nil, h.exits]
    · rw [starts_snoc, hstart, Option.toList_none, List.append_nil, h.starts]
  · refine ⟨runs, children, _, h.complete, ?_, ?_, hstage⟩
    · rw [exits_snoc, hexit, Option.toList_none, List.append_nil, h.exits]
    · rw [starts_snoc, hstart, h.starts, Option.toList_none, List.append_nil]
  · rename_i tsk
    refine ⟨runs, children ++ [tsk], parent, h.complete, ?_, ?_, ?_⟩
    · rw [exits_snoc, hexit, Option.toList_some, List.filter_append, h.exits,
        List.filter_cons_of_pos htsk, List.filter_nil, List.append_assoc]
    · rw [starts_snoc, hstart, Option.toList_none, List.append_nil, h.starts]
    · rw [List.length_append, List.length_singleton]
      exact hstage
  · rename_i tsk
    have hnamed : ∀ t ∈ children ++ [tsk], isTestp t = true := by
      intro t ht
      rcases List.mem_append.mp ht with ht | ht
      · exact h.named t ht
      · exact List.mem_singleton.mp ht ▸ htsk
    refine ⟨runs ++ [⟨children, tsk, hn.le, hnamed⟩], [], none, ?_, ?_, ?_, hstage⟩
    · intro r hr
      rcases List.mem_append.mp hr with hr | hr
      · exact h.complete r hr
      · exact List.mem_singleton.mp hr ▸ hn
    · rw [exits_snoc, hexit, Option.toList_some, List.filter_append, h.exits,
        List.filter_cons_of_pos htsk, List.filter_nil, List.flatMap_append]
      simp [TestRun.exits]
    · rw [starts_snoc, hstart, h.starts]
      simp

/-- **Orderly runs leave an orderly log**: the lines of one run after the other, each
with its total, and then the lines of the run under way. -/
theorem orderly_log (hrun : runFrom step initial es = some w)
    (horder : Throughout step initial Orderly es) :
    ∃ runs children parent, Progress es w runs children parent ∧
      w.log = runs.flatMap TestRun.lines ++ childLines 0 children := by
  obtain ⟨runs, children, parent, h⟩ :
      ∃ runs children parent, Progress es w runs children parent := by
    refine history_invariant_of
      (I := fun es w => ∃ runs children parent, Progress es w runs children parent)
      ⟨[], [], none, by simp, rfl, rfl, .idle⟩ ?_ horder hrun
    rintro es w e w' horder hstep ⟨runs, children, parent, h⟩
    exact h.step (step_cases hstep) horder
  refine ⟨runs, children, parent, h, ?_⟩
  rw [(log_run hrun).2, logAfter, ← logFrom_filter, h.exits]
  exact logFrom_runs h.complete h.named h.stage.le

/-- One child of the parent 100. -/
def oneChild (i : ℕ) : List Event :=
  [.fork 100 (some (101 + i)), .exit (101 + i) 1 nsecPerSec, .waitpid 100]

/-- The run of the parent 100, once it is started; a shell exits as well. -/
def fromStart : List Event :=
  .other ⟨"bash".toList, 42, 0, 3⟩ :: (List.range 21).flatMap oneChild ++ [.exit 100 1 5]

/-- A whole run of the test program. -/
def oneRun : List Event :=
  .exec 100 :: fromStart

set_option maxRecDepth 8000 in
theorem orderly_log_oneRun : ∃ w, runFrom step initial oneRun = some w ∧
    ∃ runs children parent, Progress oneRun w runs children parent ∧
      w.log = runs.flatMap TestRun.lines ++ childLines 0 children := by
  obtain ⟨w, hrun⟩ : ∃ w, runFrom step initial oneRun = some w := ⟨_, rfl⟩
  refine ⟨w, hrun, orderly_log hrun ?_⟩
  intro before e after s hes hs
  cases before with
  | nil =>
      obtain rfl := Option.some.inj hs
      obtain rfl : Event.exec 100 = e := (List.cons.inj hes).1
      exact fun q => rfl
  | cons b before =>
      have htail : fromStart = before ++ e :: after := (List.cons.inj hes).2
      have hmem : e ∈ fromStart := htail ▸ by simp
      simp only [fromStart, List.cons_append, List.mem_cons, List.mem_append, List.mem_flatMap, oneChild,
        List.mem_range, List.not_mem_nil, or_false] at hmem
      rcases hmem with rfl | ⟨i, -, rfl | rfl | rfl⟩ | rfl
      · trivial
      · trivial
      · trivial
      · trivial
      · trivial

/-! ## Nobody waits in vain -/

/-- The links between parents and children, in any run: who waits has a child of its
own, and who is somebody's child is waited for. -/
structure Linked (proc : ℕ → Proc) : Prop where
  child : ∀ {p i c}, proc p = .waiting i c → proc c = .child ∨ proc c = .zombie
  own : ∀ {p q i j c}, proc p = .waiting i c → proc q = .waiting j c → p = q
  awaited : ∀ {c}, proc c = .child ∨ proc c = .zombie → ∃ p i, proc p = .waiting i c
  fork : ∀ {p i c}, proc p = .waiting i c → i < 21
  loop : ∀ {p i}, proc p = .looping i → i ≤ 21
  /-- There are pids to give away. -/
  free : ∃ n, ∀ q, n ≤ q → proc q = .none

/-- A process without links. -/
def Proc.Plain : Proc → Prop
  | .none | .looping _ | .failed | .orphan => True
  | _ => False

theorem free_update (h : ∃ n, ∀ q, n ≤ q → proc q = .none) (p : ℕ) (x : Proc) :
    ∃ n, ∀ q, n ≤ q → Function.update proc p x q = .none := by
  obtain ⟨n, hn⟩ := h
  refine ⟨max n (p + 1), fun q hq => ?_⟩
  rw [Function.update_of_ne (by omega)]
  exact hn q (by omega)

/-- A process without links changes and gets none. -/
theorem Linked.update (h : Linked proc) (hp : (proc p).Plain) (hx : x.Plain)
    (hloop : ∀ i, x = .looping i → i ≤ 21) : Linked (Function.update proc p x) := by
  obtain ⟨hchild, hown, hawaited, hfork, hle, hfree⟩ := h
  refine ⟨?_, ?_, ?_, ?_, ?_, free_update hfree p x⟩
  · grind [Function.update_apply, Proc.Plain]
  · grind [Function.update_apply, Proc.Plain]
  · intro c hc
    have hne : c ≠ p := by
      rintro rfl
      rw [Function.update_self] at hc
      rcases hc with rfl | rfl
      · exact hx
      · exact hx
    rw [Function.update_of_ne hne] at hc
    obtain ⟨q, i, hq⟩ := hawaited hc
    refine ⟨q, i, ?_⟩
    rw [Function.update_of_ne]
    · exact hq
    · rintro rfl
      rw [hq] at hp
      exact hp
  · grind [Function.update_apply, Proc.Plain]
  · grind [Function.update_apply, Proc.Plain]

theorem Linked.forked (h : Linked proc) (hp : proc p = .looping i) (hi : i < 21)
    (hc : proc c = .none) :
    Linked (Function.update (Function.update proc p (.waiting i c)) c .child) := by
  obtain ⟨hchild, hown, hawaited, hfork, hle, hfree⟩ := h
  refine ⟨?_, ?_, ?_, ?_, ?_, free_update (free_update hfree _ _) _ _⟩
  · grind [Function.update_apply]
  · grind [Function.update_apply]
  · intro c' hc'
    by_cases heq : c' = c
    · exact ⟨p, i, by grind [Function.update_apply]⟩
    · obtain ⟨q, j, hq⟩ := @hawaited c' (by grind [Function.update_apply])
      exact ⟨q, j, by grind [Function.update_apply]⟩
  · grind [Function.update_apply]
  · grind [Function.update_apply]

theorem Linked.exited (h : Linked proc) (hp : proc p = .child) :
    Linked (Function.update proc p .zombie) := by
  obtain ⟨hchild, hown, hawaited, hfork, hle, hfree⟩ := h
  refine ⟨?_, ?_, ?_, ?_, ?_, free_update hfree _ _⟩
  · grind [Function.update_apply]
  · grind [Function.update_apply]
  · intro c hc
    obtain ⟨q, j, hq⟩ := @hawaited c (by grind [Function.update_apply])
    exact ⟨q, j, by grind [Function.update_apply]⟩
  · grind [Function.update_apply]
  · grind [Function.update_apply]

/-- The parent goes on without its child, or neither of them is left. -/
theorem Linked.parted (h : Linked proc) (hp : proc p = .waiting i c) (hx : x.Plain)
    (hy : y.Plain) (hxloop : ∀ j, x = .looping j → j ≤ 21)
    (hyloop : ∀ j, y = .looping j → j ≤ 21) :
    Linked (Function.update (Function.update proc p x) c y) := by
  obtain ⟨hchild, hown, hawaited, hfork, hle, hfree⟩ := h
  refine ⟨?_, ?_, ?_, ?_, ?_, free_update (free_update hfree _ _) _ _⟩
  · grind [Function.update_apply, Proc.Plain]
  · grind [Function.update_apply, Proc.Plain]
  · intro c' hc'
    obtain ⟨q, j, hq⟩ := @hawaited c' (by grind [Function.update_apply, Proc.Plain])
    exact ⟨q, j, by grind [Function.update_apply, Proc.Plain]⟩
  · grind [Function.update_apply, Proc.Plain]
  · grind [Function.update_apply, Proc.Plain]

theorem Step.linked (h : Step w e w') (hlinked : Linked w.proc) : Linked w'.proc := by
  cases h with
  | exec hp =>
      refine hlinked.update (by rw [hp]; trivial) trivial ?_
      rintro i ⟨⟩
      exact Nat.zero_le 21
  | fork hp hi hchild => exact hlinked.forked hp hi hchild
  | forkFails hp hi => exact hlinked.update (by rw [hp]; trivial) trivial (by simp)
  | waitpid hp hchild =>
      refine hlinked.parted hp trivial trivial ?_ (by simp)
      rintro j ⟨⟩
      exact hlinked.fork hp
  | exitChild policy cpuBurst hp => exact hlinked.exited hp
  | exit policy cpuBurst hp =>
      refine hlinked.update ?_ trivial (by simp)
      rcases hp with ⟨i, -, hp⟩ | hp | hp
      · rw [hp]
        trivial
      · rw [hp]
        trivial
      · rw [hp]
        trivial
  | kill policy cpuBurst hp =>
      exact hlinked.update (by rw [hp]; trivial) trivial (by simp)
  | @killWaiting p i c policy cpuBurst hp =>
      have hne : c ≠ p := by
        rintro rfl
        rcases hlinked.child hp with hc | hc
        · rw [hc] at hp
          cases hp
        · rw [hc] at hp
          cases hp
      show Linked (Function.update (Function.update w.proc c _) p .none)
      rw [Function.update_comm hne]
      rcases hlinked.child hp with hc | hc
      · rw [hc]
        exact hlinked.parted hp trivial trivial (by simp) (by simp [Proc.abandoned])
      · rw [hc]
        exact hlinked.parted hp trivial trivial (by simp) (by simp [Proc.abandoned])
  | other htsk => exact hlinked

theorem linked_run (hrun : runFrom step initial es = some w) : Linked w.proc := by
  refine run_invariant (I := fun w => Linked w.proc) ?_ ?_ hrun
  · exact ⟨by simp [initial], by simp [initial], by simp [initial], by simp [initial],
      by simp [initial], 0, fun q _ => rfl⟩
  · exact fun w e w' hstep => (step_cases hstep).linked

/-- The steps that the processes make of themselves. -/
def Event.Regular : Event → Prop
  | .fork _ (some _) => True
  | .waitpid _ => True
  | .exit _ _ _ => True
  | _ => False

/-- Regular steps lead from `w` to the table `proc`. -/
def Reaches (w : World) (proc : ℕ → Proc) : Prop :=
  ∃ es w', (∀ e ∈ es, e.Regular) ∧ runFrom step w es = some w' ∧ w'.proc = proc

theorem Reaches.refl (w : World) : Reaches w w.proc :=
  ⟨[], w, by simp, rfl, rfl⟩

theorem Reaches.cons (he : e.Regular) (hstep : step w e = some w')
    (h : Reaches w' proc) : Reaches w proc := by
  obtain ⟨es, w'', hes, hrun, heq⟩ := h
  refine ⟨e :: es, w'', ?_, runFrom_cons hstep hrun, heq⟩
  rw [List.forall_mem_cons]
  exact ⟨he, hes⟩

theorem Reaches.trans {proc' : ℕ → Proc} (h : Reaches w proc)
    (h' : ∀ w', w'.proc = proc → Reaches w' proc') : Reaches w proc' := by
  obtain ⟨es, w₁, hes, hrun, heq⟩ := h
  obtain ⟨es', w₂, hes', hrun', heq'⟩ := h' w₁ heq
  refine ⟨es ++ es', w₂, ?_, runFrom_append hrun hrun', heq'⟩
  rw [List.forall_mem_append]
  exact ⟨hes, hes'⟩

theorem reaches_none (hp : (∃ i, 21 ≤ i ∧ w.proc p = .looping i) ∨ w.proc p = .failed ∨
    w.proc p = .orphan) : Reaches w (Function.update w.proc p .none) := by
  have hstep : step w (.exit p 0 0) = some ((w.exits (exiting p 0 0)).set p .none) := by
    rcases hp with ⟨i, hi, hp⟩ | hp | hp
    · simp only [step, hp]
      exact if_neg (Nat.not_lt.mpr hi)
    · simp only [step, hp]
    · simp only [step, hp]
  exact Reaches.cons (e := .exit p 0 0) trivial hstep (Reaches.refl _)

/-- The child exits, if it has not yet, and is waited for. -/
theorem reaches_looping (h : Linked w.proc) (hp : w.proc p = .waiting i c) :
    Reaches w (Function.update (Function.update w.proc p (.looping (i + 1))) c .none) := by
  have hwait : ∀ w', w'.proc p = .waiting i c → w'.proc c = .zombie →
      Reaches w' (Function.update (Function.update w'.proc p (.looping (i + 1))) c .none) := by
    intro w' hp hc
    have hstep : step w' (.waitpid p) = some ((w'.set p (.looping (i + 1))).set c .none) := by
      simp only [step, hp]
      exact if_pos hc
    exact Reaches.cons (e := .waitpid p) trivial hstep (Reaches.refl _)
  rcases h.child hp with hc | hc
  · have hstep : step w (.exit c 0 0) = some ((w.exits (exiting c 0 0)).set c .zombie) := by
      simp only [step, hc]
    have hne : p ≠ c := by
      rintro rfl
      rw [hp] at hc
      cases hc
    refine Reaches.cons (e := .exit c 0 0) trivial hstep ?_
    have hreach := hwait ((w.exits (exiting c 0 0)).set c .zombie)
      (by rw [World.set_proc, Function.update_of_ne hne]; exact hp)
      (by rw [World.set_proc, Function.update_self])
    rw [World.set_proc, World.exits_proc, Function.update_comm hne.symm,
      Function.update_idem] at hreach
    exact hreach
  · exact hwait w hp hc

/-- The parent makes all its rounds. -/
theorem reaches_end (h : Linked w.proc) (hp : w.proc p = .looping i) :
    Reaches w (Function.update w.proc p .none) := by
  -- on the rounds that are left
  induction hk : 21 - i generalizing w i with
  | zero => exact reaches_none (.inl ⟨i, by omega, hp⟩)
  | succ k ih =>
      have hi : i < 21 := by omega
      obtain ⟨c, hfree⟩ := h.free
      have hc : w.proc c = .none := hfree c (le_refl c)
      have hne : c ≠ p := by
        rintro rfl
        rw [hp] at hc
        cases hc
      have hstep : step w (.fork p (some c)) = some ((w.set p (.waiting i c)).set c .child) := by
        simp only [step, hp]
        exact if_pos ⟨hi, hc⟩
      have hlinked := (step_cases hstep).linked h
      refine Reaches.cons (e := .fork p (some c)) trivial hstep ?_
      -- the child is gone again after the round
      have hround := reaches_looping (i := i) (p := p) (c := c) hlinked
        (by simp [Function.update_of_ne hne.symm])
      have htable : Function.update (Function.update ((w.set p (.waiting i c)).set c .child).proc
          p (.looping (i + 1))) c .none = Function.update w.proc p (.looping (i + 1)) := by
        funext q
        simp only [World.set_proc, Function.update_apply]
        grind
      rw [htable] at hround
      refine hround.trans fun w' heq => ?_
      have hlinked' : Linked w'.proc := by
        rw [heq]
        refine h.update (by rw [hp]; trivial) trivial ?_
        rintro j ⟨⟩
        exact hi
      have hend := ih hlinked' (i := i + 1) (by rw [heq, Function.update_self]) (by omega)
      rw [heq, Function.update_idem] at hend
      exact hend

/-- **Nobody waits in vain.** In any run, whatever has failed, been killed or is under
way at the same time, each process of the test program comes to its end by regular
steps, and only its own parent or child has to go on for it. -/
theorem ends_regularly (hrun : runFrom step initial es = some w) (p : ℕ) :
    ∃ proc, Reaches w proc ∧ proc p = .none ∧
      ∀ q, q ≠ p → (∀ i, w.proc p ≠ .waiting i q) → (∀ i, w.proc q ≠ .waiting i p) →
        proc q = w.proc q := by
  have h := linked_run hrun
  -- a process that is waited for goes when its parent is through
  have hawaited : ∀ {q i}, w.proc q = .waiting i p →
      ∃ proc, Reaches w proc ∧ proc p = .none ∧
        ∀ r, r ≠ p → (∀ i, w.proc p ≠ .waiting i r) → (∀ i, w.proc r ≠ .waiting i p) →
          proc r = w.proc r := by
    intro q i hq
    refine ⟨_, reaches_looping h hq, Function.update_self _ _ _, ?_⟩
    intro r hr _ hparent
    rw [Function.update_of_ne hr, Function.update_of_ne]
    rintro rfl
    exact hparent i hq
  cases hp : w.proc p with
  | none => exact ⟨w.proc, Reaches.refl w, hp, fun _ _ _ _ => rfl⟩
  | looping i =>
      refine ⟨_, reaches_end h hp, Function.update_self _ _ _, ?_⟩
      exact fun q hq _ _ => Function.update_of_ne hq _ _
  | waiting i c =>
      have hne : c ≠ p := by
        rintro rfl
        rcases h.child hp with hc | hc
        · exact absurd (hp.symm.trans hc) (by simp)
        · exact absurd (hp.symm.trans hc) (by simp)
      have hlinked : Linked (Function.update (Function.update w.proc p (.looping (i + 1))) c
          .none) := by
        refine h.parted hp trivial trivial ?_ (by simp)
        rintro j ⟨⟩
        exact h.fork hp
      refine ⟨Function.update (Function.update (Function.update w.proc p (.looping (i + 1))) c
        .none) p .none, ?_, Function.update_self _ _ _, ?_⟩
      · refine (reaches_looping h hp).trans fun w' heq => ?_
        have hend := reaches_end (p := p) (i := i + 1) (heq ▸ hlinked)
          (by rw [heq, Function.update_of_ne hne.symm, Function.update_self])
        rw [heq] at hend
        exact hend
      · intro q hq hchild _
        have hqc : q ≠ c := by
          rintro rfl
          exact hchild i rfl
        rw [Function.update_of_ne hq, Function.update_of_ne hqc, Function.update_of_ne hq]
  | failed =>
      refine ⟨_, reaches_none (.inr (.inl hp)), Function.update_self _ _ _, ?_⟩
      exact fun q hq _ _ => Function.update_of_ne hq _ _
  | child =>
      obtain ⟨q, i, hq⟩ := h.awaited (.inl hp)
      simpa only [hp] using hawaited hq
  | orphan =>
      refine ⟨_, reaches_none (.inr (.inr hp)), Function.update_self _ _ _, ?_⟩
      exact fun q hq _ _ => Function.update_of_ne hq _ _
  | zombie =>
      obtain ⟨q, i, hq⟩ := h.awaited (.inr hp)
      simpa only [hp] using hawaited hq

/-- One parent is killed while its child runs, the `fork` of another one fails. -/
def killedRun : List Event :=
  [.exec 100, .fork 100 (some 101), .exec 200, .kill 100 1 7, .fork 200 none]

theorem ends_regularly_killedRun : ∃ w, runFrom step initial killedRun = some w ∧
    w.proc 101 = .orphan ∧ ∃ proc, Reaches w proc ∧ proc 101 = .none ∧
      ∀ q, q ≠ 101 → (∀ i, w.proc 101 ≠ .waiting i q) → (∀ i, w.proc q ≠ .waiting i 101) →
        proc q = w.proc q := by
  obtain ⟨w, hrun, horphan⟩ :
      ∃ w, runFrom step initial killedRun = some w ∧ w.proc 101 = .orphan := ⟨_, rfl, rfl⟩
  exact ⟨w, hrun, horphan, ends_regularly hrun 101⟩

end OS2023.Sched.TestProgram
