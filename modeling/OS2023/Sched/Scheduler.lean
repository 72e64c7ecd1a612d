import OS2023.Lib.Machine
import Mathlib.Algebra.Ring.Nat
import Mathlib.Logic.Function.Basic

/-!
# CPU-burst accounting in the scheduler

The fields and statements that `3/20193018_PLUS-1` adds to the kernel, inside
the parts of the scheduler that decide what they do: `sched_fork`, the state
changes of a task, wake-ups, `__schedule` and `do_exit`, on one CPU.

The point of the model is the stack. `prev` and `next` are locals of
`__schedule`, so a task that is switched out keeps them in its own frame, and
what runs after `context_switch` is the frame of the task that was resumed:
there, `next` is the task to which *that* task once gave the CPU. A task that
has never been switched out has no such frame; its first run leaves through
`schedule_tail`.

Tasks keep their records after death. `Log` is not part of the kernel: it
records, from the events alone, what the accounting is meant to measure.
-/

namespace OS2023.Sched

open OS2023.Lib

/-! ## Tasks -/

abbrev Pid := ℕ

/-- `__state`. `unused` is a process number that was never given out; `blocked`
is any sleeping state. -/
inductive TaskState where
  | unused
  | new
  | running
  | blocked
  | dead
deriving DecidableEq

/-- The fields of `task_struct` that matter here. `frame` is the local `next` of
the task's suspended `__schedule`, if it has one. -/
structure Task where
  state : TaskState
  onRq : Bool
  cpuBurst : ℕ
  cpuBurstStart : ℕ
  frame : Option Pid
deriving DecidableEq

/-- The run queue's view: all tasks, `rq->curr`, the last clock reading. -/
structure Sys where
  task : Pid → Task
  curr : Pid
  clock : ℕ

def Sys.current (s : Sys) : Task :=
  s.task s.curr

def Sys.set (s : Sys) (p : Pid) (t : Task) : Sys :=
  { s with task := Function.update s.task p t }

/-- Subtraction of `u64` values. -/
def sub64 (a b : ℕ) : ℕ :=
  (a + 2 ^ 64 - b) % 2 ^ 64

/-! ## Events -/

/-- What happens on the CPU. `schedule` carries what the code does not decide:
the mode, whether a signal is pending, the choice of `pick_next_task` and the
two readings of the clock. -/
inductive Event where
  | fork (child : Pid)
  | setCurrentState (block : Bool)
  | wakeUp (p : Pid)
  | schedule (preempt signalPending : Bool) (next : Pid) (t₁ t₂ : ℕ)
  | doExit
  | doTaskDead
deriving DecidableEq

/-- `dup_task_struct` copies the parent's record; `sched_fork` resets the state
and neither burst field. -/
def schedFork (parent : Task) : Task :=
  { parent with state := .new, onRq := false, frame := none }

def signalPendingState (signalPending : Bool) (state : TaskState) : Bool :=
  signalPending && state == .blocked

/-- The first half of `__schedule`: a task that comes in by itself and is not
running stays only for a pending signal. -/
def deactivate (preempt signalPending : Bool) (prev : Task) : Task :=
  if !preempt && prev.state != .running then
    if signalPendingState signalPending prev.state then { prev with state := .running }
    else { prev with onRq := false }
  else prev

/-- The statement in front of `context_switch`. -/
def recordBurst (t : ℕ) (prev : Task) : Task :=
  if prev.state = .running then { prev with cpuBurst := sub64 t prev.cpuBurstStart }
  else prev

/-- The statement behind `context_switch`, in the frame of the resumed task. -/
def stampStart (s : Sys) (frame : Option Pid) (t : ℕ) : Sys :=
  match frame with
  | some next => s.set next { s.task next with cpuBurstStart := t }
  | none => s

/-- `__schedule`, from its entry by `curr` to where the chosen task goes on. -/
def schedule (s : Sys) (preempt signalPending : Bool) (next : Pid) (t₁ t₂ : ℕ) :
    Option Sys :=
  let prev := s.curr
  let s := s.set prev (deactivate preempt signalPending (s.task prev))
  if (s.task next).onRq then
    if prev = next then some s
    else if s.clock < t₁ ∧ t₁ < t₂ ∧ t₂ < 2 ^ 64 then
      let s := s.set prev { recordBurst t₁ (s.task prev) with frame := some next }
      -- `switch_to`: from here on the stack is that of the resumed task
      let s := stampStart s (s.task next).frame t₂
      some { s with curr := next, clock := t₂ }
    else none
  else none

def Sys.step (s : Sys) : Event → Option Sys
  | .fork child =>
      if s.current.state ≠ .dead ∧ (s.task child).state = .unused then
        some (s.set child (schedFork s.current))
      else none
  | .setCurrentState block =>
      if s.current.state = .dead then none
      else some (s.set s.curr
        { s.current with state := if block then .blocked else .running })
  | .wakeUp p =>
      if (s.task p).state = .blocked ∨ (s.task p).state = .new then
        some (s.set p { s.task p with state := .running, onRq := true })
      else none
  | .schedule preempt signalPending next t₁ t₂ =>
      schedule s preempt signalPending next t₁ t₂
  | .doExit => if s.current.state = .dead then none else some s
  | .doTaskDead => some (s.set s.curr { s.current with state := .dead })

/-! ## What is to be measured -/

/-- The truth about one task: when it was last switched in, the stints it has
completed since its fork and their total length, and the burst of its parent
at the fork. -/
structure Account where
  switchedIn : ℕ
  stints : ℕ
  completed : ℕ
  parentBurst : ℕ
deriving DecidableEq

abbrev Log := Pid → Account

def Log.step (log : Log) (s : Sys) : Event → Log
  | .fork child => Function.update log child ⟨0, 0, 0, s.current.cpuBurst⟩
  | .schedule _ _ next t₁ t₂ =>
      if s.curr = next then log
      else
        let out := log s.curr
        let log := Function.update log s.curr
          { out with
            stints := out.stints + 1
            completed := out.completed + (t₁ - out.switchedIn) }
        Function.update log next { log next with switchedIn := t₂ }
  | _ => log

structure World where
  sys : Sys
  log : Log

def World.step (w : World) (e : Event) : Option World := do
  let s ← w.sys.step e
  some ⟨s, w.log.step w.sys e⟩

/-- The first task, alone on the CPU since `boot`. -/
def World.init (boot : ℕ) : World where
  sys :=
    { task := Function.update (fun _ => ⟨.unused, false, 0, 0, none⟩) 0
        ⟨.running, true, 0, 0, none⟩
      curr := 0
      clock := boot }
  log := Function.update (fun _ => ⟨0, 0, 0, 0⟩) 0 ⟨boot, 0, 0, 0⟩

def run (boot : ℕ) (es : List Event) : Option World :=
  runFrom World.step (World.init boot) es

/-- The burst of the running task is the time it has accumulated. -/
def Accumulated (w : World) : Prop :=
  w.sys.current.cpuBurst = (w.log w.sys.curr).completed

instance (w : World) : Decidable (Accumulated w) :=
  inferInstanceAs (Decidable (_ = _))

end OS2023.Sched
